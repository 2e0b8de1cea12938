import Mathlib
import NewtonKrylov.Backend

/-!
# Binary64 numbers that are not finite

An infinity or a number that is none is never lost: products, sums, negatives and roots of it are not
finite either. A root is taken of a sum of squares, with what is below zero raised to it first; such a
sum is never below zero (`foldl_not_lt_zero`), so nothing is lost there.
-/

namespace NewtonKrylov.Binary64

open Float.Model (UnpackedFloat)
open Float.Model.UnpackedFloat (Sign)

variable {u v : UnpackedFloat} {spec : Float.Model.Format} {a b : Float}

/-! ## Operations on unpacked numbers -/

theorem mul_finite (h : (u.mul spec v).isFinite = true) : u.isFinite = true ∧ v.isFinite = true := by
  cases u <;> cases v <;> simp_all [UnpackedFloat.mul, UnpackedFloat.isFinite]

theorem add_finite (h : (u.add spec v).isFinite = true) : u.isFinite = true ∧ v.isFinite = true := by
  cases u with
  | infinity s =>
    cases v with
    | infinity t => cases s <;> cases t <;> cases h
    | _ => cases h
  | _ => cases v <;> simp_all [UnpackedFloat.add, UnpackedFloat.isFinite]

theorem neg_finite (h : u.neg.isFinite = true) : u.isFinite = true := by
  cases u <;> simp_all [UnpackedFloat.neg, UnpackedFloat.isFinite]

theorem sqrt_finite (h : (u.sqrt spec).isFinite = true) : u.isFinite = true := by
  cases u with
  | infinity s => cases s <;> cases h
  | _ => simp_all [UnpackedFloat.sqrt, UnpackedFloat.isFinite]

/-- What is packed and unpacked again is finite only if it was before. -/
theorem pack_finite (h : (Float.Model.pack u).isFinite = true) : u.isFinite = true := by
  cases u with
  | infinity s => cases s <;> cases h
  | notANumber => cases h
  | _ => rfl

/-! ## Operations on numbers -/

theorem finite_of_mul (h : (a * b).isFinite = true) : a.isFinite = true ∧ b.isFinite = true :=
  mul_finite (pack_finite h)

theorem finite_of_add (h : (a + b).isFinite = true) : a.isFinite = true ∧ b.isFinite = true :=
  add_finite (pack_finite h)

theorem finite_of_neg (h : (-a).isFinite = true) : a.isFinite = true :=
  neg_finite (pack_finite h)

theorem finite_of_sqrt (h : a.sqrt.isFinite = true) : a.isFinite = true :=
  sqrt_finite (pack_finite h)

/-! ## Numbers that are not below zero -/

/-- The number has no negative sign, or it is none. -/
def Unsigned (u : UnpackedFloat) : Prop :=
  match u with
  | .notANumber => True
  | .infinity s => s = .positive
  | .zero s => s = .positive
  | .finite s _ _ _ => s = .positive

theorem round_unsigned (m : Nat) (e : Int) (accuracy : UnpackedFloat.Accuracy) :
    Unsigned (UnpackedFloat.roundWithAccuracy spec .positive m e accuracy) := by
  unfold UnpackedFloat.roundWithAccuracy
  dsimp only
  split
  · rfl
  · rfl

theorem normalize_unsigned {m : Int} (h : 0 ≤ m) (e : Int) :
    Unsigned (UnpackedFloat.normalize spec m e .positive) := by
  unfold UnpackedFloat.normalize
  split
  · rename_i hlt
    rw [Int.compare_eq_lt] at hlt
    omega
  · rfl
  · exact round_unsigned _ _ _

theorem mul_self_unsigned : Unsigned (u.mul spec u) := by
  have hsign : ∀ s : Sign, s * s = .positive := fun s => by cases s <;> rfl
  cases u with
  | notANumber => exact trivial
  | infinity s => exact hsign s
  | zero s => exact hsign s
  | finite s m e hm =>
    rw [UnpackedFloat.mul, hsign]
    exact round_unsigned _ _ _

theorem add_unsigned (hu : Unsigned u) (hv : Unsigned v) : Unsigned (u.add spec v) := by
  cases u with
  | notANumber => exact trivial
  | infinity s =>
    cases hu
    cases v with
    | notANumber => exact trivial
    | infinity t =>
      cases hv
      rfl
    | zero t => rfl
    | finite t m e hm => rfl
  | zero s =>
    cases hu
    cases v with
    | zero t =>
      cases hv
      rfl
    | notANumber => exact trivial
    | infinity t => exact hv
    | finite t m e hm => exact hv
  | finite s m e hm =>
    cases hu
    cases v with
    | notANumber => exact trivial
    | infinity t => exact hv
    | zero t => rfl
    | finite t m' e' hm' =>
      cases hv
      exact normalize_unsigned (Int.add_nonneg (Int.natCast_nonneg _) (Int.natCast_nonneg _)) _

theorem unpack_unsigned (e : BitVec 11) (m : BitVec 52) : Unsigned
    (UnpackedFloat.unpack .binary64 (UnpackedFloat.packComponents .binary64 .positive e m)) := by
  unfold UnpackedFloat.unpack
  dsimp only
  rw [UnpackedFloat.unpackSign_packComponents, UnpackedFloat.Sign.ofBitVec_toBitVec]
  split
  · split
    · rfl
    · exact trivial
  · split
    · split
      · rfl
      · rfl
    · rfl

theorem pack_unsigned (h : Unsigned u) : Unsigned (Float.Model.pack u).unpack := by
  cases u with
  | notANumber => exact trivial
  | infinity s =>
    cases h
    exact unpack_unsigned _ _
  | zero s =>
    cases h
    exact unpack_unsigned _ _
  | finite s m e hm =>
    cases h
    show Unsigned (UnpackedFloat.unpack .binary64 (UnpackedFloat.pack .binary64 _))
    unfold UnpackedFloat.pack
    dsimp only
    split
    · exact unpack_unsigned _ _
    · split
      · exact unpack_unsigned _ _
      · exact unpack_unsigned _ _

theorem not_lt_zero (h : Unsigned a.toModel.unpack) : ¬ a < Float.ofNat 0 := by
  have hzero : (Float.ofNat 0).toModel.unpack = .zero .positive := rfl
  show ¬ Float.lt a (Float.ofNat 0) = true
  rw [Float.lt, decide_eq_true_iff]
  show ¬ UnpackedFloat.lt _ (Float.ofNat 0).toModel.unpack = true
  rw [UnpackedFloat.lt, hzero]
  cases hu : a.toModel.unpack with
  | notANumber => exact Bool.false_ne_true
  | zero s => exact Bool.false_ne_true
  | infinity s =>
    rw [hu] at h
    cases h
    exact Bool.false_ne_true
  | finite s m e hm =>
    rw [hu] at h
    cases h
    exact Bool.false_ne_true

/-! ## Sums -/

theorem finite_of_foldl {xs : List Float} (h : (xs.foldl (· + ·) a).isFinite = true) :
    a.isFinite = true ∧ ∀ x ∈ xs, x.isFinite = true := by
  induction xs generalizing a with
  | nil => exact ⟨h, nofun⟩
  | cons x xs ih =>
    obtain ⟨hsum, hxs⟩ := ih h
    obtain ⟨ha, hx⟩ := finite_of_add hsum
    refine ⟨ha, fun y hy => ?_⟩
    rcases List.mem_cons.mp hy with rfl | hy
    · exact hx
    · exact hxs y hy

/-- A sum is not below zero if nothing that it sums has a negative sign. -/
theorem foldl_not_lt_zero {xs : List Float} (ha : Unsigned a.toModel.unpack)
    (hxs : ∀ x ∈ xs, Unsigned x.toModel.unpack) : ¬ xs.foldl (· + ·) a < Float.ofNat 0 := by
  induction xs generalizing a with
  | nil => exact not_lt_zero ha
  | cons x xs ih =>
    refine ih ?_ fun y hy => hxs y (List.mem_cons_of_mem x hy)
    exact pack_unsigned (add_unsigned ha (hxs x List.mem_cons_self))

end NewtonKrylov.Binary64
