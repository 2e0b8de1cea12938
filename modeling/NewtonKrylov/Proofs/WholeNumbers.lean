import NewtonKrylov.Backend
import NewtonKrylov.Proofs.Rounding

/-!
# Whole numbers in binary64

An integer below `2 ^ 53` in magnitude is a binary64 number (`Binary64.number_holds`), and so are the
sums and products of such numbers that are below `2 ^ 53` as well: what rounding cuts off a mantissa is
zeros then (`Binary64.roundWithAccuracy_whole`). A cut into a word that has room for the integer leaves
it alone.
-/

namespace NewtonKrylov.Binary64

open Float.Model (UnpackedFloat Format)
open Float.Model.UnpackedFloat
open Rounding

/-! ## Numbers and their bits -/

/-- The bits of a canonical number. -/
def read : UnpackedFloat → Binary
  | .infinity s => .infinite (s == .negative)
  | .notANumber => .nan
  | .zero s => .finite (s == .negative) 0 Binary.leastExponent
  | .finite s m e _ => .finite (s == .negative) m e

section Bits

variable (b : BitVec Float.Model.Format.binary64.numBits)

theorem toNat_unpackExponent : (unpackExponent b).toNat = b.toNat / 2 ^ 52 % 2 ^ 11 := by
  simp [unpackExponent, BitVec.extractLsb, Nat.shiftRight_eq_div_pow]

theorem toNat_unpackMantissa : (unpackMantissa b).toNat = b.toNat % 2 ^ 52 := by
  simp [unpackMantissa, BitVec.extractLsb, Nat.shiftRight_eq_div_pow]

theorem toNat_unpackSign : (unpackSign b).toNat = b.toNat / 2 ^ 63 := by
  have hlt : b.toNat < 2 ^ 64 := b.isLt
  simp [unpackSign, BitVec.extractLsb, Nat.shiftRight_eq_div_pow]
  omega

theorem sign_eq : (Sign.ofBitVec (unpackSign b) == .negative) = (b.toNat / 2 ^ 63 == 1) := by
  have hlt : b.toNat < 2 ^ 64 := b.isLt
  have hsign : unpackSign b = 0#1 ↔ b.toNat / 2 ^ 63 = 0 := by
    rw [← BitVec.toNat_inj, toNat_unpackSign]
    rfl
  rw [Sign.ofBitVec]
  by_cases h : b.toNat / 2 ^ 63 = 0
  · rw [if_pos (hsign.mpr h), h]
    rfl
  · have hone : b.toNat / 2 ^ 63 = 1 := by omega
    rw [if_neg (hsign.not.mpr h), hone]
    rfl

theorem exponent_eq_ones : unpackExponent b = -1#_ ↔ b.toNat / 2 ^ 52 % 2 ^ 11 = 2047 := by
  rw [← BitVec.toNat_inj, toNat_unpackExponent]
  rfl

theorem exponent_eq_zero : unpackExponent b = 0#_ ↔ b.toNat / 2 ^ 52 % 2 ^ 11 = 0 := by
  rw [← BitVec.toNat_inj, toNat_unpackExponent]
  rfl

theorem mantissa_eq_zero : unpackMantissa b = 0#_ ↔ b.toNat % 2 ^ 52 = 0 := by
  rw [← BitVec.toNat_inj, toNat_unpackMantissa]
  rfl

theorem read_unpack : read (UnpackedFloat.unpack .binary64 b) =
    if b.toNat / 2 ^ 52 % 2 ^ 11 = 2047 then
      if b.toNat % 2 ^ 52 = 0 then .infinite (b.toNat / 2 ^ 63 == 1) else .nan
    else if b.toNat / 2 ^ 52 % 2 ^ 11 = 0 then
      .finite (b.toNat / 2 ^ 63 == 1) (b.toNat % 2 ^ 52) Binary.leastExponent
    else
      .finite (b.toNat / 2 ^ 63 == 1) (2 ^ 52 + b.toNat % 2 ^ 52)
        ((b.toNat / 2 ^ 52 % 2 ^ 11 : Nat) - 1075) := by
  unfold UnpackedFloat.unpack
  by_cases h₁ : b.toNat / 2 ^ 52 % 2 ^ 11 = 2047
  · rw [if_pos h₁, if_pos ((exponent_eq_ones b).mpr h₁)]
    by_cases h₂ : b.toNat % 2 ^ 52 = 0
    · rw [if_pos h₂, if_pos ((mantissa_eq_zero b).mpr h₂), read, sign_eq]
    · rw [if_neg h₂, if_neg ((mantissa_eq_zero b).not.mpr h₂), read]
  rw [if_neg h₁, if_neg ((exponent_eq_ones b).not.mpr h₁)]
  by_cases h₂ : b.toNat / 2 ^ 52 % 2 ^ 11 = 0
  · rw [if_pos h₂, if_pos ((exponent_eq_zero b).mpr h₂)]
    by_cases h₃ : b.toNat % 2 ^ 52 = 0
    · rw [dif_pos ((mantissa_eq_zero b).mpr h₃), read, sign_eq, h₃]
    · rw [dif_neg ((mantissa_eq_zero b).not.mpr h₃), read, sign_eq, toNat_unpackMantissa,
        toNat_unpackExponent, h₂]
      rfl
  · rw [if_neg h₂, if_neg ((exponent_eq_zero b).not.mpr h₂), read, sign_eq, toNat_unpackExponent,
      toNat_append_one, toNat_unpackMantissa]
    rfl

end Bits

theorem ofFloat_eq (x : Float) : Binary.ofFloat x = read x.toModel.unpack :=
  (read_unpack _).symm

/-! ## Rounding of whole numbers -/

theorem log2_le {a : Nat} (ha : a ≠ 0) (h : a < 2 ^ 53) : a.log2 ≤ 52 :=
  Nat.lt_succ_iff.mp ((Nat.log2_lt ha).mpr h)

/-- A number is an integer that binary64 holds without rounding: the mantissa is shifted to 53 bits. -/
inductive Whole : UnpackedFloat → Int → Prop
  | zero (s : Sign) : Whole (.zero s) 0
  | finite (s : Sign) {a k : Nat} (ha : a ≠ 0) (hk : a.log2 + k = 52) (h : 0 < a * 2 ^ k) :
    Whole (.finite s (a * 2 ^ k) (-k) h) (s.apply a)

theorem canonical_whole {a k : Nat} (ha : a ≠ 0) (hk : a.log2 + k = 52) :
    Canonical .binary64 (a * 2 ^ k) (-k) := by
  obtain rfl : k = 52 - a.log2 := by omega
  have hcanonical := canonical64 (Nat.pos_of_ne_zero ha) (by omega) (e := 0) (by omega)
  rwa [zero_sub] at hcanonical

theorem roundWithAccuracy_whole (s : Sign) {a k : Nat} (ha : a ≠ 0) (hk : 52 ≤ a.log2 + k)
    (h : a < 2 ^ 53) : Whole (roundWithAccuracy .binary64 s (a * 2 ^ k) (-k) .exact) (s.apply a) := by
  have hlog := log2_le ha h
  obtain ⟨j, rfl⟩ : ∃ j, k = (52 - a.log2) + j := ⟨k - (52 - a.log2), by omega⟩
  have hcanonical := canonical_whole ha (k := 52 - a.log2) (by omega)
  have hround := hcanonical.roundWithAccuracy_eq s j
  have hexponent : -((52 - a.log2 : Nat) : Int) - j = -((52 - a.log2 + j : Nat) : Int) := by omega
  rw [mul_assoc, ← pow_add, hexponent] at hround
  rw [hround]
  exact .finite s ha (by omega) _

theorem decreaseExponent_eq (m k j : Nat) (h : k ≤ j) :
    decreaseExponent (m * 2 ^ k) (-k) (-j) = (m * 2 ^ j, -(j : Int)) := by
  have hshift : (-(k : Int) - -(j : Int)).toNat = j - k := by omega
  rw [decreaseExponent, hshift, Nat.shiftLeft_eq, mul_assoc, ← pow_add, Nat.add_sub_cancel' h]
  congr 1
  omega

theorem round_whole (s : Sign) {a : Nat} (ha : a ≠ 0) (h : a < 2 ^ 53) (k : Nat) :
    Whole (round .binary64 s (a * 2 ^ k) (-k)) (s.apply a) := by
  have hlog := log2_le ha h
  have hcanonical := canonical_whole ha (k := 52 - a.log2) (by omega)
  have hround := hcanonical.round_eq s (n := a * 2 ^ k) (i := 52 - a.log2) (j := k) (t := -k)
    (mul_right_comm _ _ _) (by ring)
  rw [hround]
  exact .finite s ha (by omega) _

theorem normalize_whole {n : Int} (h : n.natAbs < 2 ^ 53) (k : Nat) (s : Sign) :
    Whole (UnpackedFloat.normalize .binary64 (n * 2 ^ k) (-k) s) n := by
  have hpow : (0 : Int) < 2 ^ k := by positivity
  unfold UnpackedFloat.normalize
  rcases lt_trichotomy n 0 with hn | rfl | hn
  · have hcompare : compare (n * 2 ^ k) 0 = .lt := by
      rw [Int.compare_eq_lt]
      exact mul_neg_of_neg_of_pos hn hpow
    obtain ⟨a, rfl⟩ : ∃ a : Nat, n = -a := ⟨n.natAbs, by omega⟩
    have hmantissa : (-(-(a : Int) * 2 ^ k)).toNat = a * 2 ^ k := by
      rw [neg_mul, neg_neg]
      norm_cast
    rw [hcompare, hmantissa]
    exact round_whole .negative (by omega) (by omega) k
  · rw [zero_mul]
    exact .zero s
  · have hcompare : compare (n * 2 ^ k) 0 = .gt := by
      rw [Int.compare_eq_gt]
      exact mul_pos hn hpow
    obtain ⟨a, rfl⟩ : ∃ a : Nat, n = a := ⟨n.natAbs, by omega⟩
    have hmantissa : ((a : Int) * 2 ^ k).toNat = a * 2 ^ k := by norm_cast
    rw [hcompare, hmantissa]
    exact round_whole .positive (by omega) (by omega) k

/-! ## Arithmetic of whole numbers -/

variable {u v : UnpackedFloat} {m n : Int}

theorem apply_mul_apply (s t : Sign) (a b : Int) : s.apply a * t.apply b = (s * t).apply (a * b) := by
  cases s <;> cases t
  · exact neg_mul_neg a b
  · exact neg_mul a b
  · exact mul_neg a b
  · rfl

theorem natAbs_apply (s : Sign) (a : Nat) : (s.apply a).natAbs = a := by
  cases s <;> simp [Sign.apply]

theorem apply_mul (s : Sign) (a b : Int) : s.apply (a * b) = s.apply a * b := by
  cases s <;> simp [Sign.apply]

theorem Whole.mul (hu : Whole u m) (hv : Whole v n) (h : (m * n).natAbs < 2 ^ 53) :
    Whole (u.mul .binary64 v) (m * n) := by
  cases hu with
  | zero s =>
    rw [zero_mul]
    cases hv with
    | zero t => exact .zero _
    | finite t => exact .zero _
  | @finite s a k ha hk hpos =>
    cases hv with
    | zero t =>
      rw [mul_zero]
      exact .zero _
    | @finite t b j hb hj hpos' =>
      have hmantissa : a * 2 ^ k * (b * 2 ^ j) = a * b * 2 ^ (k + j) := by
        rw [pow_add]
        ring
      have hexponent : -(k : Int) + -(j : Int) = -((k + j : Nat) : Int) := by omega
      rw [apply_mul_apply, ← Nat.cast_mul, natAbs_apply] at h
      rw [apply_mul_apply, ← Nat.cast_mul, UnpackedFloat.mul, hmantissa, hexponent]
      refine roundWithAccuracy_whole (s * t) (mul_ne_zero ha hb) ?_ h
      have hlog : a.log2 ≤ (a * b).log2 := by
        rw [Nat.le_log2 (mul_ne_zero ha hb)]
        exact (Nat.log2_self_le ha).trans (Nat.le_mul_of_pos_right a (Nat.pos_of_ne_zero hb))
      omega

theorem Whole.add (hu : Whole u m) (hv : Whole v n) (h : (m + n).natAbs < 2 ^ 53) :
    Whole (u.add .binary64 v) (m + n) := by
  cases hu with
  | zero s =>
    rw [zero_add]
    cases hv with
    | zero t =>
      cases s <;> cases t
      all_goals exact .zero _
    | finite t hb hj hpos => exact .finite t hb hj hpos
  | @finite s a k ha hk hpos =>
    cases hv with
    | zero t =>
      rw [add_zero]
      exact .finite s ha hk hpos
    | @finite t b j hb hj hpos' =>
      have hexponent : min (-(k : Int)) (-(j : Int)) = -((max k j : Nat) : Int) := by omega
      have hmantissa : s.apply ((a * 2 ^ max k j : Nat) : Int) + t.apply ((b * 2 ^ max k j : Nat) : Int) =
          (s.apply a + t.apply b) * 2 ^ max k j := by
        push_cast
        rw [apply_mul, apply_mul, add_mul]
      have hadd : (UnpackedFloat.finite s (a * 2 ^ k) (-k) hpos).add .binary64
          (.finite t (b * 2 ^ j) (-j) hpos') =
          UnpackedFloat.normalize .binary64 ((s.apply a + t.apply b) * 2 ^ max k j) (-(max k j : Nat))
            .positive := by
        simp only [UnpackedFloat.add, hexponent, decreaseExponent_eq a k _ (le_max_left k j),
          decreaseExponent_eq b j _ (le_max_right k j), hmantissa]
      rw [hadd]
      exact normalize_whole h (max k j) .positive

theorem apply_neg (s : Sign) (a : Int) : (-s).apply a = -s.apply a := by
  cases s with
  | negative => exact (neg_neg a).symm
  | positive => rfl

theorem Whole.neg (hu : Whole u n) : Whole u.neg (-n) := by
  cases hu with
  | zero s => exact .zero _
  | finite s ha hk h =>
    rw [← apply_neg]
    exact .finite _ ha hk h

theorem ofInt_whole (h : n.natAbs < 2 ^ 53) : Whole (ofInt .binary64 n) n := by
  have hnormalize := normalize_whole h 0 .positive
  rwa [pow_zero, mul_one, Nat.cast_zero, neg_zero] at hnormalize

/-! ## Whole numbers -/

/-- A number is an integer below 2 ^ 53 in magnitude. -/
def Holds (x : Float) (n : Int) : Prop := Whole x.toModel.unpack n

theorem Whole.holds (hu : Whole u n) : Holds (.ofModel (.pack u)) n := by
  have hheld : Held .binary64 u := by
    cases hu with
    | zero s => trivial
    | finite s ha hk h => exact canonical_whole ha hk
  show Whole (UnpackedFloat.unpack .binary64 (UnpackedFloat.pack .binary64 u)) n
  rwa [hheld.unpack_pack]

variable {x y : Float}

theorem Holds.mul (hx : Holds x m) (hy : Holds y n) (h : (m * n).natAbs < 2 ^ 53) :
    Holds (x * y) (m * n) :=
  (Whole.mul hx hy h).holds

theorem Holds.add (hx : Holds x m) (hy : Holds y n) (h : (m + n).natAbs < 2 ^ 53) :
    Holds (x + y) (m + n) :=
  (Whole.add hx hy h).holds

theorem Holds.neg (hx : Holds x n) : Holds (-x) (-n) := (Whole.neg hx).holds

theorem number_holds (h : n.natAbs < 2 ^ 53) : Holds (Word.number n) n := by
  have hmagnitude : Holds n.natAbs.toUInt64.toFloat n.natAbs := by
    have htoNat : (n.natAbs.toUInt64.toNat : Int) = n.natAbs := by
      rw [Nat.toUInt64, UInt64.toNat_ofNat', Nat.mod_eq_of_lt (by omega)]
    have hwhole : Whole (ofUInt64 .binary64 n.natAbs.toUInt64) n.natAbs := by
      unfold ofUInt64 ofNat
      rw [htoNat]
      exact ofInt_whole h
    exact hwhole.holds
  unfold Word.number
  dsimp only
  by_cases hn : n < 0
  · rw [if_pos hn]
    have hneg := hmagnitude.neg
    rwa [Int.ofNat_natAbs_of_nonpos hn.le, neg_neg] at hneg
  · rw [if_neg hn]
    rwa [Int.natAbs_of_nonneg (not_lt.mp hn)] at hmagnitude

theorem ratio_neg (m k : Nat) : Binary.ratio m (-k) = (m, 2 ^ k) := by
  simp [Binary.ratio, pow2]

theorem ratio_natCast (m k : Nat) : Binary.ratio m k = (m * 2 ^ k, 1) := by
  simp [Binary.ratio, pow2]

theorem truncated_apply (s : Sign) (a k : Nat) :
    Binary.truncated (s == .negative) (a * 2 ^ k) (-k) = s.apply a := by
  have hdiv : a * 2 ^ k / 2 ^ k = a := Nat.mul_div_cancel a (Nat.two_pow_pos k)
  rw [Binary.truncated, ratio_neg]
  dsimp only
  rw [hdiv]
  cases s <;> rfl

theorem truncated_natCast (s : Sign) (m k : Nat) :
    Binary.truncated (s == .negative) m k = s.apply ((m * 2 ^ k : Nat) : Int) := by
  rw [Binary.truncated, ratio_natCast]
  dsimp only
  rw [Nat.div_one]
  cases s <;> rfl

theorem truncated_zero (negative : Bool) (q : Int) : Binary.truncated negative 0 q = 0 := by
  simp [Binary.truncated, Binary.ratio]

theorem Holds.natAbs_lt (hx : Holds x n) : n.natAbs < 2 ^ 53 := by
  unfold Holds at hx
  generalize x.toModel.unpack = u at hx
  cases hx with
  | zero s => exact Nat.two_pow_pos 53
  | @finite s a k ha hk h =>
    rw [natAbs_apply]
    exact (Nat.log2_lt ha).mp (by omega)

theorem Holds.equalsInt (hx : Holds x n) : (Binary.ofFloat x).equalsInt n = true := by
  rw [ofFloat_eq]
  unfold Holds at hx
  generalize x.toModel.unpack = u at hx
  cases hx with
  | zero s => simp [read, Binary.equalsInt, Binary.ratio, truncated_zero]
  | @finite s a k ha hk h =>
    rw [read, Binary.equalsInt, ratio_neg, truncated_apply]
    simp

theorem exact_of_equalsInt (h : (Binary.ofFloat x).equalsInt n = true)
    (hn : -9223372036854775808 ≤ n ∧ n < 9223372036854775808) : Word.exact x = .ok n := by
  unfold Word.exact
  cases hx : Binary.ofFloat x with
  | nan => rw [hx] at h; cases h
  | infinite s => rw [hx] at h; cases h
  | finite s m q =>
    rw [hx, Binary.equalsInt, Bool.and_eq_true, beq_iff_eq, beq_iff_eq] at h
    simp only [h.2]
    exact if_pos hn

theorem Holds.exact_eq (hx : Holds x n) : Word.exact x = .ok n := by
  have hlt := hx.natAbs_lt
  exact exact_of_equalsInt hx.equalsInt (by omega)

theorem cut_of_exact {least : Int} (h : Word.exact x = .ok n) (hn : Word.Fits least n) :
    Word.cut least x = n := by
  rw [Word.cut, h]
  exact if_pos hn

theorem unpack_finite {s : Sign} {m : Nat} {e : Int} {h : 0 < m} (hx : x.toModel.unpack = .finite s m e h) :
    m.log2 = 52 ∨ m < 2 ^ 52 ∧ e = -1074 := by
  have hheld := unpack_held64 x
  rw [hx] at hheld
  have hcanonical : Canonical .binary64 m e := hheld
  rcases hcanonical.cases with ⟨hlog, -⟩ | ⟨hlog, he⟩
  · exact .inl hlog
  · exact .inr ⟨(Nat.log2_lt h.ne').mp hlog, he⟩

theorem holds_of_equalsInt (h : (Binary.ofFloat x).equalsInt n = true) (hn : n.natAbs < 2 ^ 53) :
    Holds x n := by
  rw [ofFloat_eq] at h
  unfold Holds
  cases hu : x.toModel.unpack with
  | infinity s => rw [hu] at h; cases h
  | notANumber => rw [hu] at h; cases h
  | zero s =>
    rw [hu] at h
    simp [read, Binary.equalsInt, truncated_zero] at h
    rw [← h.2]
    exact .zero s
  | finite s m e hpos =>
    rw [hu] at h
    have hcanonical := unpack_finite hu
    rw [read, Binary.equalsInt, Bool.and_eq_true, beq_iff_eq, beq_iff_eq] at h
    rcases lt_or_ge e 0 with he | he
    · obtain ⟨k, rfl⟩ : ∃ k : Nat, e = -k := ⟨e.natAbs, by omega⟩
      rw [ratio_neg] at h
      obtain ⟨a, rfl⟩ : ∃ a, m = a * 2 ^ k :=
        ⟨_, (Nat.div_mul_cancel (Nat.dvd_of_mod_eq_zero h.1)).symm⟩
      have ha : a ≠ 0 := by
        rintro rfl
        simp at hpos
      rw [truncated_apply] at h
      rcases hcanonical with hlog | ⟨hsmall, hk⟩
      · rw [log2_mul_two_pow ha] at hlog
        rw [← h.2]
        exact .finite s ha hlog hpos
      · have hle : 2 ^ 52 ≤ 2 ^ k := Nat.pow_le_pow_right two_pos (by omega)
        have hpos' := Nat.le_mul_of_pos_left (2 ^ k) (Nat.pos_of_ne_zero ha)
        omega
    · -- a mantissa of 53 bits leaves room for no further zeros
      obtain ⟨k, rfl⟩ : ∃ k : Nat, e = k := ⟨e.natAbs, by omega⟩
      have hlog : m.log2 = 52 := hcanonical.resolve_right (by omega)
      have hn' : n = s.apply ((m * 2 ^ k : Nat) : Int) := h.2.symm.trans (truncated_natCast s m k)
      rw [hn', natAbs_apply, ← Nat.log2_lt (by positivity), log2_mul_two_pow hpos.ne', hlog] at hn
      obtain rfl : k = 0 := by omega
      rw [hn', pow_zero, mul_one]
      have hwhole := Whole.finite s hpos.ne' (k := 0) hlog (by omega)
      simpa using hwhole

theorem exact_cases (h : Word.exact x = .ok n) : n = 0 ∨ ∃ s m e hpos,
    x.toModel.unpack = .finite s m e hpos ∧ m < 2 ^ 53 ∧
      Binary.truncated (s == .negative) m e = n := by
  unfold Word.exact at h
  rw [ofFloat_eq] at h
  cases hu : x.toModel.unpack with
  | infinity s => rw [hu] at h; cases h
  | notANumber => rw [hu] at h; cases h
  | zero s =>
    rw [hu] at h
    simp only [read, truncated_zero] at h
    cases h
    exact .inl rfl
  | finite s m e hpos =>
    rw [hu] at h
    have htruncated : Binary.truncated (s == .negative) m e = n := by
      simp only [read] at h
      split at h
      · exact Except.ok.inj h
      · cases h
    have hlt : m < 2 ^ 53 := by
      rcases unpack_finite hu with hlog | ⟨hlt, -⟩
      · exact (Nat.log2_lt hpos.ne').mp (by omega)
      · exact hlt.trans (by decide)
    exact .inr ⟨s, m, e, hpos, rfl, hlt, htruncated⟩

theorem natAbs_truncated_neg (negative : Bool) (m k : Nat) :
    (Binary.truncated negative m (-k)).natAbs ≤ m := by
  have hle := Nat.div_le_self m (2 ^ k)
  rw [Binary.truncated, ratio_neg]
  dsimp only
  cases negative
  · exact hle
  · exact (Int.natAbs_neg _).trans_le hle

/-- From 2 ^ 53 on all numbers are integers. -/
theorem equalsInt_of_exact (h : Word.exact x = .ok n) (hn : 2 ^ 53 ≤ n.natAbs) :
    (Binary.ofFloat x).equalsInt n = true := by
  rcases exact_cases h with rfl | ⟨s, m, e, hpos, hu, hlt, htruncated⟩
  · exact absurd hn (by decide)
  rcases lt_or_ge e 0 with he | he
  · -- what is left of the mantissa would be too small
    obtain ⟨k, rfl⟩ : ∃ k : Nat, e = -k := ⟨e.natAbs, by omega⟩
    have hle := natAbs_truncated_neg (s == .negative) m k
    rw [htruncated] at hle
    omega
  · obtain ⟨k, rfl⟩ : ∃ k : Nat, e = k := ⟨e.natAbs, by omega⟩
    rw [ofFloat_eq, hu, read, Binary.equalsInt, ratio_natCast]
    simp [Nat.mod_one, htruncated]

/-! ## Words in binary64 -/

/-- An integer of at most 53 significant bits. -/
def Short (n : Int) : Prop := ∃ (m : Int) (k : Nat), m.natAbs < 2 ^ 53 ∧ n = m * 2 ^ k

theorem short_of_lt (h : n.natAbs < 2 ^ 53) : Short n := ⟨n, 0, h, by rw [pow_zero, mul_one]⟩

theorem truncated_shifted (s : Sign) (a k j : Nat) :
    Binary.truncated (s == .negative) (a * 2 ^ j) (k - j) = s.apply ((a * 2 ^ k : Nat) : Int) := by
  rcases le_total j k with h | h
  · obtain ⟨i, rfl⟩ := Nat.exists_eq_add_of_le h
    have hexponent : ((j + i : Nat) : Int) - j = i := by omega
    rw [hexponent, truncated_natCast, mul_assoc, ← pow_add]
  · obtain ⟨i, rfl⟩ := Nat.exists_eq_add_of_le h
    have hexponent : (k : Int) - (k + i : Nat) = -i := by omega
    rw [hexponent, pow_add, ← mul_assoc, truncated_apply]

theorem exact_of_unpack {s : Sign} {a k j : Nat} {h : 0 < a * 2 ^ j}
    (hx : x.toModel.unpack = .finite s (a * 2 ^ j) (k - j) h)
    (hn : -9223372036854775808 ≤ s.apply ((a * 2 ^ k : Nat) : Int) ∧
      s.apply ((a * 2 ^ k : Nat) : Int) < 9223372036854775808) :
    Word.exact x = .ok (s.apply ((a * 2 ^ k : Nat) : Int)) := by
  unfold Word.exact
  rw [ofFloat_eq, hx, read]
  simp only [truncated_shifted]
  exact if_pos hn

theorem unpack_magnitude {a k : Nat} (ha : 0 < a) (h : a < 2 ^ 53) (hk : a * 2 ^ k < 2 ^ 64) :
    ∃ hpos, (a * 2 ^ k).toUInt64.toFloat.toModel.unpack =
      .finite .positive (a * 2 ^ (52 - a.log2)) (k - (52 - a.log2 : Nat)) hpos := by
  have hlog := log2_le ha.ne' h
  have hlt : k < 64 := by
    rw [← Nat.pow_lt_pow_iff_right one_lt_two]
    exact (Nat.le_mul_of_pos_left _ ha).trans_lt hk
  have hcanonical := canonical64 ha hlog (e := k) (by omega)
  have hround := hcanonical.round_eq .positive (n := a * 2 ^ k) (i := 52 - a.log2) (j := k) (t := 0)
    (mul_right_comm _ _ _) (by ring)
  have hmagnitude : (0 : Int) < (a * 2 ^ k : Nat) := by positivity
  have hnat : (a * 2 ^ k).toUInt64.toNat = a * 2 ^ k := by
    rw [Nat.toUInt64, UInt64.toNat_ofNat', Nat.mod_eq_of_lt hk]
  have hnormalize : ofUInt64 .binary64 (a * 2 ^ k).toUInt64 = .finite .positive (a * 2 ^ (52 - a.log2))
      (k - (52 - a.log2 : Nat)) hcanonical.pos := by
    rw [ofUInt64, ofNat, ofInt, UnpackedFloat.normalize, hnat, Int.compare_eq_gt.mpr hmagnitude]
    exact hround
  have hheld : Held .binary64 (ofUInt64 .binary64 (a * 2 ^ k).toUInt64) := by
    rw [hnormalize]
    exact hcanonical
  refine ⟨hcanonical.pos, ?_⟩
  rw [← hnormalize]
  exact hheld.unpack_pack

theorem unpack_neg (x : Float) : (-x).toModel.unpack = x.toModel.unpack.neg := by
  have hheld : Held .binary64 x.toModel.unpack.neg := by
    have hx := unpack_held64 x
    cases hu : x.toModel.unpack with
    | finite s m e h =>
      rw [hu] at hx
      exact hx
    | _ => trivial
  exact hheld.unpack_pack

theorem exact_number (h : Short n) (hn : -9223372036854775808 ≤ n ∧ n < 9223372036854775808) :
    Word.exact (Word.number n) = .ok n := by
  obtain ⟨m, k, hm, rfl⟩ := h
  rcases eq_or_ne m 0 with rfl | hzero
  · rw [zero_mul]
    exact (number_holds (by decide)).exact_eq
  have hpow : (0 : Int) < 2 ^ k := by positivity
  have hnatAbs : (m * 2 ^ k).natAbs = m.natAbs * 2 ^ k := by
    rw [Int.natAbs_mul, Int.natAbs_pow]
    rfl
  obtain ⟨hpos, hmagnitude⟩ := unpack_magnitude (Int.natAbs_pos.mpr hzero) hm (k := k) (by omega)
  unfold Word.number
  rw [hnatAbs]
  dsimp only
  rcases hzero.lt_or_gt with hlt | hgt
  · have hneg : m * 2 ^ k < 0 := mul_neg_of_neg_of_pos hlt hpow
    have hvalue : Sign.negative.apply ((m.natAbs * 2 ^ k : Nat) : Int) = m * 2 ^ k := by
      rw [← hnatAbs]
      exact Int.neg_eq_comm.mp (Int.ofNat_natAbs_of_nonpos hneg.le).symm
    rw [if_pos hneg]
    have hexact := exact_of_unpack (x := -(m.natAbs * 2 ^ k).toUInt64.toFloat) (s := .negative) (h := hpos)
      (by rw [unpack_neg, hmagnitude]; rfl) (by rwa [hvalue])
    rwa [hvalue] at hexact
  · have hnonneg : 0 < m * 2 ^ k := mul_pos hgt hpow
    have hvalue : Sign.positive.apply ((m.natAbs * 2 ^ k : Nat) : Int) = m * 2 ^ k := by
      rw [← hnatAbs]
      exact Int.natAbs_of_nonneg hnonneg.le
    rw [if_neg hnonneg.not_gt]
    have hexact := exact_of_unpack hmagnitude (by rwa [hvalue])
    rwa [hvalue] at hexact

theorem short_of_exact (h : Word.exact x = .ok n) : Short n := by
  rcases exact_cases h with rfl | ⟨s, m, e, hpos, -, hlt, htruncated⟩
  · exact short_of_lt (by decide)
  rcases lt_or_ge e 0 with he | he
  · obtain ⟨k, rfl⟩ : ∃ k : Nat, e = -k := ⟨e.natAbs, by omega⟩
    have hle := natAbs_truncated_neg (s == .negative) m k
    rw [htruncated] at hle
    exact short_of_lt (hle.trans_lt hlt)
  · obtain ⟨k, rfl⟩ : ∃ k : Nat, e = k := ⟨e.natAbs, by omega⟩
    refine ⟨s.apply m, k, by rwa [natAbs_apply], ?_⟩
    rw [← htruncated, truncated_natCast, ← apply_mul]
    push_cast
    rfl

theorem exact_range (h : Word.exact x = .ok n) :
    -9223372036854775808 ≤ n ∧ n < 9223372036854775808 := by
  unfold Word.exact at h
  cases hx : Binary.ofFloat x with
  | nan | infinite => rw [hx] at h; cases h
  | finite negative m q =>
    simp only [hx] at h
    split at h
    · next hrange =>
      cases h
      exact hrange
    · cases h

theorem cut_fits (least : Int) (hleast : least < 0) (x : Float) : Word.Fits least (Word.cut least x) := by
  have hfits : Word.Fits least least := ⟨le_rfl, by omega⟩
  unfold Word.cut
  split
  · split
    · assumption
    · exact hfits
  · exact hfits

/-- An integer of 64 bits comes back from the number next to it if it has at most 53 significant bits. -/
theorem cut_number (hn : Word.Fits (-9223372036854775808) n) :
    Word.cut (-9223372036854775808) (Word.number n) = n ↔ Short n := by
  constructor
  · intro h
    cases hexact : Word.exact (Word.number n) with
    | ok m =>
      rw [cut_of_exact hexact (exact_range hexact)] at h
      exact h ▸ short_of_exact hexact
    | error flaw =>
      rw [Word.cut, hexact] at h
      have hleast : n = -1 * 2 ^ 63 := by
        rw [← h]
        rfl
      exact ⟨-1, 63, by decide, hleast⟩
  · intro h
    exact cut_of_exact (exact_number h hn) hn

/-! ## Factors -/

theorem mul_comm_sign (s t : Sign) : s * t = t * s := by
  cases s <;> cases t <;> rfl

theorem float_mul_comm (x y : Float) : x * y = y * x := by
  have hunpacked : ∀ u v : UnpackedFloat, u.mul .binary64 v = v.mul .binary64 u := by
    intro u v
    cases u <;> cases v <;>
      simp [UnpackedFloat.mul, mul_comm_sign, Nat.mul_comm, Int.add_comm]
  exact congrArg (fun u => Float.ofModel (.pack u)) (hunpacked _ _)

/-- The product of a whole number and zero, however large the number is. -/
theorem holds_mul_zero (hx : (Binary.ofFloat x).equalsInt m = true) (hy : Holds y 0) :
    Holds (x * y) 0 := by
  rw [ofFloat_eq] at hx
  have hmul : Whole (x.toModel.unpack.mul .binary64 y.toModel.unpack) 0 := by
    unfold Holds at hy
    generalize x.toModel.unpack = u at hx
    generalize hv : y.toModel.unpack = v at hy
    generalize hn : (0 : Int) = n at hy
    cases hy with
    | zero t =>
      cases u with
      | infinity | notANumber => cases hx
      | zero s => exact .zero _
      | finite s => exact .zero _
    | finite t hb hj hpos =>
      have hzero := congrArg Int.natAbs hn
      rw [natAbs_apply] at hzero
      exact absurd hzero.symm hb
  exact hmul.holds

/-- A product with a whole number, which may be larger than the product if that is zero. -/
theorem Holds.factor (hx : (Binary.ofFloat x).equalsInt m = true) (hy : Holds y n)
    (h : (m * n).natAbs < 2 ^ 53) : Holds (x * y) (m * n) := by
  by_cases hn : n = 0
  · subst hn
    rw [mul_zero]
    exact holds_mul_zero hx hy
  · have hle : m.natAbs ≤ (m * n).natAbs := by
      rw [Int.natAbs_mul]
      exact Nat.le_mul_of_pos_right _ (Int.natAbs_pos.mpr hn)
    exact (holds_of_equalsInt hx (hle.trans_lt h)).mul hy h

end NewtonKrylov.Binary64
