import Mathlib.Data.EReal.Basic
import NewtonKrylov.LineSearch
import NewtonKrylov.Proofs.Exact

/-!
# Line searches do not climb

`LineSearch.run_no_worse`: on a profile whose values are numbers, the grid search and bisection
settle for a scale whose norm they report and which is no worse than the scale zero. Any of the two
ends of a bracket may be replaced on the way, but its left end only ever by a better one
(`Bracket.Sound.narrow`), and the first point of the grid is zero itself.
-/

namespace NewtonKrylov

/-- Residual norms in exact arithmetic: possibly infinite, possibly not a number. -/
inductive Extended where
  | number (x : EReal)
  | notANumber

noncomputable instance : Magnitude Extended where
  lt
    | .number a, .number b => decide (a < b)
    | _, _ => false
  le
    | .number a, .number b => decide (a ≤ b)
    | _, _ => false
  isFinite
    | .number a => decide (a ≠ ⊤ ∧ a ≠ ⊥)
    | .notANumber => false
  infinity := .number ⊤

namespace Extended

variable (a b : EReal)

@[simp] theorem lt_number : Magnitude.lt (number a) (number b) = true ↔ a < b := decide_eq_true_iff

@[simp] theorem le_number : Magnitude.le (number a) (number b) = true ↔ a ≤ b := decide_eq_true_iff

@[simp] theorem infinity_eq : (Magnitude.infinity : Extended) = number ⊤ := rfl

end Extended

variable {ε s : Type} {φ : ℝ → EReal}

/-- A profile that does nothing but answer numbers. -/
def numbers (φ : ℝ → EReal) (alpha : ℝ) : EStateM ε s Extended := pure (.number (φ alpha))

/-! ## Bisection -/

/-- The norms of a bracket are those of the profile, and its left end is no worse than zero. -/
structure Bracket.Sound (φ : ℝ → EReal) (b : Bracket ℝ Extended) : Prop where
  left_eq : b.leftNorm = .number (φ b.left)
  right_eq : b.rightNorm = .number (φ b.right)
  left_le : φ b.left ≤ φ 0

namespace Bracket.Sound

variable {b b' : Bracket ℝ Extended}

theorem withRight (h : b.Sound φ) (alpha : ℝ) : (b.withRight alpha (.number (φ alpha))).Sound φ :=
  ⟨h.left_eq, rfl, h.left_le⟩

theorem withLeft (h : b.Sound φ) {alpha : ℝ} (hle : φ alpha ≤ φ b.left) :
    (b.withLeft alpha (.number (φ alpha))).Sound φ :=
  ⟨rfl, h.right_eq, hle.trans h.left_le⟩

theorem narrow (h : b.Sound φ) {alpha : ℝ} (hb' : b.narrow alpha (.number (φ alpha)) = some b') :
    b'.Sound φ := by
  unfold Bracket.narrow at hb'
  rw [h.left_eq, h.right_eq] at hb'
  simp only [Bool.and_eq_true, Extended.lt_number, Extended.le_number] at hb'
  split at hb'
  · exact absurd hb' (by simp)
  split at hb'
  · rename_i hboth
    split at hb'
    · obtain rfl := Option.some.inj hb'
      exact h.withRight alpha
    · obtain rfl := Option.some.inj hb'
      exact h.withLeft hboth.1.le
  split at hb'
  · rename_i hleft
    obtain rfl := Option.some.inj hb'
    exact h.withLeft hleft.le
  · obtain rfl := Option.some.inj hb'
    exact h.withRight alpha

theorem best (h : b.Sound φ) : b.best.2 = .number (φ b.best.1) ∧ φ b.best.1 ≤ φ 0 := by
  unfold Bracket.best
  rw [h.left_eq, h.right_eq]
  simp only [Extended.lt_number]
  split
  · exact ⟨rfl, h.left_le⟩
  · rename_i hlt
    exact ⟨rfl, (not_lt.mp hlt).trans h.left_le⟩

end Bracket.Sound

namespace LineSearch

theorem bisectFrom_sound (n : Nat) {b : Bracket ℝ Extended} (h : b.Sound φ) (o : s) :
    ∃ b', bisectFrom (ε := ε) (numbers φ) n b o = .ok b' o ∧ b'.Sound φ := by
  induction n generalizing b with
  | zero => exact ⟨b, rfl, h⟩
  | succ n ih =>
    simp only [bisectFrom, numbers, pure_bind]
    cases hnarrow : b.narrow b.middle (.number (φ b.middle)) with
    | none => exact ⟨b, rfl, h⟩
    | some b' => exact ih (h.narrow hnarrow)

/-! ## The grid -/

/-- A scale with its norm, no worse than zero. -/
def Kept (φ : ℝ → EReal) (best : ℝ × Extended) : Prop :=
  ∃ alpha, best = (alpha, .number (φ alpha)) ∧ φ alpha ≤ φ 0

theorem gridFrom_kept (a : ℝ) (n count i : Nat) {best : ℝ × Extended} (h : Kept φ best) (o : s) :
    ∃ best', gridFrom (ε := ε) (numbers φ) (Reach.upTo a) n count i best o = .ok best' o ∧
      Kept φ best' := by
  induction count generalizing i best with
  | zero => exact ⟨best, rfl, h⟩
  | succ count ih =>
    refine ih (i + 1) ?_
    obtain ⟨alpha, rfl, hle⟩ := h
    split
    · rename_i hlt
      exact ⟨_, rfl, ((Extended.lt_number _ _).mp hlt).le.trans hle⟩
    · exact ⟨alpha, rfl, hle⟩

/-- The first point of the grid is zero; it beats the infinite norm unless its own is infinite. -/
theorem grid_kept (a : ℝ) (n : Nat) (o : s) :
    ∃ best, grid (ε := ε) (numbers φ) (Reach.upTo a) n o = .ok best o ∧ Kept φ best := by
  have hzero : a * Scalar.ofNat 0 / Scalar.ofNat n = 0 := by simp
  refine gridFrom_kept a n n 1 ?_ o
  rw [hzero]
  split
  · exact ⟨0, rfl, le_rfl⟩
  · rename_i hlt
    have htop : φ 0 = ⊤ := by
      by_contra hne
      exact hlt ((Extended.lt_number _ _).mpr (lt_top_iff_ne_top.mpr hne))
    refine ⟨0, ?_, le_rfl⟩
    rw [htop, Scalar.ofNat_real, Nat.cast_zero]
    rfl

/-! ## Searches that look -/

/-- A search that looks reports the norm at the scale it chose, which is no worse than at zero. -/
theorem run_no_worse {search : LineSearch ε} (hpolicy : search.policy ≠ .full) {n : Nat}
    (hbudget : search.budget = .ok n) (a : ℝ) (φ : ℝ → EReal) (o : s) :
    ∃ alpha, search.run (numbers φ) (Reach.upTo a) o = .ok (alpha, some (.number (φ alpha))) o ∧
      φ alpha ≤ φ 0 := by
  obtain ⟨policy, budget⟩ := search
  obtain rfl : budget = .ok n := hbudget
  cases policy with
  | full => exact absurd rfl hpolicy
  | grid =>
    obtain ⟨_, hrun, alpha, rfl, hle⟩ := grid_kept (ε := ε) (φ := φ) a n o
    refine ⟨alpha, ?_, hle⟩
    simp only [run, orFail, pure_bind]
    rw [bind_run_ok hrun]
    rfl
  | bisection =>
    have hopen : Bracket.Sound φ ⟨0, .number (φ 0), a, .number (φ a)⟩ := ⟨rfl, rfl, le_rfl⟩
    obtain ⟨b, hrun, hb⟩ := bisectFrom_sound (ε := ε) n hopen o
    refine ⟨b.best.1, ?_, hb.best.2⟩
    rw [← hb.best.1]
    simp only [run, openBracket, Reach.upTo, orFail, numbers, pure_bind, Scalar.ofNat_real,
      Nat.cast_zero]
    rw [bind_run_ok hrun]
    rfl

end LineSearch

end NewtonKrylov
