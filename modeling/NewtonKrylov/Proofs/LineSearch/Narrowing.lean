import Mathlib.Logic.Function.Iterate
import NewtonKrylov.LineSearch
import NewtonKrylov.Proofs.Simulation

/-!
# Bisection as an iteration

A profile that does nothing but answer (`answers φ`) makes bisection a function: one look turns a
bracket into the next one (`Bracket.after`), and the bracket stays as it is where the search stops. So
the brackets of a search are the iterates of one function, and a larger budget only goes on further
along them (`LineSearch.run_answers`). Nothing is assumed of the scales, nor of how norms compare.
-/

namespace NewtonKrylov

variable {S R ε s : Type}

/-- A profile that does nothing but answer. -/
def answers (φ : S → R) (alpha : S) : EStateM ε s R := pure (φ alpha)

variable [Scalar S] [Magnitude R] (φ : S → R)

namespace Bracket

/-- The bracket after a look at its middle; the same one where the search stops. -/
def after (b : Bracket S R) : Bracket S R := (b.narrow b.middle (φ b.middle)).getD b

/-- The bracket to begin with, from zero to the largest scale. -/
def opened (a : S) : Bracket S R := ⟨Scalar.ofNat 0, φ (Scalar.ofNat 0), a, φ a⟩

/-- The norms of a bracket are those of the profile. -/
structure Faithful (b : Bracket S R) : Prop where
  left_eq : b.leftNorm = φ b.left
  right_eq : b.rightNorm = φ b.right

variable {φ} {b b' : Bracket S R} {alpha : S} {norm : R}

omit [Scalar S] in
theorem narrow_eq_some (h : b.narrow alpha norm = some b') :
    b' = b.withLeft alpha norm ∨ b' = b.withRight alpha norm := by
  unfold narrow at h
  split at h
  · exact nomatch h
  split at h
  · split at h
    · exact .inr (Option.some.inj h).symm
    · exact .inl (Option.some.inj h).symm
  split at h
  · exact .inl (Option.some.inj h).symm
  · exact .inr (Option.some.inj h).symm

theorem after_of_none (h : b.narrow b.middle (φ b.middle) = none) : b.after φ = b := by
  rw [after, h, Option.getD_none]

theorem after_of_some (h : b.narrow b.middle (φ b.middle) = some b') : b.after φ = b' := by
  rw [after, h, Option.getD_some]

theorem after_cases (b : Bracket S R) :
    b.after φ = b ∨ b.after φ = b.withLeft b.middle (φ b.middle) ∨
      b.after φ = b.withRight b.middle (φ b.middle) := by
  cases hnarrow : b.narrow b.middle (φ b.middle) with
  | none => exact .inl (after_of_none hnarrow)
  | some b' =>
    rw [after_of_some hnarrow]
    exact .inr (narrow_eq_some hnarrow)

omit [Scalar S] in
theorem best_cases (b : Bracket S R) :
    b.best = (b.left, b.leftNorm) ∨ b.best = (b.right, b.rightNorm) := by
  unfold best
  split
  · exact .inl rfl
  · exact .inr rfl

theorem Faithful.after (h : b.Faithful φ) : (b.after φ).Faithful φ := by
  rcases b.after_cases (φ := φ) with hb | hb | hb
  · rw [hb]
    exact h
  · rw [hb]
    exact ⟨rfl, h.right_eq⟩
  · rw [hb]
    exact ⟨h.left_eq, rfl⟩

omit [Scalar S] in
theorem Faithful.best (h : b.Faithful φ) : b.best.2 = φ b.best.1 := by
  rcases b.best_cases with hbest | hbest
  · rw [hbest]
    exact h.left_eq
  · rw [hbest]
    exact h.right_eq

end Bracket

namespace LineSearch

/-- The loop looks at the middle as often as it may; once it has stopped, more looks change nothing. -/
theorem bisectFrom_answers (n : Nat) (b : Bracket S R) (o : s) :
    bisectFrom (ε := ε) (answers φ) n b o = .ok ((Bracket.after φ)^[n] b) o := by
  induction n generalizing b with
  | zero => rfl
  | succ n ih =>
    rw [Function.iterate_succ_apply]
    simp only [bisectFrom, answers, pure_bind]
    cases hnarrow : b.narrow b.middle (φ b.middle) with
    | none =>
      have hfixed : b.after φ = b := Bracket.after_of_none hnarrow
      rw [hfixed, Function.iterate_fixed hfixed]
      rfl
    | some b' =>
      rw [Bracket.after_of_some hnarrow]
      exact ih b'

/-- The bracket after `n` looks at the middle, from the whole reach up to `a`. -/
def bracketFor (a : S) (n : Nat) : Bracket S R := (Bracket.after φ)^[n] (Bracket.opened φ a)

theorem bracketFor_succ (a : S) (n : Nat) :
    bracketFor φ a (n + 1) = (bracketFor φ a n).after φ :=
  Function.iterate_succ_apply' _ n _

theorem bracketFor_faithful (a : S) (n : Nat) : (bracketFor φ a n).Faithful φ := by
  induction n with
  | zero => exact ⟨rfl, rfl⟩
  | succ n ih =>
    rw [bracketFor_succ]
    exact ih.after

/-- The scales that bisection looks at after zero: the largest one, then the middles. -/
def look (a : S) : Nat → S
  | 0 => a
  | n + 1 => (bracketFor φ a n).middle

theorem run_answers (a : S) (n : Nat) (o : s) :
    run (ε := ε) ⟨.bisection, .ok n⟩ (answers φ) (Reach.upTo a) o =
      .ok ((bracketFor φ a n).best.1, some (bracketFor φ a n).best.2) o := by
  simp only [run, openBracket, Reach.upTo, orFail, answers, pure_bind]
  exact bind_run_ok (bisectFrom_answers φ n (Bracket.opened φ a) o) _

end LineSearch

end NewtonKrylov
