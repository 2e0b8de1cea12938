import NewtonKrylov.Proofs.LineSearch.Descent
import NewtonKrylov.Proofs.LineSearch.Narrowing

/-!
# What bisection makes of a norm that is not a number

No comparison with such a norm holds. So a look at one never stops the search and never replaces the
left end, which stays a number no worse than scale zero (`Bracket.Grounded`); it takes the right end
(`Bracket.rightNorm_after_iff`) and holds it while the later looks are better than the left end, for
these replace the left one. The final choice compares the ends the same way: a left end that is a
number is not less than a right end that is none, and the right end is what is reported.

`LineSearch.bisection_notANumber_iff`: bisection reports something that is not a number exactly where
one of its looks is not a number and every later one is better than the left end. Otherwise it is no
worse than scale zero. `LineSearch.bisection_cliff` is a profile on which a step that is no number is
taken with a better one at hand.
-/

namespace NewtonKrylov

namespace Extended

variable {a b c : Extended}

theorem number_of_lt (h : Magnitude.lt a b = true) : a ≠ .notANumber ∧ b ≠ .notANumber := by
  cases a <;> cases b <;> simp_all [Magnitude.lt]

theorem le_refl (ha : a ≠ .notANumber) : Magnitude.le a a = true := by
  cases a <;> simp_all [Magnitude.le]

theorem le_trans (hab : Magnitude.le a b = true) (hbc : Magnitude.le b c = true) :
    Magnitude.le a c = true := by
  cases a <;> cases b <;> cases c <;> simp_all [Magnitude.le]
  exact hab.trans hbc

theorem le_of_lt (h : Magnitude.lt a b = true) : Magnitude.le a b = true := by
  cases a <;> cases b <;> simp_all [Magnitude.lt, Magnitude.le]
  exact h.le

theorem le_of_not_lt (ha : a ≠ .notANumber) (hb : b ≠ .notANumber) (h : ¬ Magnitude.lt a b = true) :
    Magnitude.le b a = true := by
  cases a <;> cases b <;> simp_all [Magnitude.lt, Magnitude.le]

end Extended

variable {S ε s : Type} [Scalar S] {φ : S → Extended} {b : Bracket S Extended}

namespace Bracket

/-- The left end is a number, no worse than scale zero. -/
structure Grounded (φ : S → Extended) (b : Bracket S Extended) : Prop where
  number : b.leftNorm ≠ .notANumber
  le_zero : Magnitude.le b.leftNorm (φ (Scalar.ofNat 0)) = true

theorem opened_grounded (hzero : φ (Scalar.ofNat 0) ≠ .notANumber) (a : S) :
    (opened φ a).Grounded φ := ⟨hzero, Extended.le_refl hzero⟩

/-- The left end is given up for a smaller norm only, which is then a number. -/
theorem Grounded.after (h : b.Grounded φ) : (b.after φ).Grounded φ := by
  have hright : ∀ norm, (b.withRight b.middle norm).Grounded φ := fun _ => ⟨h.number, h.le_zero⟩
  have hleft : ∀ norm, Magnitude.lt norm b.leftNorm = true →
      (b.withLeft b.middle norm).Grounded φ := fun _ hlt =>
    ⟨(Extended.number_of_lt hlt).1, Extended.le_trans (Extended.le_of_lt hlt) h.le_zero⟩
  unfold Bracket.after narrow
  simp only [Bool.and_eq_true]
  split
  · exact h
  split
  · rename_i hboth
    split
    · exact hright _
    · exact hleft _ hboth.1
  split
  · rename_i hlt
    exact hleft _ hlt
  · exact hright _

theorem rightNorm_after_iff (b : Bracket S Extended) :
    (b.after φ).rightNorm = .notANumber ↔ φ b.middle = .notANumber ∨
      (b.rightNorm = .notANumber ∧ Magnitude.lt (φ b.middle) b.leftNorm = true) := by
  unfold after narrow
  simp only [Bool.and_eq_true]
  split
  · rename_i hworse
    obtain ⟨hright, hmiddle⟩ := Extended.number_of_lt hworse.2
    exact iff_of_false hright (by tauto)
  split
  · rename_i hbetter
    obtain ⟨hmiddle, hright⟩ := Extended.number_of_lt hbetter.2
    refine iff_of_false ?_ (by tauto)
    split
    · exact hmiddle
    · exact hright
  split
  · rename_i hlt
    have hmiddle := (Extended.number_of_lt hlt).1
    show b.rightNorm = .notANumber ↔ _
    tauto
  · show φ b.middle = .notANumber ↔ _
    tauto

theorem Grounded.best_iff (h : b.Grounded φ) :
    b.best.2 = .notANumber ↔ b.rightNorm = .notANumber := by
  unfold best
  split
  · rename_i hlt
    exact iff_of_false h.number (Extended.number_of_lt hlt).2
  · exact Iff.rfl

theorem Grounded.best_le (h : b.Grounded φ) (hbest : b.best.2 ≠ .notANumber) :
    Magnitude.le b.best.2 (φ (Scalar.ofNat 0)) = true := by
  unfold best at hbest ⊢
  split at hbest
  · rename_i hlt
    rw [if_pos hlt]
    exact h.le_zero
  · rename_i hlt
    rw [if_neg hlt]
    exact Extended.le_trans (Extended.le_of_not_lt h.number hbest hlt) h.le_zero

end Bracket

namespace LineSearch

theorem bracketFor_grounded (hzero : φ (Scalar.ofNat 0) ≠ .notANumber) (a : S) (n : Nat) :
    (bracketFor φ a n).Grounded φ := by
  induction n with
  | zero => exact Bracket.opened_grounded hzero a
  | succ n ih =>
    rw [bracketFor_succ]
    exact ih.after

/-- The right end is no number exactly where some look was none and every later one was better than the
left end of its time. -/
theorem rightNorm_bracketFor_iff (a : S) (n : Nat) :
    (bracketFor φ a n).rightNorm = .notANumber ↔
      ∃ k ≤ n, φ (look φ a k) = .notANumber ∧ ∀ j, k ≤ j → j < n →
        Magnitude.lt (φ (look φ a (j + 1))) (φ (bracketFor φ a j).left) = true := by
  induction n with
  | zero =>
    constructor
    · intro hright
      exact ⟨0, le_rfl, hright, fun j _ hj => absurd hj j.not_lt_zero⟩
    · rintro ⟨k, hk, hlook, -⟩
      obtain rfl := Nat.le_zero.mp hk
      exact hlook
  | succ n ih =>
    rw [bracketFor_succ, Bracket.rightNorm_after_iff, ih, (bracketFor_faithful φ a n).left_eq]
    constructor
    · rintro (hlook | ⟨⟨k, hk, hlook, hlater⟩, hlt⟩)
      · exact ⟨n + 1, le_rfl, hlook, fun j hj hj' => absurd hj' (Nat.not_lt.mpr hj)⟩
      · refine ⟨k, Nat.le_succ_of_le hk, hlook, fun j hj hj' => ?_⟩
        rcases Nat.lt_succ_iff_lt_or_eq.mp hj' with hj' | rfl
        · exact hlater j hj hj'
        · exact hlt
    · rintro ⟨k, hk, hlook, hlater⟩
      rcases Nat.le_succ_iff.mp hk with hk | rfl
      · refine .inr ⟨⟨k, hk, hlook, fun j hj hj' => hlater j hj (Nat.lt_succ_of_lt hj')⟩, ?_⟩
        exact hlater n hk (Nat.lt_succ_self n)
      · exact .inl hlook

/-- On a profile that is a number at scale zero, bisection reports the norm at the scale it chose. That
is not a number exactly where some look was none and every later one was better than the left end of
its time, which is itself a number no worse than at zero; else it is no worse than at zero. -/
theorem bisection_notANumber_iff (hzero : φ (Scalar.ofNat 0) ≠ .notANumber) (a : S) (n : Nat) (o : s) :
    ∃ alpha, run (ε := ε) ⟨.bisection, .ok n⟩ (answers φ) (Reach.upTo a) o =
        .ok (alpha, some (φ alpha)) o ∧
      Magnitude.le (φ (bracketFor φ a n).left) (φ (Scalar.ofNat 0)) = true ∧
      (φ alpha = .notANumber ↔ ∃ k ≤ n, φ (look φ a k) = .notANumber ∧ ∀ j, k ≤ j → j < n →
        Magnitude.lt (φ (look φ a (j + 1))) (φ (bracketFor φ a j).left) = true) ∧
      (φ alpha ≠ .notANumber → Magnitude.le (φ alpha) (φ (Scalar.ofNat 0)) = true) := by
  have hgrounded := bracketFor_grounded hzero a n
  have hfaithful := bracketFor_faithful φ a n
  refine ⟨(bracketFor φ a n).best.1, ?_, ?_, ?_, ?_⟩
  · rw [run_answers, hfaithful.best]
  · rw [← hfaithful.left_eq]
    exact hgrounded.le_zero
  · rw [← hfaithful.best, hgrounded.best_iff]
    exact rightNorm_bracketFor_iff a n
  · rw [← hfaithful.best]
    exact hgrounded.best_le

/-- A profile that falls right behind zero and is not a number any more from one on. -/
noncomputable def cliff (high low : EReal) (alpha : ℝ) : Extended :=
  if 0 < alpha then if alpha < 1 then .number low else .notANumber else .number high

theorem cliff_zero : cliff 2 1 0 = .number 2 := by norm_num [cliff]

theorem cliff_half : cliff 2 1 (1 / 2) = .number 1 := by norm_num [cliff]

theorem cliff_one : cliff 2 1 1 = .notANumber := by norm_num [cliff]

theorem cliff_falls : Magnitude.lt (cliff 2 1 (1 / 2)) (cliff 2 1 0) = true := by
  rw [cliff_half, cliff_zero, Extended.lt_number]
  exact_mod_cast (by norm_num : (1 : ℝ) < 2)

theorem opened_cliff : Bracket.opened (cliff 2 1) 1 = ⟨0, .number 2, 1, .notANumber⟩ := by
  rw [Bracket.opened, Scalar.ofNat_real, Nat.cast_zero, cliff_zero, cliff_one]

theorem look_cliff_one : look (cliff 2 1) 1 1 = 1 / 2 := by
  show (Bracket.opened (cliff 2 1) 1).middle = 1 / 2
  norm_num [opened_cliff, Bracket.middle]

/-- The look at `1 / 2` is better than the left end, so the right end stays no number. -/
theorem bisection_cliff_notANumber :
    cliff 2 1 (Scalar.ofNat 0) ≠ .notANumber ∧
      ∃ alpha, run (ε := Empty) ⟨.bisection, .ok 1⟩ (answers (cliff 2 1)) (Reach.upTo 1) () =
        .ok (alpha, some (cliff 2 1 alpha)) () ∧ cliff 2 1 alpha = .notANumber := by
  have hzero : cliff 2 1 (Scalar.ofNat 0) ≠ .notANumber := by
    rw [Scalar.ofNat_real, Nat.cast_zero, cliff_zero]
    exact Extended.noConfusion
  obtain ⟨alpha, hrun, -, hiff, -⟩ := bisection_notANumber_iff (ε := Empty) hzero 1 1 ()
  refine ⟨hzero, alpha, hrun, hiff.mpr ⟨0, Nat.zero_le 1, cliff_one, fun j _ hj => ?_⟩⟩
  obtain rfl := Nat.lt_one_iff.mp hj
  show Magnitude.lt _ (cliff 2 1 (Bracket.opened (cliff 2 1) 1).left) = true
  rw [look_cliff_one, opened_cliff]
  exact cliff_falls

theorem bracketFor_cliff :
    bracketFor (cliff 2 1) 1 1 = ⟨1 / 2, .number 1, 1, .notANumber⟩ := by
  have hfalls := cliff_falls
  rw [cliff_half, cliff_zero] at hfalls
  show (Bracket.opened (cliff 2 1) 1).after (cliff 2 1) = _
  rw [Bracket.after, show (Bracket.opened (cliff 2 1) 1).middle = 1 / 2 from look_cliff_one,
    cliff_half, opened_cliff]
  simp [Bracket.narrow, Bracket.withLeft, hfalls]

/-- One look finds the norm `1` at the scale `1 / 2`, better than at zero; what is taken is the largest
scale all the same, where the norm is not a number. -/
theorem bisection_cliff :
    cliff 2 1 0 = .number 2 ∧ cliff 2 1 (1 / 2) = .number 1 ∧
      run (ε := Empty) ⟨.bisection, .ok 1⟩ (answers (cliff 2 1)) (Reach.upTo 1) () =
        .ok (1, some .notANumber) () := by
  refine ⟨cliff_zero, cliff_half, ?_⟩
  rw [run_answers, bracketFor_cliff]
  simp [Bracket.best, Magnitude.lt]

end LineSearch

end NewtonKrylov
