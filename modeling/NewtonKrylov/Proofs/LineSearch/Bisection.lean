import NewtonKrylov.Proofs.LineSearch.Descent
import NewtonKrylov.Proofs.LineSearch.Narrowing

/-!
# Which ends bisection gives up

The smaller norm at the ends of a bracket (`Bracket.least`) is what bisection would report if it
stopped there. A look at the middle raises it in one case only, a tie (`Bracket.Forfeits`): the middle
is exactly as bad as the left end and worse than the right one. It is then not worse than both ends,
so the search goes on, and not better than the left end, so it replaces the right one.

`LineSearch.bisection_least`: bisection reports the smaller norm of its last bracket. It is never worse
than scale zero. It is no worse than the largest scale, and no worse than what a smaller budget
reports, as long as no better right end is given up on the way. `LineSearch.bisection_plateaus` is a
profile that falls in steps, where one is.
-/

namespace NewtonKrylov

variable {ε s : Type} {φ : ℝ → EReal} {b : Bracket ℝ Extended}

namespace Bracket

/-- The smaller one of the norms at the two ends. -/
noncomputable def least (φ : ℝ → EReal) (b : Bracket ℝ Extended) : EReal :=
  min (φ b.left) (φ b.right)

/-- The middle ties with the left end, and the right end is better than both. -/
def Forfeits (φ : ℝ → EReal) (b : Bracket ℝ Extended) : Prop :=
  φ b.middle = φ b.left ∧ φ b.right < φ b.left

/-- The bracket after a look at its middle; the same one where the search stops. -/
noncomputable def next (φ : ℝ → EReal) (b : Bracket ℝ Extended) : Bracket ℝ Extended :=
  (b.narrow b.middle (.number (φ b.middle))).getD b

/-- The bracket that the ends of the reach are to begin with. -/
noncomputable def whole (φ : ℝ → EReal) (a : ℝ) : Bracket ℝ Extended :=
  ⟨0, .number (φ 0), a, .number (φ a)⟩

theorem whole_sound (φ : ℝ → EReal) (a : ℝ) : (whole φ a).Sound φ := ⟨rfl, rfl, le_rfl⟩

theorem Sound.next (h : b.Sound φ) : (b.next φ).Sound φ := by
  unfold Bracket.next
  cases hnarrow : b.narrow b.middle (.number (φ b.middle)) with
  | none => exact h
  | some b' => exact h.narrow hnarrow

theorem Sound.iterate_next (h : b.Sound φ) (n : Nat) : ((Bracket.next φ)^[n] b).Sound φ := by
  induction n generalizing b with
  | zero => exact h
  | succ n ih => exact ih h.next

theorem Sound.next_cases (h : b.Sound φ) :
    (φ b.left < φ b.middle ∧ φ b.right < φ b.middle ∧ b.next φ = b) ∨
    (φ b.middle < φ b.left ∧ φ b.left ≤ φ b.right ∧
      b.next φ = b.withRight b.middle (.number (φ b.middle))) ∨
    (φ b.middle < φ b.left ∧ φ b.right < φ b.left ∧
      b.next φ = b.withLeft b.middle (.number (φ b.middle))) ∨
    (φ b.left ≤ φ b.middle ∧ (φ b.middle ≤ φ b.left ∨ φ b.middle ≤ φ b.right) ∧
      b.next φ = b.withRight b.middle (.number (φ b.middle))) := by
  unfold Bracket.next Bracket.narrow
  rw [h.left_eq, h.right_eq]
  simp only [Bool.and_eq_true, Extended.lt_number, Extended.le_number]
  split
  · rename_i hworse
    exact .inl ⟨hworse.1, hworse.2, rfl⟩
  rename_i hworse
  split
  · rename_i hbetter
    split
    · rename_i hle
      exact .inr (.inl ⟨hbetter.1, hle, rfl⟩)
    · rename_i hle
      exact .inr (.inr (.inl ⟨hbetter.1, not_le.mp hle, rfl⟩))
  rename_i hbetter
  split
  · rename_i hleft
    have hright : φ b.right ≤ φ b.middle := not_lt.mp fun hlt => hbetter ⟨hleft, hlt⟩
    exact .inr (.inr (.inl ⟨hleft, hright.trans_lt hleft, rfl⟩))
  · rename_i hleft
    refine .inr (.inr (.inr ⟨not_lt.mp hleft, ?_, rfl⟩))
    rw [← not_lt, ← not_lt, ← not_and_or]
    exact hworse

/-- The smaller norm rises exactly where a better right end is given up. -/
theorem Sound.least_next_le_iff (h : b.Sound φ) :
    (b.next φ).least φ ≤ b.least φ ↔ ¬ b.Forfeits φ := by
  unfold least Forfeits
  rcases h.next_cases with ⟨hl, -, hnext⟩ | ⟨hl, hr, hnext⟩ | ⟨hl, -, hnext⟩ | ⟨hl, hr, hnext⟩
  · rw [hnext]
    exact iff_of_true le_rfl fun hties => hl.ne' hties.1
  · rw [hnext]
    refine iff_of_true ?_ fun hties => hl.ne hties.1
    exact le_min ((min_le_right _ _).trans hl.le) ((min_le_right _ _).trans (hl.le.trans hr))
  · rw [hnext]
    refine iff_of_true ?_ fun hties => hl.ne hties.1
    exact min_le_min_right _ hl.le
  · rw [hnext]
    show min (φ b.left) (φ b.middle) ≤ min (φ b.left) (φ b.right) ↔ _
    rw [min_eq_left hl, le_min_iff, and_iff_right le_rfl, not_and, not_lt]
    refine ⟨fun hle _ => hle, fun hties => ?_⟩
    rcases hr with hr | hr
    · exact hties (hr.antisymm hl)
    · exact hl.trans hr

theorem Sound.best_eq_least (h : b.Sound φ) : φ b.best.1 = b.least φ := by
  unfold Bracket.best least
  rw [h.left_eq, h.right_eq]
  simp only [Extended.lt_number]
  split
  · rename_i hlt
    exact (min_eq_left hlt.le).symm
  · rename_i hlt
    exact (min_eq_right (not_lt.mp hlt)).symm

theorem Sound.least_iterate_le (h : b.Sound φ) {m n : Nat} (hmn : m ≤ n)
    (hkept : ∀ k, m ≤ k → k < n → ¬ ((Bracket.next φ)^[k] b).Forfeits φ) :
    ((Bracket.next φ)^[n] b).least φ ≤ ((Bracket.next φ)^[m] b).least φ := by
  induction n, hmn using Nat.le_induction with
  | base => exact le_rfl
  | succ n hmn ih =>
    have hstep := (h.iterate_next n).least_next_le_iff.mpr (hkept n hmn (Nat.lt_succ_self n))
    rw [Function.iterate_succ_apply']
    exact hstep.trans (ih fun k hk hlt => hkept k hk (hlt.trans (Nat.lt_succ_self n)))

end Bracket

namespace LineSearch

/-- The bracket after `n` looks at the middle, from the whole reach up to `a`. -/
noncomputable def bracketAfter (φ : ℝ → EReal) (a : ℝ) (n : Nat) : Bracket ℝ Extended :=
  (Bracket.next φ)^[n] (Bracket.whole φ a)

theorem bracketAfter_succ (φ : ℝ → EReal) (a : ℝ) (n : Nat) :
    bracketAfter φ a (n + 1) = (bracketAfter φ a n).next φ :=
  Function.iterate_succ_apply' _ n _

theorem bracketAfter_sound (φ : ℝ → EReal) (a : ℝ) (n : Nat) : (bracketAfter φ a n).Sound φ :=
  (Bracket.whole_sound φ a).iterate_next n

theorem bracketAfter_eq (φ : ℝ → EReal) (a : ℝ) (n : Nat) :
    bracketAfter φ a n = bracketFor (fun alpha => .number (φ alpha)) a n := by
  have hwhole : Bracket.whole φ a = Bracket.opened (fun alpha => .number (φ alpha)) a := by
    simp only [Bracket.whole, Bracket.opened, Scalar.ofNat_real, Nat.cast_zero]
  rw [bracketAfter, hwhole]
  rfl

theorem run_bisection (φ : ℝ → EReal) (a : ℝ) (n : Nat) (o : s) :
    run (ε := ε) ⟨.bisection, .ok n⟩ (numbers φ) (Reach.upTo a) o =
      .ok ((bracketAfter φ a n).best.1, some (.number (φ (bracketAfter φ a n).best.1))) o := by
  rw [← (bracketAfter_sound φ a n).best.1, bracketAfter_eq]
  exact run_answers (fun alpha => Extended.number (φ alpha)) a n o

/-- Bisection reports the smaller norm of its last bracket, which is no worse than at zero. The smaller
norm rises from one look to the next exactly where a better right end is given up for a tie; where none
is, bisection is no worse than the largest scale and than itself with a smaller budget. -/
theorem bisection_least (φ : ℝ → EReal) (a : ℝ) (n : Nat) (o : s) :
    ∃ alpha, run (ε := ε) ⟨.bisection, .ok n⟩ (numbers φ) (Reach.upTo a) o =
        .ok (alpha, some (.number (φ alpha))) o ∧
      φ alpha = (bracketAfter φ a n).least φ ∧ φ alpha ≤ φ 0 ∧
      (∀ k, (bracketAfter φ a (k + 1)).least φ ≤ (bracketAfter φ a k).least φ ↔
        ¬ (bracketAfter φ a k).Forfeits φ) ∧
      ((∀ k < n, ¬ (bracketAfter φ a k).Forfeits φ) →
        φ alpha ≤ φ a ∧ ∀ m ≤ n, ∃ beta,
          run (ε := ε) ⟨.bisection, .ok m⟩ (numbers φ) (Reach.upTo a) o =
            .ok (beta, some (.number (φ beta))) o ∧ φ alpha ≤ φ beta) := by
  have hb := bracketAfter_sound φ a
  refine ⟨_, run_bisection φ a n o, (hb n).best_eq_least, (hb n).best.2, fun k => ?_, fun hkept => ?_⟩
  · rw [bracketAfter, bracketAfter, Function.iterate_succ_apply']
    exact (hb k).least_next_le_iff
  · have hle : ∀ m ≤ n, (bracketAfter φ a n).least φ ≤ (bracketAfter φ a m).least φ := fun m hm =>
      (Bracket.whole_sound φ a).least_iterate_le hm fun k _ hk => hkept k hk
    refine ⟨?_, fun m hm => ⟨_, run_bisection φ a m o, ?_⟩⟩
    · rw [(hb n).best_eq_least]
      exact (hle 0 n.zero_le).trans (min_le_right _ _)
    · rw [(hb n).best_eq_least, (hb m).best_eq_least]
      exact hle m hm

/-- A profile that falls in steps. -/
noncomputable def plateaus (high middle low : EReal) (alpha : ℝ) : EReal :=
  if alpha < 1 / 4 then high else if alpha < 9 / 10 then middle else low

theorem bracketAfter_plateaus_one :
    bracketAfter (plateaus 3 2 1) 1 1 = ⟨1 / 2, .number 2, 1, .number 1⟩ := by
  have hmiddle : (Bracket.whole (plateaus 3 2 1) 1).middle = 1 / 2 := by
    norm_num [Bracket.middle, Bracket.whole]
  have hfall : (2 : EReal) < 3 := by exact_mod_cast (by norm_num : (2 : ℝ) < 3)
  show (Bracket.whole (plateaus 3 2 1) 1).next (plateaus 3 2 1) = _
  rw [Bracket.next, hmiddle]
  norm_num [Bracket.narrow, Bracket.whole, Bracket.withLeft, plateaus, hfall, hfall.not_gt]

theorem bracketAfter_plateaus_two :
    bracketAfter (plateaus 3 2 1) 1 2 = ⟨1 / 2, .number 2, 3 / 4, .number 2⟩ := by
  have hmiddle : (⟨1 / 2, .number 2, 1, .number 1⟩ : Bracket ℝ Extended).middle = 3 / 4 := by
    norm_num [Bracket.middle]
  show (bracketAfter (plateaus 3 2 1) 1 1).next (plateaus 3 2 1) = _
  rw [bracketAfter_plateaus_one, Bracket.next, hmiddle]
  norm_num [Bracket.narrow, Bracket.withRight, plateaus]

/-- One look finds the scale `3 / 4` no better than `1 / 2` and takes it for the end that is better than
both: the second look makes bisection worse, and worse than the largest scale. -/
theorem bisection_plateaus :
    run (ε := Empty) ⟨.bisection, .ok 1⟩ (numbers (plateaus 3 2 1)) (Reach.upTo 1) () =
        .ok (1, some (.number 1)) () ∧
      run (ε := Empty) ⟨.bisection, .ok 2⟩ (numbers (plateaus 3 2 1)) (Reach.upTo 1) () =
        .ok (3 / 4, some (.number 2)) () ∧
      plateaus 3 2 1 1 = 1 ∧
      (bracketAfter (plateaus 3 2 1) 1 1).least (plateaus 3 2 1) <
        (bracketAfter (plateaus 3 2 1) 1 2).least (plateaus 3 2 1) := by
  rw [run_bisection, run_bisection, bracketAfter_plateaus_one, bracketAfter_plateaus_two]
  norm_num [Bracket.best, Bracket.least, plateaus]

end LineSearch

end NewtonKrylov
