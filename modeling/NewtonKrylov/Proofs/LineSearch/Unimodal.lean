import NewtonKrylov.Proofs.LineSearch.Bisection
import NewtonKrylov.Proofs.LineSearch.Geometry

/-!
# Bisection of a unimodal profile

A profile that falls strictly up to a scale `low` and rises strictly from there (`Unimodal`) never stops a
bisection: no middle is worse than both ends. But where the middle is better than both ends, the worse one
is replaced, and that is not always the one farther from `low`. On a lopsided profile `low` can be on the
side that is given up (`Bracket.Drops`). That is the only way to lose it, and once it is lost the profile
is monotone on what is left, so the middle that was better than both ends is what the search settles for.

`LineSearch.bisection_unimodal`: while `low` is not dropped it is in the bracket, and the choice is within
the width of the last one of it; where it is first dropped, the choice is the middle of that time, however
much budget is left. `LineSearch.bisection_lopsided` is a profile where the first look drops it.
-/

namespace NewtonKrylov

variable {ε s : Type} {φ : ℝ → EReal} {a low : ℝ} {b : Bracket ℝ Extended}

/-- Strictly falling up to `low` and strictly rising from there up to `a`. -/
structure Unimodal (φ : ℝ → EReal) (a low : ℝ) : Prop where
  mem : low ∈ Set.Icc 0 a
  falls : StrictAntiOn φ (Set.Icc 0 low)
  rises : StrictMonoOn φ (Set.Icc low a)

namespace Bracket

/-- A bracket of scales up to `a` with the norms of the profile. -/
structure Spans (φ : ℝ → EReal) (a : ℝ) (b : Bracket ℝ Extended) : Prop where
  sound : b.Sound φ
  left_nonneg : 0 ≤ b.left
  lt : b.left < b.right
  right_le : b.right ≤ a

/-- The scales between the two ends. -/
def span (b : Bracket ℝ Extended) : Set ℝ := Set.Icc b.left b.right

/-- The middle is better than both ends, and `low` is behind it as seen from the better one. -/
def Drops (φ : ℝ → EReal) (low : ℝ) (b : Bracket ℝ Extended) : Prop :=
  (φ b.middle < φ b.left ∧ φ b.left ≤ φ b.right ∧ b.middle < low) ∨
    (φ b.middle < φ b.right ∧ φ b.right < φ b.left ∧ low < b.middle)

/-- A look that drops `low` leaves a bracket beside it, with the middle at the nearer end. -/
theorem Sound.next_of_drops (hb : b.Sound φ) (hdrops : b.Drops φ low) :
    (b.next φ).right = b.middle ∧ b.middle ≤ low ∨
      (b.next φ).left = b.middle ∧ low ≤ b.middle := by
  rcases hdrops with ⟨hl, hle, hlow⟩ | ⟨hr, hlt, hlow⟩
  · rcases hb.next_cases with ⟨hl', -, -⟩ | ⟨-, -, hnext⟩ | ⟨-, hr, -⟩ | ⟨hl', -, -⟩
    · exact absurd hl hl'.not_gt
    · rw [hnext]
      exact .inl ⟨rfl, hlow.le⟩
    · exact absurd hle hr.not_ge
    · exact absurd hl hl'.not_gt
  · rcases hb.next_cases with ⟨-, hr', -⟩ | ⟨-, hle, -⟩ | ⟨-, -, hnext⟩ | ⟨hl, -, -⟩
    · exact absurd hr hr'.not_gt
    · exact absurd hle hlt.not_ge
    · rw [hnext]
      exact .inr ⟨rfl, hlow.le⟩
    · exact absurd (hr.trans hlt) hl.not_gt

end Bracket

open NewtonKrylov.Bracket

namespace Unimodal

variable (h : Unimodal φ a low)
include h

theorem lt_of_le_low {x y : ℝ} (hx : 0 ≤ x) (hxy : x < y) (hy : y ≤ low) : φ y < φ x :=
  h.falls ⟨hx, hxy.le.trans hy⟩ ⟨hx.trans hxy.le, hy⟩ hxy

theorem lt_of_low_le {x y : ℝ} (hx : low ≤ x) (hxy : x < y) (hy : y ≤ a) : φ x < φ y :=
  h.rises ⟨hx, hxy.le.trans hy⟩ ⟨hx.trans hxy.le, hy⟩ hxy

/-! ## One look -/

section Look

variable (hb : b.Spans φ a)
include hb

theorem lt_left (hmiddle : b.middle ≤ low) : φ b.middle < φ b.left :=
  h.lt_of_le_low hb.left_nonneg (left_lt_middle hb.lt) hmiddle

theorem lt_right (hmiddle : low ≤ b.middle) : φ b.middle < φ b.right :=
  h.lt_of_low_le hmiddle (middle_lt_right hb.lt) hb.right_le

theorem not_worse : ¬ (φ b.left < φ b.middle ∧ φ b.right < φ b.middle) := by
  rintro ⟨hleft, hright⟩
  rcases le_total b.middle low with hmiddle | hmiddle
  · exact hleft.not_gt (h.lt_left hb hmiddle)
  · exact hright.not_gt (h.lt_right hb hmiddle)

theorem not_stops : ¬ b.Stops fun alpha => .number (φ alpha) := by
  rw [Stops, narrow_eq_none, hb.sound.left_eq, hb.sound.right_eq, Extended.lt_number,
    Extended.lt_number]
  exact h.not_worse hb

theorem half_next : b.Half (.number (φ b.middle)) (b.next φ) := by
  rcases hb.sound.next_cases with ⟨hl, hr, -⟩ | ⟨-, -, hnext⟩ | ⟨-, -, hnext⟩ | ⟨-, -, hnext⟩
  · exact absurd ⟨hl, hr⟩ (h.not_worse hb)
  · rw [hnext]
    exact .left
  · rw [hnext]
    exact .right
  · rw [hnext]
    exact .left

theorem spans_next : (b.next φ).Spans φ a where
  sound := hb.sound.next
  left_nonneg := hb.left_nonneg.trans ((h.half_next hb).within hb.lt).1
  lt := (h.half_next hb).lt hb.lt
  right_le := ((h.half_next hb).within hb.lt).2.trans hb.right_le

theorem mem_next_iff (hlow : low ∈ b.span) : low ∈ (b.next φ).span ↔ ¬ b.Drops φ low := by
  unfold Drops
  rcases hb.sound.next_cases with ⟨hl, hr, -⟩ | ⟨hl, hr, hnext⟩ | ⟨hl, hr, hnext⟩ | ⟨hl, -, hnext⟩
  · exact absurd ⟨hl, hr⟩ (h.not_worse hb)
  · have hspan : low ∈ (b.next φ).span ↔ low ≤ b.middle := by
      rw [hnext]
      exact and_iff_right hlow.1
    rw [hspan, ← not_lt]
    refine not_congr ⟨fun hlt => .inl ⟨hl, hr, hlt⟩, ?_⟩
    rintro (⟨-, -, hlt⟩ | ⟨-, hlt, -⟩)
    · exact hlt
    · exact absurd hr hlt.not_ge
  · have hspan : low ∈ (b.next φ).span ↔ b.middle ≤ low := by
      rw [hnext]
      exact and_iff_left hlow.2
    rw [hspan, ← not_lt]
    refine not_congr ⟨fun hlt => .inr ⟨h.lt_right hb hlt.le, hr, hlt⟩, ?_⟩
    rintro (⟨-, hle, -⟩ | ⟨-, -, hlt⟩)
    · exact absurd hle hr.not_ge
    · exact hlt
  · have hmiddle : low < b.middle := not_le.mp fun hle => hl.not_gt (h.lt_left hb hle)
    rw [hnext]
    refine iff_of_true ⟨hlow.1, hmiddle.le⟩ ?_
    rintro (⟨hlt, -, -⟩ | ⟨hlt, hlt', -⟩)
    · exact hl.not_gt hlt
    · exact hl.not_gt (hlt.trans hlt')

theorem left_next (hlow : low ≤ b.left) : (b.next φ).left = b.left := by
  have hrises : φ b.left < φ b.middle :=
    h.lt_of_low_le hlow (left_lt_middle hb.lt) ((middle_lt_right hb.lt).le.trans hb.right_le)
  rcases hb.sound.next_cases with ⟨hl, hr, -⟩ | ⟨hl, -, -⟩ | ⟨hl, -, -⟩ | ⟨-, -, hnext⟩
  · exact absurd ⟨hl, hr⟩ (h.not_worse hb)
  · exact absurd hl hrises.not_gt
  · exact absurd hl hrises.not_gt
  · rw [hnext]
    rfl

theorem right_next (hlow : b.right ≤ low) : (b.next φ).right = b.right := by
  have hmiddle := (middle_lt_right hb.lt).le.trans hlow
  have hleft : φ b.middle < φ b.left := h.lt_left hb hmiddle
  have hright : φ b.right < φ b.middle :=
    h.lt_of_le_low (hb.left_nonneg.trans (left_lt_middle hb.lt).le) (middle_lt_right hb.lt) hlow
  rcases hb.sound.next_cases with ⟨hl, -, -⟩ | ⟨-, hle, -⟩ | ⟨-, -, hnext⟩ | ⟨hl, -, -⟩
  · exact absurd hl hleft.not_gt
  · exact absurd hle (hright.trans hleft).not_ge
  · rw [hnext]
    rfl
  · exact absurd hleft hl.not_gt

/-! ## Many looks -/

theorem spans_iterate (n : Nat) : ((Bracket.next φ)^[n] b).Spans φ a := by
  induction n with
  | zero => exact hb
  | succ n ih =>
    rw [Function.iterate_succ_apply']
    exact h.spans_next ih

theorem left_iterate (hlow : low ≤ b.left) (n : Nat) : ((Bracket.next φ)^[n] b).left = b.left := by
  induction n with
  | zero => rfl
  | succ n ih =>
    rw [Function.iterate_succ_apply', h.left_next (h.spans_iterate hb n) (hlow.trans_eq ih.symm), ih]

theorem right_iterate (hlow : b.right ≤ low) (n : Nat) :
    ((Bracket.next φ)^[n] b).right = b.right := by
  induction n with
  | zero => rfl
  | succ n ih =>
    rw [Function.iterate_succ_apply', h.right_next (h.spans_iterate hb n) (ih.trans_le hlow), ih]

end Look

theorem best_of_low_le_left (hb : b.Spans φ a) (hlow : low ≤ b.left) : b.best.1 = b.left := by
  have hlt := h.lt_of_low_le hlow hb.lt hb.right_le
  rw [best, hb.sound.left_eq, hb.sound.right_eq, if_pos ((Extended.lt_number _ _).mpr hlt)]

theorem best_of_right_le_low (hb : b.Spans φ a) (hlow : b.right ≤ low) : b.best.1 = b.right := by
  have hlt := h.lt_of_le_low hb.left_nonneg hb.lt hlow
  rw [best, hb.sound.left_eq, hb.sound.right_eq,
    if_neg fun hlt' => hlt.not_gt ((Extended.lt_number _ _).mp hlt')]

theorem best_iterate_of_low_le_left (hb : b.Spans φ a) (hlow : low ≤ b.left) (n : Nat) :
    ((Bracket.next φ)^[n] b).best.1 = b.left := by
  have hleft := h.left_iterate hb hlow n
  rw [h.best_of_low_le_left (h.spans_iterate hb n) (hlow.trans_eq hleft.symm), hleft]

theorem best_iterate_of_right_le_low (hb : b.Spans φ a) (hlow : b.right ≤ low) (n : Nat) :
    ((Bracket.next φ)^[n] b).best.1 = b.right := by
  have hright := h.right_iterate hb hlow n
  rw [h.best_of_right_le_low (h.spans_iterate hb n) (hright.trans_le hlow), hright]

/-- Once `low` is dropped, the middle of that time stays the best end. -/
theorem best_iterate_of_drops (hb : b.Spans φ a) (hdrops : b.Drops φ low) (n : Nat) :
    ((Bracket.next φ)^[n] (b.next φ)).best.1 = b.middle := by
  have hnext := h.spans_next hb
  rcases hb.sound.next_of_drops hdrops with ⟨hright, hlow⟩ | ⟨hleft, hlow⟩
  · rw [h.best_iterate_of_right_le_low hnext (hright.trans_le hlow), hright]
  · rw [h.best_iterate_of_low_le_left hnext (hlow.trans_eq hleft.symm), hleft]

end Unimodal

/-! ## Whole searches -/

namespace Bracket

theorem Spans.best_mem (hb : b.Spans φ a) : b.best.1 ∈ b.span := by
  rcases b.best_cases with hbest | hbest
  · rw [hbest]
    exact ⟨le_rfl, hb.lt.le⟩
  · rw [hbest]
    exact ⟨hb.lt.le, le_rfl⟩

theorem whole_spans (φ : ℝ → EReal) (ha : 0 < a) : (whole φ a).Spans φ a :=
  ⟨whole_sound φ a, le_rfl, ha, le_rfl⟩

end Bracket

namespace LineSearch

section

variable (h : Unimodal φ a low) (ha : 0 < a)
include h ha

theorem bracketAfter_spans (n : Nat) : (bracketAfter φ a n).Spans φ a :=
  h.spans_iterate (whole_spans φ ha) n

theorem bracketAfter_width (n : Nat) :
    (bracketAfter φ a n).right - (bracketAfter φ a n).left = a / 2 ^ n := by
  induction n with
  | zero =>
    rw [pow_zero, div_one]
    exact sub_zero a
  | succ n ih =>
    rw [bracketAfter_succ, pow_succ, ← div_div, ← ih]
    exact (h.half_next (bracketAfter_spans h ha n)).width_eq

theorem low_mem_bracketAfter_succ_iff {k : Nat} (hlow : low ∈ (bracketAfter φ a k).span) :
    low ∈ (bracketAfter φ a (k + 1)).span ↔ ¬ (bracketAfter φ a k).Drops φ low := by
  rw [bracketAfter_succ]
  exact h.mem_next_iff (bracketAfter_spans h ha k) hlow

theorem low_mem_bracketAfter {k : Nat} (hkept : ∀ j < k, ¬ (bracketAfter φ a j).Drops φ low) :
    low ∈ (bracketAfter φ a k).span := by
  induction k with
  | zero => exact h.mem
  | succ k ih =>
    have hlow := ih fun j hj => hkept j (Nat.lt_succ_of_lt hj)
    exact (low_mem_bracketAfter_succ_iff h ha hlow).mpr (hkept k (Nat.lt_succ_self k))

theorem best_bracketAfter_of_drops {k n : Nat} (hk : k < n)
    (hdrops : (bracketAfter φ a k).Drops φ low) :
    (bracketAfter φ a n).best.1 = (bracketAfter φ a k).middle := by
  obtain ⟨m, rfl⟩ := Nat.exists_eq_add_of_lt hk
  have hiterate : bracketAfter φ a (k + m + 1) =
      (Bracket.next φ)^[m] ((bracketAfter φ a k).next φ) := by
    rw [← bracketAfter_succ, bracketAfter, bracketAfter, ← Function.iterate_add_apply]
    congr 1
    omega
  rw [hiterate]
  exact h.best_iterate_of_drops (bracketAfter_spans h ha k) hdrops m

/-- Where `low` is dropped it is strictly inside the bracket, as the profile is not monotone there. -/
theorem abs_middle_sub_lt {k : Nat} (hlow : low ∈ (bracketAfter φ a k).span)
    (hdrops : (bracketAfter φ a k).Drops φ low) :
    |(bracketAfter φ a k).middle - low| < a / 2 ^ (k + 1) := by
  have hb := bracketAfter_spans h ha k
  have hwidth := bracketAfter_width h ha k
  have hleft : (bracketAfter φ a k).left < low := by
    refine hlow.1.lt_of_ne fun heq => ?_
    rcases hdrops with ⟨-, -, hlt⟩ | ⟨-, hlt, -⟩
    · exact hlt.not_gt (heq.symm.trans_lt (left_lt_middle hb.lt))
    · exact hlt.not_gt (h.lt_of_low_le heq.ge hb.lt hb.right_le)
  have hright : low < (bracketAfter φ a k).right := by
    refine hlow.2.lt_of_ne fun heq => ?_
    rcases hdrops with ⟨-, hle, -⟩ | ⟨-, -, hlt⟩
    · exact hle.not_gt (h.lt_of_le_low hb.left_nonneg hb.lt heq.ge)
    · exact hlt.not_gt ((middle_lt_right hb.lt).trans_eq heq.symm)
  rw [pow_succ, ← div_div, ← hwidth, middle_real, abs_lt]
  constructor
  · linarith
  · linarith

end

/-- The lowest scale of a unimodal profile stays in the bracket from one look to the next exactly where it
is not dropped. While it is not, what bisection settles for is within the width of its last bracket of it;
where it is dropped for the first time, bisection settles for the middle of that time. -/
theorem bisection_unimodal (h : Unimodal φ a low) (ha : 0 < a) (n : Nat) (o : s) :
    ∃ alpha, run (ε := ε) ⟨.bisection, .ok n⟩ (numbers φ) (Reach.upTo a) o =
        .ok (alpha, some (.number (φ alpha))) o ∧
      (∀ k, low ∈ (bracketAfter φ a k).span →
        (low ∈ (bracketAfter φ a (k + 1)).span ↔ ¬ (bracketAfter φ a k).Drops φ low)) ∧
      ((∀ k < n, ¬ (bracketAfter φ a k).Drops φ low) →
        (∀ k ≤ n, low ∈ (bracketAfter φ a k).span) ∧ |alpha - low| ≤ a / 2 ^ n) ∧
      ∀ k < n, (∀ j < k, ¬ (bracketAfter φ a j).Drops φ low) → (bracketAfter φ a k).Drops φ low →
        alpha = (bracketAfter φ a k).middle ∧ |alpha - low| < a / 2 ^ (k + 1) := by
  refine ⟨_, run_bisection φ a n o, fun k hlow => low_mem_bracketAfter_succ_iff h ha hlow, ?_, ?_⟩
  · intro hkept
    have hmem : ∀ k ≤ n, low ∈ (bracketAfter φ a k).span := fun k hk =>
      low_mem_bracketAfter h ha fun j hj => hkept j (hj.trans_le hk)
    refine ⟨hmem, ?_⟩
    rw [← bracketAfter_width h ha n]
    exact Real.dist_le_of_mem_Icc (bracketAfter_spans h ha n).best_mem (hmem n le_rfl)
  · intro k hk hkept hdrops
    have hbest := best_bracketAfter_of_drops h ha hk hdrops
    refine ⟨hbest, ?_⟩
    rw [hbest]
    exact abs_middle_sub_lt h ha (low_mem_bracketAfter h ha hkept) hdrops

/-- A profile that falls with the given slope up to `low` and rises with slope one from there. -/
noncomputable def lopsided (slope low alpha : ℝ) : EReal :=
  ((if alpha < low then slope * (low - alpha) else alpha - low : ℝ) : EReal)

theorem lopsided_unimodal {slope low a : ℝ} (hslope : 0 < slope) (hlow : low ∈ Set.Icc 0 a) :
    Unimodal (lopsided slope low) a low where
  mem := hlow
  falls := by
    intro x _ y hy hxy
    have hx : x < low := hxy.trans_le hy.2
    rw [lopsided, lopsided, EReal.coe_lt_coe_iff, if_pos hx]
    split
    · exact mul_lt_mul_of_pos_left (sub_lt_sub_left hxy low) hslope
    · linarith [hy.2, mul_pos hslope (sub_pos.mpr hx)]
  rises := by
    intro x hx y hy hxy
    rw [lopsided, lopsided, EReal.coe_lt_coe_iff, if_neg hx.1.not_gt, if_neg hy.1.not_gt]
    exact sub_lt_sub_right hxy low

theorem lopsided_steep_unimodal : Unimodal (lopsided 80 (1 / 8)) 1 (1 / 8) :=
  lopsided_unimodal (by norm_num) ⟨by norm_num, by norm_num⟩

theorem whole_lopsided_middle : (bracketAfter (lopsided 80 (1 / 8)) 1 0).middle = 1 / 2 := by
  norm_num [bracketAfter, middle_real, whole]

theorem whole_lopsided_drops :
    (bracketAfter (lopsided 80 (1 / 8)) 1 0).Drops (lopsided 80 (1 / 8)) (1 / 8) := by
  refine .inr ⟨?_, ?_, ?_⟩
  · rw [whole_lopsided_middle]
    show lopsided 80 (1 / 8) (1 / 2) < lopsided 80 (1 / 8) 1
    rw [lopsided, lopsided, EReal.coe_lt_coe_iff]
    norm_num
  · show lopsided 80 (1 / 8) 1 < lopsided 80 (1 / 8) 0
    rw [lopsided, lopsided, EReal.coe_lt_coe_iff]
    norm_num
  · rw [whole_lopsided_middle]
    norm_num

/-- With two looks to spend, bisection settles for `1 / 2`, farther than `1 / 4` from the lowest scale. -/
theorem bisection_lopsided :
    Unimodal (lopsided 80 (1 / 8)) 1 (1 / 8) ∧
      (1 / 8 : ℝ) ∉ (bracketAfter (lopsided 80 (1 / 8)) 1 1).span ∧
      run (ε := Empty) ⟨.bisection, .ok 2⟩ (numbers (lopsided 80 (1 / 8))) (Reach.upTo 1) () =
        .ok (1 / 2, some (.number (lopsided 80 (1 / 8) (1 / 2)))) () ∧
      ¬ |(1 / 2 : ℝ) - 1 / 8| ≤ 1 / 2 ^ 2 := by
  have hdrops := whole_lopsided_drops
  have hbest := best_bracketAfter_of_drops lopsided_steep_unimodal one_pos two_pos hdrops
  rw [whole_lopsided_middle] at hbest
  refine ⟨lopsided_steep_unimodal, fun hmem => ?_, ?_, ?_⟩
  · have hlow := low_mem_bracketAfter lopsided_steep_unimodal one_pos (k := 0) nofun
    exact (low_mem_bracketAfter_succ_iff lopsided_steep_unimodal one_pos hlow).mp hmem hdrops
  · rw [run_bisection, hbest]
  · rw [abs_of_pos]
    · norm_num
    · norm_num

theorem bisection_unimodal_lopsided :
    Unimodal (lopsided 80 (1 / 8)) 1 (1 / 8) ∧ (0 : ℝ) < 1 ∧ ∃ alpha,
      run (ε := Empty) ⟨.bisection, .ok 5⟩ (numbers (lopsided 80 (1 / 8))) (Reach.upTo 1) () =
        .ok (alpha, some (.number (lopsided 80 (1 / 8) alpha))) () ∧
      alpha = 1 / 2 ∧ |alpha - 1 / 8| < 1 / 2 := by
  obtain ⟨alpha, hrun, -, -, hdropped⟩ :=
    bisection_unimodal (ε := Empty) lopsided_steep_unimodal one_pos 5 ()
  obtain ⟨hmiddle, hclose⟩ :=
    hdropped 0 (by decide) (fun j hj => absurd hj j.not_lt_zero) whole_lopsided_drops
  refine ⟨lopsided_steep_unimodal, one_pos, alpha, hrun, hmiddle.trans whole_lopsided_middle, ?_⟩
  rwa [zero_add, pow_one] at hclose

end LineSearch

end NewtonKrylov
