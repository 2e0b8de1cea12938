import NewtonKrylov.Proofs.LineSearch.Unimodal
import NewtonKrylov.Proofs.Newton.Affine

/-!
# Bisection of a symmetric profile

A profile `g |alpha - c|` with a strictly increasing `g` is unimodal on any reach, and lowest at the scale
nearest to `c` (`symmetric_unimodal`). Which end of a bracket is the better one says on which side of the
middle `c` is, so that scale is never dropped (`Bracket.Spans.not_drops`), and in the end it is in the half
of the last bracket that is next to the better end.

`LineSearch.bisection_symmetric`: bisection makes all the looks it may, and gets within half the width of
its last bracket. The profile along an exact Newton direction of an affine residual is of this kind, with
`c = 1` (`normAlong_affine`).
-/

namespace NewtonKrylov

variable {ε s R σ : Type} {g : ℝ → EReal} {a c x y : ℝ} {b : Bracket ℝ Extended}

/-- The scale up to `a` that is nearest to `c`. -/
noncomputable def nearest (a c : ℝ) : ℝ := max 0 (min a c)

theorem nearest_mem (c : ℝ) (ha : 0 < a) : nearest a c ∈ Set.Icc 0 a :=
  ⟨le_max_left _ _, max_le ha.le (min_le_left _ _)⟩

theorem le_of_le_nearest (hx : 0 < x) (h : x ≤ nearest a c) : x ≤ c :=
  (le_min_iff.mp ((le_max_iff.mp h).resolve_left hx.not_ge)).2

theorem le_of_nearest_le (hx : x < a) (h : nearest a c ≤ x) : c ≤ x :=
  (min_le_iff.mp (max_le_iff.mp h).2).resolve_left hx.not_ge

theorem nearest_le (hx : x ∈ Set.Icc 0 a) : |nearest a c - c| ≤ |x - c| := by
  unfold nearest
  rcases le_total c 0 with hc | hc
  · rw [min_eq_right (hc.trans (hx.1.trans hx.2)), max_eq_left hc, abs_of_nonneg (sub_nonneg.mpr hc),
      abs_of_nonneg (sub_nonneg.mpr (hc.trans hx.1))]
    linarith [hx.1]
  rcases le_total a c with hac | hac
  · rw [min_eq_left hac, max_eq_right (hx.1.trans hx.2), abs_of_nonpos (sub_nonpos.mpr hac),
      abs_of_nonpos (sub_nonpos.mpr (hx.2.trans hac))]
    linarith [hx.2]
  · rw [min_eq_right hac, max_eq_right hc, sub_self, abs_zero]
    exact abs_nonneg _

theorem nearest_of_nonpos (ha : 0 < a) (hc : c ≤ 0) : nearest a c = 0 := by
  rw [nearest, min_eq_right (hc.trans ha.le), max_eq_left hc]

theorem nearest_of_le (ha : 0 < a) (hc : a ≤ c) : nearest a c = a := by
  rw [nearest, min_eq_left hc, max_eq_right ha.le]

theorem sq_sub_sq_of_center (x y c : ℝ) :
    (y - c) ^ 2 - (x - c) ^ 2 = 2 * (y - x) * ((x + y) / 2 - c) := by ring

theorem left_no_farther_iff (h : x < y) : |x - c| ≤ |y - c| ↔ c ≤ (x + y) / 2 := by
  have hpos : 0 < 2 * (y - x) := by linarith
  rw [← sq_le_sq, ← sub_nonneg, sq_sub_sq_of_center, mul_nonneg_iff_of_pos_left hpos, sub_nonneg]

theorem right_no_farther_iff (h : x < y) : |y - c| ≤ |x - c| ↔ (x + y) / 2 ≤ c := by
  have hpos : 0 < 2 * (y - x) := by linarith
  rw [← sq_le_sq, ← sub_nonpos, sq_sub_sq_of_center, ← not_lt, mul_pos_iff_of_pos_left hpos, not_lt,
    sub_nonpos]

/-- The profile `g |alpha - c|`. -/
def symmetric (g : ℝ → EReal) (c alpha : ℝ) : EReal := g |alpha - c|

section Symmetric

variable (hg : StrictMonoOn g (Set.Ici 0))
include hg

theorem symmetric_lt_iff : symmetric g c x < symmetric g c y ↔ |x - c| < |y - c| :=
  hg.lt_iff_lt (Set.mem_Ici.mpr (abs_nonneg _)) (Set.mem_Ici.mpr (abs_nonneg _))

theorem symmetric_le_iff : symmetric g c x ≤ symmetric g c y ↔ |x - c| ≤ |y - c| :=
  hg.le_iff_le (Set.mem_Ici.mpr (abs_nonneg _)) (Set.mem_Ici.mpr (abs_nonneg _))

theorem symmetric_unimodal (c : ℝ) (ha : 0 < a) : Unimodal (symmetric g c) a (nearest a c) where
  mem := nearest_mem c ha
  falls := by
    intro x hx y hy hxy
    have hyc := le_of_le_nearest (hx.1.trans_lt hxy) hy.2
    rw [symmetric_lt_iff hg, abs_of_nonpos (sub_nonpos.mpr hyc),
      abs_of_nonpos (sub_nonpos.mpr (hxy.le.trans hyc))]
    linarith
  rises := by
    intro x hx y hy hxy
    have hcx := le_of_nearest_le (hxy.trans_le hy.2) hx.1
    rw [symmetric_lt_iff hg, abs_of_nonneg (sub_nonneg.mpr hcx),
      abs_of_nonneg (sub_nonneg.mpr (hcx.trans hxy.le))]
    linarith

namespace Bracket

variable (hb : b.Spans (symmetric g c) a)
include hb

omit hg in
theorem Spans.middle_mem : 0 < b.middle ∧ b.middle < a :=
  ⟨hb.left_nonneg.trans_lt (left_lt_middle hb.lt), (middle_lt_right hb.lt).trans_le hb.right_le⟩

theorem Spans.nearest_le_middle (h : symmetric g c b.left ≤ symmetric g c b.right) :
    nearest a c ≤ b.middle := by
  rw [symmetric_le_iff hg, left_no_farther_iff hb.lt, ← middle_real] at h
  exact max_le hb.middle_mem.1.le ((min_le_right _ _).trans h)

theorem Spans.middle_le_nearest (h : symmetric g c b.right ≤ symmetric g c b.left) :
    b.middle ≤ nearest a c := by
  rw [symmetric_le_iff hg, right_no_farther_iff hb.lt, ← middle_real] at h
  exact le_max_of_le_right (le_min hb.middle_mem.2.le h)

theorem Spans.not_drops : ¬ b.Drops (symmetric g c) (nearest a c) := by
  rintro (⟨-, hle, hmiddle⟩ | ⟨-, hlt, hmiddle⟩)
  · exact hmiddle.not_ge (hb.nearest_le_middle hg hle)
  · exact hmiddle.not_ge (hb.middle_le_nearest hg hlt.le)

/-- The scale nearest to `c` is in the half of the better end. -/
theorem Spans.abs_best_sub_le (hmem : nearest a c ∈ b.span) :
    |b.best.1 - nearest a c| ≤ (b.right - b.left) / 2 := by
  unfold best
  rw [hb.sound.left_eq, hb.sound.right_eq]
  simp only [Extended.lt_number]
  split
  · rename_i hlt
    have hmiddle := hb.nearest_le_middle hg hlt.le
    rw [middle_real] at hmiddle
    rw [abs_of_nonpos (sub_nonpos.mpr hmem.1)]
    linarith
  · rename_i hlt
    have hmiddle := hb.middle_le_nearest hg (not_lt.mp hlt)
    rw [middle_real] at hmiddle
    rw [abs_of_nonneg (sub_nonneg.mpr hmem.2)]
    linarith

end Bracket

end Symmetric

/-! ## Along an exact Newton direction -/

section Affine

variable {d : Nat} {L : EuclideanSpace ℝ (Fin d) →ₗ[ℝ] EuclideanSpace ℝ (Fin d)} {rhs : Vector ℝ d}

/-- What `q` becomes at a distance `t` from the scale where it vanishes. -/
noncomputable def paraboloid (q t : ℝ) : EReal := ((t ^ 2 * q : ℝ) : EReal)

theorem paraboloid_strictMonoOn {q : ℝ} (hq : 0 < q) : StrictMonoOn (paraboloid q) (Set.Ici 0) := by
  intro s hs t _ hst
  rw [paraboloid, paraboloid, EReal.coe_lt_coe_iff]
  exact mul_lt_mul_of_pos_right (pow_lt_pow_left₀ hst hs two_ne_zero) hq

theorem meanSquare_pos {v : Vector ℝ d} (hv : point v ≠ 0) :
    0 < ((Component.plain ℝ).backend d).meanSquare v := by
  have hd : d ≠ 0 := by
    rintro rfl
    exact hv (Subsingleton.elim _ _)
  rw [Newton.meanSquare_eq]
  exact div_pos (pow_pos (norm_pos_iff.mpr hv) 2) (Nat.cast_pos.mpr (Nat.pos_of_ne_zero hd))

theorem normAlong_affine {x dx : Vector ℝ d} (hexact : L (point dx) = point (affine L rhs x)) :
    normAlong (R := Extended) (σ := σ) ((Component.plain ℝ).backend d) (fun y => pure (affine L rhs y))
        (fun v => pure (.number ↑(((Component.plain ℝ).backend d).meanSquare v))) x dx =
      numbers (symmetric
        (paraboloid (((Component.plain ℝ).backend d).meanSquare (affine L rhs x))) 1) := by
  funext alpha
  have hstep : point (affine L rhs (((Component.plain ℝ).backend d).addScaled x dx (-alpha))) =
      (1 - alpha) ^ 1 • point (affine L rhs x) := by
    rw [point_affine_step, hexact, sub_self, smul_zero, add_zero, pow_one]
  have hmean := Newton.meanSquare_of_smul hstep
  rw [mul_one] at hmean
  rw [normAlong, pure_bind, hmean, numbers, symmetric, paraboloid, sq_abs, ← neg_sub alpha 1, neg_sq]

end Affine

/-! ## Whole searches -/

namespace LineSearch

/-- On a symmetric profile bisection never stops early, and settles for a scale within half the width of
its last bracket of the scale nearest to the center: for zero or the largest scale if the center is not
between the two. Along an exact Newton direction of an affine residual the mean square is such a profile,
with the center at one. -/
theorem bisection_symmetric :
    (∀ {ε s : Type} {g : ℝ → EReal} (_ : StrictMonoOn g (Set.Ici 0)) (c : ℝ) {a : ℝ} (_ : 0 < a)
        (n : Nat) (o : s),
      ∃ alpha looks,
        run (ε := ε) ⟨.bisection, .ok n⟩ (numbers (symmetric g c)) (Reach.upTo a) o =
          .ok (alpha, some (.number (g |alpha - c|))) o ∧
        run (ε := ε) ⟨.bisection, .ok n⟩ (noting (numbers (symmetric g c))) (Reach.upTo a) (o, []) =
          .ok (alpha, some (.number (g |alpha - c|))) (o, looks) ∧
        looks.length = n + 2 ∧
        (∀ k, ¬ (bracketAfter (symmetric g c) a k).Stops fun alpha => .number (g |alpha - c|)) ∧
        (∃ p ∈ Set.Icc 0 a, (∀ x ∈ Set.Icc 0 a, |p - c| ≤ |x - c|) ∧
          |alpha - p| ≤ a / 2 ^ (n + 1)) ∧
        (c ≤ 0 → alpha = 0) ∧ (a ≤ c → alpha = a)) ∧
    ∀ {σ : Type} {d : Nat} {L : EuclideanSpace ℝ (Fin d) →ₗ[ℝ] EuclideanSpace ℝ (Fin d)}
      {rhs x dx : Vector ℝ d} (_ : L (point dx) = point (affine L rhs x)),
      let q := ((Component.plain ℝ).backend d).meanSquare (affine L rhs x)
      normAlong (R := Extended) (σ := σ) ((Component.plain ℝ).backend d)
          (fun y => pure (affine L rhs y))
          (fun v => pure (.number ↑(((Component.plain ℝ).backend d).meanSquare v))) x dx =
        numbers (symmetric (paraboloid q) 1) ∧
      (point (affine L rhs x) ≠ 0 → StrictMonoOn (paraboloid q) (Set.Ici 0)) := by
  refine ⟨?_, fun hexact => ⟨normAlong_affine hexact, ?_⟩⟩
  · intro ε s g hg c a ha n o
    have h := symmetric_unimodal hg c ha
    have hspans := bracketAfter_spans h ha
    have hstops := fun k => h.not_stops (hspans k)
    have hnoting := run_noting_answers (ε := ε) (fun alpha => Extended.number (symmetric g c alpha)) a n
      (fun k _ => bracketAfter_eq (symmetric g c) a k ▸ hstops k) o
    rw [← bracketAfter_eq, (hspans n).sound.best.1] at hnoting
    refine ⟨_, _, run_bisection (symmetric g c) a n o, hnoting, ?_, hstops, ?_, fun hc => ?_,
      fun hc => ?_⟩
    · rw [List.length_cons, List.length_map, List.length_range]
    · have hmem := low_mem_bracketAfter h ha fun j (_ : j < n) => (hspans j).not_drops hg
      refine ⟨nearest a c, nearest_mem c ha, fun x hx => nearest_le hx, ?_⟩
      rw [pow_succ, ← div_div, ← bracketAfter_width h ha n]
      exact (hspans n).abs_best_sub_le hg hmem
    · exact h.best_iterate_of_low_le_left (Bracket.whole_spans _ ha) (nearest_of_nonpos ha hc).le n
    · exact h.best_iterate_of_right_le_low (Bracket.whole_spans _ ha) (nearest_of_le ha hc).ge n
  · exact fun hresidual => paraboloid_strictMonoOn (meanSquare_pos hresidual)

theorem bisection_symmetric_paraboloid :
    StrictMonoOn (paraboloid 1) (Set.Ici 0) ∧ (0 : ℝ) < 2 ∧
      (∃ looks, looks.length = 6 ∧ run (ε := Empty) ⟨.bisection, .ok 4⟩
        (noting (numbers (symmetric (paraboloid 1) 3))) (Reach.upTo 2) ((), []) =
          .ok (2, some (.number (paraboloid 1 |2 - 3|))) ((), looks)) ∧
      point (affine LinearMap.id #v[1] #v[4]) ≠ 0 ∧
      StrictMonoOn
        (paraboloid (((Component.plain ℝ).backend 1).meanSquare (affine LinearMap.id #v[1] #v[4])))
        (Set.Ici 0) := by
  have hg := paraboloid_strictMonoOn one_pos
  have hresidual : point (affine LinearMap.id #v[1] #v[4]) ≠ 0 := by
    rw [point_affine, LinearMap.id_apply, sub_ne_zero]
    intro heq
    have hentry : (4 : ℝ) = 1 := congrArg (fun v => v[0]) (point_injective heq)
    norm_num at hentry
  obtain ⟨hruns, haffine⟩ := bisection_symmetric
  obtain ⟨alpha, looks, -, hnoting, hlength, -, -, -, hlargest⟩ :=
    hruns (ε := Empty) hg 3 two_pos 4 ()
  obtain rfl := hlargest (by norm_num)
  refine ⟨hg, two_pos, ⟨looks, hlength, hnoting⟩, hresidual, ?_⟩
  exact (haffine (σ := Unit) (LinearMap.id_apply _)).2 hresidual

end LineSearch

end NewtonKrylov
