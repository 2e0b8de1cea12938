import NewtonKrylov.Proofs.Exact

/-!
# Shortest least-squares solutions

Where many coefficients leave the least residual, a solver of minimal norm returns the shortest ones
(`LeastSquares.Shortest`). They are unique (`LeastSquares.ShortestAt.unique`), because half-way between two
different ones the residual is no larger and the coefficients are shorter, and they exist
(`LeastSquares.shortest`). So they scale with the problem: `LeastSquares.Shortest.scaled`.
-/

namespace NewtonKrylov

namespace LeastSquares

variable {k : Nat} {H : Fin (k + 1) → Fin k → ℝ} {g : Fin (k + 1) → ℝ} {y z : Vector ℝ k} {t m : ℝ}

theorem residual_eq_norm_point (H : Fin (k + 1) → Fin k → ℝ) (g : Fin (k + 1) → ℝ)
    (y : Vector ℝ k) : residual H g y = ‖image H (point y).ofLp - WithLp.toLp 2 g‖ :=
  residual_eq_norm H g y

/-- `y` leaves the least residual, and nothing shorter does. -/
structure ShortestAt (H : Fin (k + 1) → Fin k → ℝ) (g : Fin (k + 1) → ℝ) (y : Vector ℝ k) : Prop where
  minimises : ∀ z, residual H g y ≤ residual H g z
  shortest : ∀ z, residual H g z ≤ residual H g y → ‖point y‖ ≤ ‖point z‖

/-- The solver returns the shortest coefficients with the least residual. -/
def Shortest (lsq : LeastSquares ℝ) : Prop := ∀ k H g, ShortestAt H g (lsq k H g)

theorem Shortest.minimises {lsq : LeastSquares ℝ} (hlsq : lsq.Shortest) : lsq.Minimises :=
  fun k H g => (hlsq k H g).minimises

/-! ## Uniqueness -/

/-- The residual is convex: half-way between two it is no larger than at the worse one. -/
theorem residual_halfway_le {w : Vector ℝ k} (hw : point w = (1 / 2 : ℝ) • (point y + point z))
    (h : residual H g z ≤ residual H g y) : residual H g w ≤ residual H g y := by
  have hsplit : image H (point w).ofLp - WithLp.toLp 2 g =
      (1 / 2 : ℝ) • (image H (point y).ofLp - WithLp.toLp 2 g +
        (image H (point z).ofLp - WithLp.toLp 2 g)) := by
    rw [hw, WithLp.ofLp_smul, WithLp.ofLp_add, map_smul, map_add]
    module
  rw [residual_eq_norm_point, residual_eq_norm_point] at h ⊢
  rw [hsplit, norm_smul, Real.norm_of_nonneg (by norm_num)]
  have hsum := norm_add_le (image H (point y).ofLp - WithLp.toLp 2 g)
    (image H (point z).ofLp - WithLp.toLp 2 g)
  linarith

theorem ShortestAt.unique (hy : ShortestAt H g y) (hz : ShortestAt H g z) : y = z := by
  have hlength : ‖point y‖ = ‖point z‖ :=
    le_antisymm (hy.shortest z (hz.minimises y)) (hz.shortest y (hy.minimises z))
  have hhalf := hy.shortest _ (residual_halfway_le (point_ofFn _) (hz.minimises y))
  rw [point_ofFn, norm_smul, Real.norm_of_nonneg (by norm_num)] at hhalf
  have hsum : 2 * ‖point y‖ ≤ ‖point y + point z‖ := by linarith
  have hsquare := mul_self_le_mul_self (mul_nonneg zero_le_two (norm_nonneg _)) hsum
  have hparallelogram := parallelogram_law_with_norm ℝ (point y) (point z)
  rw [← hlength] at hparallelogram
  have hdiff : ‖point y - point z‖ * ‖point y - point z‖ = 0 :=
    le_antisymm (by linarith) (mul_self_nonneg _)
  exact point_injective (sub_eq_zero.mp (norm_eq_zero.mp (mul_self_eq_zero.mp hdiff)))

/-! ## Scaling -/

/-- The coefficients times `m`. -/
noncomputable def stretch (m : ℝ) (y : Vector ℝ k) : Vector ℝ k :=
  ((Component.plain ℝ).backend k).scale y m

theorem point_stretch (m : ℝ) (y : Vector ℝ k) : point (stretch m y) = m • point y :=
  (Component.plain_exact k).scale_eq y m

theorem toList_stretch (m : ℝ) (y : Vector ℝ k) : (stretch m y).toList = y.toList.map (m * ·) := by
  rw [stretch, Component.backend, Vector.toList_map]
  exact List.map_congr_left fun a _ => mul_comm a m

theorem stretch_inv (hm : 0 < m) (z : Vector ℝ k) : stretch m (stretch m⁻¹ z) = z := by
  refine point_injective ?_
  rw [point_stretch, point_stretch, smul_smul, mul_inv_cancel₀ hm.ne', one_smul]

theorem image_scaled (t : ℝ) (H : Fin (k + 1) → Fin k → ℝ) (v : Fin k → ℝ) :
    image (fun i j => t * H i j) v = t • image H v := by
  ext i
  simp [image, Matrix.mulVec, dotProduct, Finset.mul_sum, mul_assoc]

theorem residual_stretch (ht : 0 < t) (hm : 0 < m) (y : Vector ℝ k) :
    residual (fun i j => t * H i j) (fun i => t * m * g i) (stretch m y) = t * m * residual H g y := by
  have hg : WithLp.toLp 2 (fun i => t * m * g i) = (t * m) • WithLp.toLp 2 g := rfl
  rw [residual_eq_norm_point, residual_eq_norm_point, image_scaled, point_stretch, WithLp.ofLp_smul,
    map_smul, smul_smul, hg, ← smul_sub, norm_smul, Real.norm_of_nonneg (mul_pos ht hm).le]

theorem ShortestAt.scaled (h : ShortestAt H g y) (ht : 0 < t) (hm : 0 < m) :
    ShortestAt (fun i j => t * H i j) (fun i => t * m * g i) (stretch m y) where
  minimises z := by
    rw [← stretch_inv hm z, residual_stretch ht hm, residual_stretch ht hm]
    exact mul_le_mul_of_nonneg_left (h.minimises _) (mul_pos ht hm).le
  shortest z hz := by
    rw [← stretch_inv hm z, residual_stretch ht hm, residual_stretch ht hm] at hz
    have hlength := h.shortest _ (le_of_mul_le_mul_left hz (mul_pos ht hm))
    rw [← stretch_inv hm z, point_stretch, point_stretch, norm_smul, norm_smul]
    exact mul_le_mul_of_nonneg_left hlength (norm_nonneg m)

theorem Shortest.scaled {lsq : LeastSquares ℝ} (hlsq : lsq.Shortest) (ht : 0 < t) (hm : 0 < m)
    (H : Fin (k + 1) → Fin k → ℝ) (g : Fin (k + 1) → ℝ) :
    lsq k (fun i j => t * H i j) (fun i => t * m * g i) = stretch m (lsq k H g) :=
  (hlsq k _ _).unique ((hlsq k H g).scaled ht hm)

/-! ## Existence -/

theorem exists_shortestAt (H : Fin (k + 1) → Fin k → ℝ) (g : Fin (k + 1) → ℝ) :
    ∃ y, ShortestAt H g y := by
  obtain ⟨y₀, hy₀⟩ := exists_minimiser H g
  let least : Set (EuclideanSpace ℝ (Fin k)) :=
    {u | ‖image H u.ofLp - WithLp.toLp 2 g‖ ≤ residual H g y₀}
  have hmem : ∀ y : Vector ℝ k, point y ∈ least ↔ residual H g y ≤ residual H g y₀ := by
    intro y
    rw [residual_eq_norm_point H g y]
    rfl
  have hcontinuous : Continuous fun u : EuclideanSpace ℝ (Fin k) => image H u.ofLp :=
    (image H).continuous_of_finiteDimensional.comp (PiLp.continuous_ofLp 2 _)
  have hclosed : IsClosed least :=
    isClosed_le (hcontinuous.sub continuous_const).norm continuous_const
  -- a closed set has a point that is nearest to zero
  obtain ⟨u, hu, hnearest⟩ := hclosed.exists_infDist_eq_dist ⟨point y₀, (hmem y₀).mpr le_rfl⟩ 0
  rw [← point_ofFn u, hmem] at hu
  refine ⟨Vector.ofFn u.ofLp, fun z => hu.trans (hy₀ z), fun z hz => ?_⟩
  have hle := Metric.infDist_le_dist_of_mem (x := 0) ((hmem z).mpr (hz.trans hu))
  rwa [hnearest, dist_zero_left, dist_zero_left, ← point_ofFn u] at hle

/-- A least-squares solver of minimal norm. -/
noncomputable def shortest : LeastSquares ℝ := fun _ H g => (exists_shortestAt H g).choose

theorem shortest_spec : shortest.Shortest := fun _ H g => (exists_shortestAt H g).choose_spec

end LeastSquares

end NewtonKrylov
