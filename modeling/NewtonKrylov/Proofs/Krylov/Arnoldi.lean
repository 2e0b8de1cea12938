import Mathlib.Data.List.GetD
import NewtonKrylov.Proofs.Exact
import NewtonKrylov.Proofs.Krylov.Values

/-!
# The Arnoldi relation

What a cycle builds in exact arithmetic, for a linear operator `L`. `Arnoldi` is the invariant of the
inner steps: the basis is orthonormal, and `L` maps each basis vector to the combination of basis
vectors whose coefficients are a column of the Hessenberg matrix. So the residual of a combination of
basis vectors has the length of the residual of the small least-squares problem
(`Built.norm_residual`). This holds in the middle of a cycle and also at its end, when the last
application may leave the space without giving it another basis vector.
-/

namespace NewtonKrylov

open scoped InnerProductSpace

variable {V E : Type} [NormedAddCommGroup E] [InnerProductSpace ℝ E]

theorem getD_mem [Inhabited V] {vs : List V} {i : Nat} (h : i < vs.length) :
    vs.getD i default ∈ vs := by
  rw [List.getD_eq_getElem _ _ h]
  exact List.getElem_mem h

/-! ## Orthonormal lists -/

/-- The vectors are orthogonal to one another and have length one. -/
structure Orthonormals (e : V → E) (vs : List V) : Prop where
  pairwise : vs.Pairwise fun u v => ⟪e u, e v⟫_ℝ = 0
  unit : ∀ v ∈ vs, ‖e v‖ = 1

namespace Orthonormals

variable {e : V → E} {vs : List V}

theorem singleton {v : V} (h : ‖e v‖ = 1) : Orthonormals e [v] :=
  ⟨List.pairwise_singleton _ _, fun _ hu => List.mem_singleton.mp hu ▸ h⟩

theorem append (h : Orthonormals e vs) {v : V} (hunit : ‖e v‖ = 1)
    (horth : ∀ u ∈ vs, ⟪e u, e v⟫_ℝ = 0) : Orthonormals e (vs ++ [v]) where
  pairwise := by
    refine List.pairwise_append.mpr ⟨h.pairwise, List.pairwise_singleton _ _, ?_⟩
    intro u hu v' hv'
    obtain rfl := List.mem_singleton.mp hv'
    exact horth u hu
  unit := by
    intro u hu
    rcases List.mem_append.mp hu with hu | hu
    · exact h.unit u hu
    · exact List.mem_singleton.mp hu ▸ hunit

theorem sublist {us : List V} (h : Orthonormals e vs) (hus : us.Sublist vs) : Orthonormals e us :=
  ⟨h.pairwise.sublist hus, fun v hv => h.unit v (hus.mem hv)⟩

theorem orthonormal (h : Orthonormals e vs) : Orthonormal ℝ fun i : Fin vs.length => e vs[i] := by
  refine ⟨fun i => h.unit _ (List.getElem_mem _), ?_⟩
  intro i j hij
  rcases Nat.lt_or_gt_of_ne (Fin.val_ne_of_ne hij) with hlt | hlt
  · exact List.pairwise_iff_getElem.mp h.pairwise i j i.2 j.2 hlt
  · rw [real_inner_comm]
    exact List.pairwise_iff_getElem.mp h.pairwise j i j.2 i.2 hlt

theorem norm_sq_sum_add [Inhabited V] (h : Orthonormals e vs) (c : Nat → ℝ) {q : E}
    (hq : ∀ v ∈ vs, ⟪e v, q⟫_ℝ = 0) (t : ℝ) :
    ‖∑ i ∈ Finset.range vs.length, c i • e (vs.getD i default) + t • q‖ ^ 2 =
      ∑ i ∈ Finset.range vs.length, c i ^ 2 + t ^ 2 * ‖q‖ ^ 2 := by
  have hsum : ∑ i ∈ Finset.range vs.length, c i • e (vs.getD i default) =
      ∑ i : Fin vs.length, c i • e vs[i] := by
    rw [Finset.sum_range]
    apply Finset.sum_congr rfl
    intro i _
    simp
  have horth : ⟪∑ i : Fin vs.length, c i • e vs[i], t • q⟫_ℝ = 0 := by
    rw [sum_inner]
    apply Finset.sum_eq_zero
    intro i _
    have hi : ⟪e vs[i], q⟫_ℝ = 0 := hq vs[i] (List.getElem_mem i.2)
    rw [real_inner_smul_left, real_inner_smul_right, hi, mul_zero, mul_zero]
  rw [hsum, norm_add_sq_real, horth, norm_smul, mul_pow, Real.norm_eq_abs, sq_abs, mul_zero, add_zero,
    ← real_inner_self_eq_norm_sq, h.orthonormal.inner_sum, Finset.sum_range]
  congr 1
  apply Finset.sum_congr rfl
  intro i _
  simp [sq]

end Orthonormals

theorem Scalar.reciprocal_real {R : Type} {x : ℝ} (h : x ≠ 0) :
    Scalar.reciprocal x = (.ok (1 / x) : Except (Fault R) ℝ) := by
  rw [reciprocal, if_neg (by simpa using h), Scalar.ofNat_real, Nat.cast_one]

namespace Gmres

variable {K : Backend ℝ V} {e : V → E}

/-! ## Vector loops -/

section Loops

theorem project_length (u : V) (vs : List V) : (project K u vs).2.length = vs.length := by
  induction vs generalizing u with
  | nil => rfl
  | cons v vs ih => simp [project, ih]

variable (hK : K.Exact e)
include hK

/-- Taking out components along `vs` does not change those along what is orthogonal to `vs`. -/
theorem project_inner (u : V) {vs : List V} {z : E} (hz : ∀ v ∈ vs, ⟪e v, z⟫_ℝ = 0) :
    ⟪e (project K u vs).1, z⟫_ℝ = ⟪e u, z⟫_ℝ := by
  induction vs generalizing u with
  | nil => rfl
  | cons v vs ih =>
    have hv : ⟪e v, z⟫_ℝ = 0 := hz v List.mem_cons_self
    rw [project, ih _ fun v hv => hz v (List.mem_cons_of_mem _ hv), hK.addScaledWide_eq,
      inner_add_left, real_inner_smul_left, hv, mul_zero, add_zero]

theorem project_orthogonal (u : V) {vs : List V} (h : Orthonormals e vs) :
    ∀ v ∈ vs, ⟪e v, e (project K u vs).1⟫_ℝ = 0 := by
  induction vs generalizing u with
  | nil => simp
  | cons v vs ih =>
    have htail := List.pairwise_cons.mp h.pairwise
    intro v' hv'
    rcases List.mem_cons.mp hv' with rfl | hv'
    · rw [project, real_inner_comm, project_inner hK]
      · rw [hK.addScaledWide_eq, inner_add_left, real_inner_smul_left, real_inner_self_eq_norm_sq,
          h.unit _ List.mem_cons_self, hK.dot_eq]
        ring
      · intro v hv
        rw [real_inner_comm]
        exact htail.1 v hv
    · exact ih _ (h.sublist (List.sublist_cons_self v vs)) v' hv'

variable [Inhabited V]

theorem project_sum (u : V) (vs : List V) :
    e u = ∑ i ∈ Finset.range vs.length, (project K u vs).2.getD i 0 • e (vs.getD i default) +
      e (project K u vs).1 := by
  induction vs generalizing u with
  | nil => simp [project]
  | cons v vs ih =>
    have hstep := ih (K.addScaledWide u v (-K.dot u v))
    rw [hK.addScaledWide_eq] at hstep
    simp only [project, List.length_cons, Finset.sum_range_succ', List.getD_cons_succ,
      List.getD_cons_zero]
    rw [add_right_comm, ← hstep]
    simp

theorem project_mem (u : V) {vs : List V} {W : Submodule ℝ E} (hu : e u ∈ W)
    (hvs : ∀ v ∈ vs, e v ∈ W) : e (project K u vs).1 ∈ W := by
  rw [← sub_eq_iff_eq_add'.mpr (project_sum hK u vs)]
  refine W.sub_mem hu (W.sum_mem fun i hi => W.smul_mem _ (hvs _ ?_))
  exact getD_mem (Finset.mem_range.mp hi)

theorem project_direction (u : V) {vs : List V} (h : Orthonormals e vs) {W : Submodule ℝ E}
    (hu : e u ∈ W) (hvs : ∀ v ∈ vs, e v ∈ W) :
    ∃ q, e (project K u vs).1 = K.length (project K u vs).1 • q ∧
      (‖q‖ = 1 ∨ K.length (project K u vs).1 = 0) ∧ (∀ v ∈ vs, ⟪e v, q⟫_ℝ = 0) ∧ q ∈ W ∧
      e (K.scale (project K u vs).1 (1 / K.length (project K u vs).1)) = q := by
  have hlength := hK.length_eq (project K u vs).1
  have hrest := project_mem hK u hu hvs
  refine ⟨(K.length (project K u vs).1)⁻¹ • e (project K u vs).1, ?_, ?_, ?_, W.smul_mem _ hrest, ?_⟩
  · rcases eq_or_ne (K.length (project K u vs).1) 0 with hzero | hne
    · rw [hzero, zero_smul]
      exact norm_eq_zero.mp (hlength ▸ hzero)
    · rw [smul_inv_smul₀ hne]
  · refine or_iff_not_imp_right.mpr fun hne => ?_
    rw [norm_smul, norm_inv, hlength, norm_norm, ← hlength]
    exact inv_mul_cancel₀ hne
  · intro v hv
    rw [real_inner_smul_right, project_orthogonal hK u h v hv, mul_zero]
  · rw [hK.scale_eq, one_div]

theorem combination_sum (x : V) {vs : List V} {ys : List ℝ} (h : ys.length ≤ vs.length) :
    e (combination K x vs ys) =
      e x + ∑ i ∈ Finset.range ys.length, ys.getD i 0 • e (vs.getD i default) := by
  induction vs generalizing x ys with
  | nil =>
    obtain rfl : ys = [] := List.length_eq_zero_iff.mp (Nat.le_zero.mp h)
    simp [combination]
  | cons v vs ih =>
    cases ys with
    | nil => simp [combination]
    | cons y ys =>
      rw [combination, ih _ (Nat.le_of_succ_le_succ h), hK.addScaled_eq, List.length_cons,
        Finset.sum_range_succ']
      simp only [List.getD_cons_succ, List.getD_cons_zero]
      rw [add_assoc, add_comm (y • e v)]

end Loops

/-! ## Columns -/

/-- An entry of the Hessenberg matrix with the given columns. -/
def entry (columns : Array (Array ℝ)) (i j : Nat) : ℝ := (columns.getD j #[]).getD i 0

theorem hessenberg_eq (columns : Array (Array ℝ)) (i : Fin (columns.size + 1))
    (j : Fin columns.size) : hessenberg columns i j = entry columns i j := by
  simp [hessenberg, entry]

theorem entry_push_of_lt (columns : Array (Array ℝ)) (column : Array ℝ) (i : Nat) {j : Nat}
    (hj : j < columns.size) : entry (columns.push column) i j = entry columns i j := by
  simp [entry, Array.getD_getElem?, Array.getElem?_push, hj.ne]

theorem entry_push_self (columns : Array (Array ℝ)) (column : Array ℝ) (i : Nat) :
    entry (columns.push column) i columns.size = column.getD i 0 := by
  simp [entry]

/-- The cycle after an application to `v`, with the column that it gives. -/
noncomputable def extended (K : Backend ℝ V) (a : V → V) (lsq : LeastSquares ℝ) (beta delta : ℝ)
    (c : Cycle V ℝ) (v : V) : Cycle V ℝ :=
  let rest := project K (a v) c.basis
  let c := Cycle.withColumn lsq beta { c with spent := c.spent + 1 } (rest.2 ++ [K.length rest.1])
  { c with brokeDown := Scalar.le (K.length rest.1) (delta * K.length (a v)) }

theorem extended_size (K : Backend ℝ V) (a : V → V) (lsq : LeastSquares ℝ) (beta delta : ℝ)
    (c : Cycle V ℝ) (v : V) :
    (extended K a lsq beta delta c v).columns.size = c.columns.size + 1 :=
  Array.size_push _

theorem extended_entry {a : V → V} {lsq : LeastSquares ℝ} {beta delta : ℝ} {c : Cycle V ℝ} {v : V}
    (i j : Nat) : entry (extended K a lsq beta delta c v).columns i j =
    if j = c.columns.size then
      ((project K (a v) c.basis).2 ++ [K.length (project K (a v) c.basis).1]).getD i 0
    else entry c.columns i j := by
  split
  · rename_i hj
    subst hj
    refine (entry_push_self _ _ i).trans ?_
    simp
  · rename_i hj
    rcases Nat.lt_or_gt_of_ne hj with hlt | hgt
    · exact entry_push_of_lt _ _ _ hlt
    · have hext : (extended K a lsq beta delta c v).columns.size ≤ j := by
        rw [extended_size]
        omega
      simp [entry, hext, hgt.le]

/-! ## What a cycle has built -/

variable [Inhabited V] (e : V → E) (L : E →ₗ[ℝ] E) (W : Submodule ℝ E) (r : E) (beta : ℝ)

/-- Between the steps of a cycle that started from the residual `r` of length `beta`. All basis vectors
are in `W`. -/
structure Arnoldi (c : Cycle V ℝ) : Prop where
  length_eq : c.basis.length = c.columns.size + 1
  orthonormal : Orthonormals e c.basis
  start : r = beta • e (c.basis.getD 0 default)
  relation : ∀ j < c.columns.size, L (e (c.basis.getD j default)) =
    ∑ i ∈ Finset.range (c.columns.size + 1), entry c.columns i j • e (c.basis.getD i default)
  upper : ∀ i j, j + 2 ≤ i → entry c.columns i j = 0
  mem : ∀ v ∈ c.basis, e v ∈ W

/-- A cycle with columns. The basis vectors `vs` go with them, and `L` leaves their span along `q` at
most, which is no vector at all if nothing leaves it. -/
structure Built (c : Cycle V ℝ) (vs : List V) (q : E) : Prop where
  pos : 0 < c.columns.size
  length_eq : vs.length = c.columns.size
  initial : vs <+: c.basis
  orthonormal : Orthonormals e vs
  start : r = beta • e (vs.getD 0 default)
  relation : ∀ j < c.columns.size, L (e (vs.getD j default)) =
    ∑ i ∈ Finset.range c.columns.size, entry c.columns i j • e (vs.getD i default) +
      entry c.columns c.columns.size j • q
  orthogonal : ∀ v ∈ vs, ⟪e v, q⟫_ℝ = 0
  unit : ‖q‖ = 1 ∨ ∀ j < c.columns.size, entry c.columns c.columns.size j = 0
  mem : ∀ v ∈ vs, e v ∈ W

variable {e L W r beta} {c : Cycle V ℝ} {vs : List V} {q : E}

/-- The coefficient of a basis vector, or of `q`, in the image of a combination. -/
def imageAt (columns : Array (Array ℝ)) (y : List ℝ) (i : Nat) : ℝ :=
  ∑ j ∈ Finset.range columns.size, entry columns i j * y.getD j 0

theorem Built.image_eq (h : Built e L W r beta c vs q) (y : List ℝ) :
    L (∑ j ∈ Finset.range c.columns.size, y.getD j 0 • e (vs.getD j default)) =
      ∑ i ∈ Finset.range c.columns.size, imageAt c.columns y i • e (vs.getD i default) +
        imageAt c.columns y c.columns.size • q := by
  have hterm : ∀ j ∈ Finset.range c.columns.size, y.getD j 0 • L (e (vs.getD j default)) =
      ∑ i ∈ Finset.range c.columns.size, (entry c.columns i j * y.getD j 0) • e (vs.getD i default) +
        (entry c.columns c.columns.size j * y.getD j 0) • q := by
    intro j hj
    rw [h.relation j (Finset.mem_range.mp hj), smul_add, Finset.smul_sum]
    simp only [smul_smul, mul_comm]
  rw [map_sum]
  simp only [map_smul]
  rw [Finset.sum_congr rfl hterm, Finset.sum_add_distrib, Finset.sum_comm]
  simp only [imageAt, Finset.sum_smul]

theorem Built.start_eq (h : Built e L W r beta c vs q) :
    r = ∑ i ∈ Finset.range c.columns.size, (if i = 0 then beta else 0) • e (vs.getD i default) := by
  rw [Finset.sum_eq_single_of_mem 0 (Finset.mem_range.mpr h.pos)]
  · simpa using h.start
  · intro i _ hi
    simp [hi]

/-- The small least-squares problem knows the residual that a combination leaves. -/
theorem Built.norm_residual (h : Built e L W r beta c vs q) (y : Vector ℝ c.columns.size) :
    ‖r - L (∑ j ∈ Finset.range c.columns.size, y.toList.getD j 0 • e (vs.getD j default))‖ =
      LeastSquares.residual (hessenberg c.columns) (firstUnit beta) y := by
  have hsplit : r - L (∑ j ∈ Finset.range c.columns.size, y.toList.getD j 0 • e (vs.getD j default)) =
      ∑ i ∈ Finset.range vs.length,
        ((if i = 0 then beta else 0) - imageAt c.columns y.toList i) • e (vs.getD i default) +
          (-imageAt c.columns y.toList c.columns.size) • q := by
    rw [h.image_eq, h.length_eq]
    nth_rewrite 1 [h.start_eq]
    simp only [sub_smul, Finset.sum_sub_distrib, neg_smul]
    abel
  have hlast : imageAt c.columns y.toList c.columns.size ^ 2 * ‖q‖ ^ 2 =
      imageAt c.columns y.toList c.columns.size ^ 2 := by
    rcases h.unit with hunit | hzero
    · rw [hunit, one_pow, mul_one]
    · have himage : imageAt c.columns y.toList c.columns.size = 0 := by
        apply Finset.sum_eq_zero
        intro j hj
        rw [hzero j (Finset.mem_range.mp hj), zero_mul]
      rw [himage]
      ring
  have hget : ∀ i : Fin (c.columns.size + 1),
      ∑ j, hessenberg c.columns i j * y.get j = imageAt c.columns y.toList i := by
    intro i
    rw [imageAt, Finset.sum_range]
    apply Finset.sum_congr rfl
    intro j _
    have hentry : y.get j = y.toList.getD j 0 := by
      simp
      rfl
    rw [hessenberg_eq, hentry]
  have hsquare : ∑ i, (∑ j, hessenberg c.columns i j * y.get j - firstUnit beta i) ^ 2 =
      ‖r - L (∑ j ∈ Finset.range c.columns.size, y.toList.getD j 0 • e (vs.getD j default))‖ ^ 2 := by
    rw [hsplit, h.orthonormal.norm_sq_sum_add _ h.orthogonal, neg_sq, hlast, h.length_eq,
      Fin.sum_univ_castSucc, Finset.sum_range]
    simp only [hget, firstUnit, Fin.val_castSucc, Fin.val_last, Scalar.ofNat_real, Nat.cast_zero,
      if_neg h.pos.ne', sub_zero]
    congr 1
    apply Finset.sum_congr rfl
    intro i _
    exact sub_sq_comm _ _
  rw [LeastSquares.residual_real, hsquare, Real.sqrt_sq (norm_nonneg _)]

/-- In the middle of a cycle the last basis vector is the one that `L` leaves the others along. -/
theorem Arnoldi.built (h : Arnoldi e L W r beta c) (hpos : 0 < c.columns.size) :
    Built e L W r beta c (c.basis.take c.columns.size) (e (c.basis.getD c.columns.size default)) := by
  have hlength := h.length_eq
  have htake : ∀ i < c.columns.size,
      (c.basis.take c.columns.size).getD i default = c.basis.getD i default := fun i hi => by
    simp [List.getD_eq_getElem?_getD, hi]
  have hlast : c.basis.getD c.columns.size default ∈ c.basis := getD_mem (by omega)
  refine ⟨hpos, ?_, List.take_prefix _ _, h.orthonormal.sublist (List.take_sublist _ _), ?_, ?_, ?_,
    .inl (h.orthonormal.unit _ hlast), fun v hv => h.mem v (List.mem_of_mem_take hv)⟩
  · rw [List.length_take]
    omega
  · rw [htake 0 hpos]
    exact h.start
  · intro j hj
    rw [htake j hj, h.relation j hj, Finset.sum_range_succ]
    congr 1
    apply Finset.sum_congr rfl
    intro i hi
    rw [htake i (Finset.mem_range.mp hi)]
  · intro v hv
    obtain ⟨i, hi, rfl⟩ := List.mem_take_iff_getElem.mp hv
    rw [List.getD_eq_getElem _ _ (by omega)]
    exact List.pairwise_iff_getElem.mp h.orthonormal.pairwise i _ (by omega) (by omega) (by omega)

theorem Arnoldi.first (hK : K.Exact e) {u : V} (hu : K.length u ≠ 0) (hmem : e u ∈ W) (spent : Nat) :
    Arnoldi e L W (e u) (K.length u)
      (Cycle.start (K.scale u (1 / K.length u)) (K.length u) spent) := by
  have hscale : e (K.scale u (1 / K.length u)) = (K.length u)⁻¹ • e u := by
    rw [hK.scale_eq, one_div]
  have hunit : ‖e (K.scale u (1 / K.length u))‖ = 1 := by
    rw [hscale, norm_smul, norm_inv, hK.length_eq, norm_norm, ← hK.length_eq]
    exact inv_mul_cancel₀ hu
  refine ⟨rfl, .singleton hunit, ?_, ?_, ?_, ?_⟩
  · show e u = K.length u • e (K.scale u (1 / K.length u))
    rw [hscale, smul_inv_smul₀ hu]
  · intro j hj
    exact absurd hj (Nat.not_lt_zero j)
  · intro i j _
    simp [entry, Cycle.start]
  · intro v hv
    rw [List.mem_singleton.mp hv, hscale]
    exact W.smul_mem _ hmem

/-! ## One step -/

section Step

variable {a : V → V} {lsq : LeastSquares ℝ} {delta : ℝ} {v : V}

/-- Below the square part, the matrix of a step has only the length of what is left. -/
theorem Arnoldi.extended_last (h : Arnoldi e L W r beta c) (K : Backend ℝ V) (a : V → V)
    (lsq : LeastSquares ℝ) (delta : ℝ) (v : V) (j : Nat) (hj : j < c.columns.size + 1) :
    entry (extended K a lsq beta delta c v).columns (c.columns.size + 1) j =
      if j = c.columns.size then K.length (project K (a v) c.basis).1 else 0 := by
  have hplen := project_length (K := K) (a v) c.basis
  rw [h.length_eq] at hplen
  rw [extended_entry]
  split
  · rw [List.getD_append_right _ _ _ _ (by omega), hplen, Nat.sub_self]
    rfl
  · exact h.upper _ j (by omega)

theorem Arnoldi.extend (h : Arnoldi e L W r beta c) (hK : K.Exact e) (hL : ∀ v, e (a v) = L (e v))
    (hv : v = c.basis.getD c.columns.size default) {q : E}
    (hq : e (project K (a v) c.basis).1 = K.length (project K (a v) c.basis).1 • q)
    (hunit : ‖q‖ = 1 ∨ K.length (project K (a v) c.basis).1 = 0)
    (horth : ∀ u ∈ c.basis, ⟪e u, q⟫_ℝ = 0) (lsq : LeastSquares ℝ) (delta : ℝ) :
    Built e L W r beta (extended K a lsq beta delta c v) c.basis q := by
  have hsize := extended_size K a lsq beta delta c v
  have hplen := project_length (K := K) (a v) c.basis
  rw [h.length_eq] at hplen
  have hlast := h.extended_last K a lsq delta v
  refine ⟨?_, ?_, List.prefix_refl _, h.orthonormal, h.start, ?_, horth, ?_, h.mem⟩
  · rw [hsize]
    exact Nat.succ_pos _
  · rw [hsize, h.length_eq]
  · rw [hsize]
    intro j hj
    rw [hlast j hj]
    rcases Nat.lt_succ_iff_lt_or_eq.mp hj with hlt | rfl
    · -- an old column, which the step leaves as it is
      rw [if_neg hlt.ne, zero_smul, add_zero, h.relation j hlt]
      apply Finset.sum_congr rfl
      intro i _
      rw [extended_entry, if_neg hlt.ne]
    · -- the new column, which holds the components of the image
      rw [if_pos rfl, ← hv, ← hL, project_sum hK (a v) c.basis, h.length_eq, hq]
      congr 1
      apply Finset.sum_congr rfl
      intro i hi
      have hi := Finset.mem_range.mp hi
      rw [extended_entry, if_pos rfl, List.getD_append _ _ _ _ (by omega)]
  · rw [hsize]
    refine hunit.imp_right fun hnone j hj => ?_
    rw [hlast j hj, hnone, ite_self]

theorem Arnoldi.extended_upper (h : Arnoldi e L W r beta c) (i j : Nat) (hij : j + 2 ≤ i) :
    entry (extended K a lsq beta delta c v).columns i j = 0 := by
  have hplen := project_length (K := K) (a v) c.basis
  rw [h.length_eq] at hplen
  rw [extended_entry]
  split
  · rename_i hj
    subst hj
    refine List.getD_eq_default _ _ ?_
    rw [List.length_append, List.length_singleton]
    omega
  · exact h.upper i j hij

theorem Built.grow (h : Built e L W r beta c c.basis q)
    (hupper : ∀ i j, j + 2 ≤ i → entry c.columns i j = 0) (next : V) (hnext : e next = q)
    (hunit : ‖q‖ = 1) (hmem : q ∈ W) :
    Arnoldi e L W r beta { c with basis := c.basis ++ [next] } where
  length_eq := by
    rw [List.length_append, List.length_singleton, h.length_eq]
  orthonormal := h.orthonormal.append (hnext ▸ hunit) fun u hu => hnext ▸ h.orthogonal u hu
  start := by
    rw [List.getD_append _ _ _ _ (h.length_eq ▸ h.pos)]
    exact h.start
  relation := by
    intro j hj
    have hlast : (c.basis ++ [next]).getD c.columns.size default = next := by
      rw [List.getD_append_right _ _ _ _ h.length_eq.le, h.length_eq, Nat.sub_self]
      rfl
    rw [List.getD_append _ _ _ _ (h.length_eq ▸ hj), h.relation j hj, Finset.sum_range_succ, hlast,
      hnext]
    congr 1
    apply Finset.sum_congr rfl
    intro i hi
    rw [List.getD_append _ _ _ _ (h.length_eq ▸ Finset.mem_range.mp hi)]
  upper := hupper
  mem := by
    intro u hu
    rcases List.mem_append.mp hu with hu | hu
    · exact h.mem u hu
    · rw [List.mem_singleton.mp hu, hnext]
      exact hmem

/-- The coefficients and the residual of a cycle are those of its small least-squares problem. -/
structure Solved (lsq : LeastSquares ℝ) (beta : ℝ) (c : Cycle V ℝ) : Prop where
  coefficients_eq : c.coefficients =
    (lsq c.columns.size (hessenberg c.columns) (firstUnit beta)).toList
  residual_eq : c.residual = LeastSquares.residual (hessenberg c.columns) (firstUnit beta)
    (lsq c.columns.size (hessenberg c.columns) (firstUnit beta))

/-- A cycle that its last step has ended: the residual is small enough, or the space has broken down,
which with no tolerance for it means that nothing leaves the space. -/
def Ended (e : V → E) (L : E →ₗ[ℝ] E) (W : Submodule ℝ E) (r : E) (beta target delta : ℝ)
    (c : Cycle V ℝ) : Prop :=
  ∃ vs q, Built e L W r beta c vs q ∧ (c.residual ≤ target ∨
    c.brokeDown = true ∧ (delta = 0 → ∀ j < c.columns.size, entry c.columns c.columns.size j = 0))

/-- A pure operator that keeps a trace of its arguments. -/
def traced {R : Type} (a : V → V) (v : V) : Collab R (List V) V := fun trace =>
  .ok (a v) (trace ++ [v])

omit [Inhabited V] in
theorem advance_run {R : Type} {g : Gmres ℝ R} (hdelta : g.breakdownTol = .ok delta) (target : ℝ)
    (trace : List V) :
    advance g lsq K (traced a) beta target v c trace =
      let c' := extended K a lsq beta delta c v
      (if Scalar.le c'.residual target || c'.brokeDown then pure (c', none)
      else do
        let d ← LineSearch.orFail (Scalar.reciprocal (K.length (project K (a v) c.basis).1))
        let next := K.scale (project K (a v) c.basis).1 d
        pure ({ c' with basis := c'.basis ++ [next] }, some next) :
        Collab R (List V) (Cycle V ℝ × Option V)) (trace ++ [v]) := by
  unfold advance
  rw [bind_run_ok (show traced a v trace = .ok (a v) (trace ++ [v]) from rfl)]
  simp only [Scalar.isFinite_real, Bool.not_true, hdelta]
  rfl

end Step

/-! ## Runs of steps -/

/-- What a cycle has come to after applications to `vs`. -/
structure Advanced {R : Type} (g : Gmres ℝ R) (lsq : LeastSquares ℝ) (e : V → E) (L : E →ₗ[ℝ] E)
    (W : Submodule ℝ E) (r : E) (beta target delta : ℝ) (count : Nat) (c : Cycle V ℝ) (vs : List V)
    (c' : Cycle V ℝ) : Prop where
  spent_eq : c'.spent = c.spent + vs.length
  size_eq : c'.columns.size = c.columns.size + vs.length
  solved : 0 < c'.columns.size → Solved lsq beta c'
  outcome : Arnoldi e L W r beta c' ∧ (vs.length = count ∨ g.maxiter ≤ c'.spent) ∨
    Ended e L W r beta target delta c'

section Cycle

variable {R : Type} {g : Gmres ℝ R} (lsq : LeastSquares ℝ) {a : V → V} {delta : ℝ}
variable (hdelta : g.breakdownTol = .ok delta) (hnonneg : 0 ≤ delta) (hK : K.Exact e)
  (hL : ∀ v, e (a v) = L (e v)) (hW : ∀ x, L x ∈ W)
include hdelta hnonneg hK hL hW

omit hnonneg in
theorem advance_grows {v : V} (h : Arnoldi e L W r beta c)
    (hv : v = c.basis.getD c.columns.size default) (target : ℝ) (trace : List V)
    (hgo : ¬(Scalar.le (extended K a lsq beta delta c v).residual target ||
      (extended K a lsq beta delta c v).brokeDown) = true)
    (hne : K.length (project K (a v) c.basis).1 ≠ 0) :
    ∃ c' v', advance g lsq K (traced a) beta target v c trace = .ok (c', some v') (trace ++ [v]) ∧
      c'.spent = c.spent + 1 ∧ c'.columns.size = c.columns.size + 1 ∧ Solved lsq beta c' ∧
      v' = c'.basis.getD c'.columns.size default ∧ Arnoldi e L W r beta c' := by
  have hsize := extended_size K a lsq beta delta c v
  obtain ⟨q, hq, hunit, horth, hqW, hscale⟩ :=
    project_direction hK (a v) h.orthonormal (hL v ▸ hW (e v)) h.mem
  have hbuilt := h.extend hK hL hv hq hunit horth lsq delta
  obtain ⟨next, hnext⟩ : ∃ next,
      next = K.scale (project K (a v) c.basis).1 (1 / K.length (project K (a v) c.basis).1) :=
    ⟨_, rfl⟩
  have hgrown := hbuilt.grow h.extended_upper next (hnext ▸ hscale)
    (hunit.resolve_right hne) hqW
  refine ⟨{ extended K a lsq beta delta c v with basis := c.basis ++ [next] }, next,
    ?_, rfl, hsize, ⟨rfl, rfl⟩, ?_, hgrown⟩
  · rw [advance_run hdelta]
    simp only [hgo, Scalar.reciprocal_real hne, hnext]
    rfl
  · rw [List.getD_append_right _ _ _ _ (h.length_eq.trans hsize.symm).le, h.length_eq, hsize,
      Nat.sub_self]
    rfl

/-- One step in exact arithmetic: the space has a further vector, or the cycle has ended. -/
theorem advance_spec {v : V} (h : Arnoldi e L W r beta c)
    (hv : v = c.basis.getD c.columns.size default) (target : ℝ) (trace : List V) :
    ∃ c' next, advance g lsq K (traced a) beta target v c trace = .ok (c', next) (trace ++ [v]) ∧
      c'.spent = c.spent + 1 ∧ c'.columns.size = c.columns.size + 1 ∧ Solved lsq beta c' ∧
      ((∃ v', next = some v' ∧ v' = c'.basis.getD c'.columns.size default ∧
          Arnoldi e L W r beta c') ∨
        (next = none ∧ Ended e L W r beta target delta c')) := by
  have hsize := extended_size K a lsq beta delta c v
  by_cases hstop : (Scalar.le (extended K a lsq beta delta c v).residual target ||
      (extended K a lsq beta delta c v).brokeDown) = true
  · obtain ⟨q, hq, hunit, horth, -, -⟩ :=
      project_direction hK (a v) h.orthonormal (hL v ▸ hW (e v)) h.mem
    refine ⟨extended K a lsq beta delta c v, none, ?_, rfl, hsize, ⟨rfl, rfl⟩,
      .inr ⟨rfl, _, q, h.extend hK hL hv hq hunit horth lsq delta, ?_⟩⟩
    · rw [advance_run hdelta]
      simp only [hstop]
      rfl
    · rcases Bool.or_eq_true _ _ ▸ hstop with hsmall | hbroke
      · exact .inl (Scalar.le_real _ _ |>.mp hsmall)
      · refine .inr ⟨hbroke, ?_⟩
        intro hzero j hj
        have hle := (Scalar.le_real _ _).mp hbroke
        rw [hzero, zero_mul, hK.length_eq] at hle
        rw [hsize] at hj ⊢
        rw [h.extended_last K a lsq delta v j hj, hK.length_eq,
          le_antisymm hle (norm_nonneg _), ite_self]
  · have hne : K.length (project K (a v) c.basis).1 ≠ 0 := by
      intro hzero
      apply hstop
      rw [Bool.or_eq_true]
      refine .inr ((Scalar.le_real _ _).mpr ?_)
      rw [hzero, hK.length_eq]
      positivity
    obtain ⟨c', v', hrun, hspent, hsize', hsolved, hv', harnoldi⟩ :=
      advance_grows lsq hdelta hK hL hW h hv target trace hstop hne
    exact ⟨c', some v', hrun, hspent, hsize', hsolved, .inl ⟨v', rfl, hv', harnoldi⟩⟩

theorem advances_spec (target : ℝ) (count : Nat) (v : V) (c : Cycle V ℝ) (h : Arnoldi e L W r beta c)
    (hv : v = c.basis.getD c.columns.size default) (hsolved : 0 < c.columns.size → Solved lsq beta c)
    (trace : List V) :
    ∃ c' vs, advances g lsq K (traced a) beta target count v c trace = .ok c' (trace ++ vs) ∧
      Advanced g lsq e L W r beta target delta count c vs c' := by
  induction count generalizing v c trace with
  | zero =>
    refine ⟨c, [], ?_, rfl, rfl, hsolved, .inl ⟨h, .inl rfl⟩⟩
    rw [List.append_nil]
    rfl
  | succ count ih =>
    rw [advances]
    by_cases hbudget : c.spent < g.maxiter
    · obtain ⟨c₁, next, hrun, hspent, hsize, hsolved₁, hnext⟩ :=
        advance_spec lsq hdelta hnonneg hK hL hW h hv target trace
      rw [if_pos hbudget, bind_run_ok hrun]
      rcases hnext with ⟨v', rfl, hv', h₁⟩ | ⟨rfl, hended⟩
      · obtain ⟨c', vs, hrun', h'⟩ := ih v' c₁ h₁ hv' (fun _ => hsolved₁) (trace ++ [v])
        refine ⟨c', v :: vs, ?_, ?_, ?_, h'.solved, ?_⟩
        · simpa using hrun'
        · rw [h'.spent_eq, hspent, List.length_cons]
          omega
        · rw [h'.size_eq, hsize, List.length_cons]
          omega
        · refine h'.outcome.imp_left (And.imp_right (Or.imp_left fun hcount => ?_))
          rw [List.length_cons, hcount]
      · exact ⟨c₁, [v], rfl, hspent, hsize, fun _ => hsolved₁, .inr hended⟩
    · rw [if_neg hbudget]
      refine ⟨c, [], ?_, rfl, rfl, hsolved, .inl ⟨h, .inr (Nat.le_of_not_lt hbudget)⟩⟩
      rw [List.append_nil]
      rfl

omit [Inhabited V] hdelta hnonneg hK hL hW in
theorem cycleFrom_run {count : Nat} (hrestart : g.restart = .ok count) (target : ℝ) {u : V}
    (hu : K.length u ≠ 0) (spent : Nat) (trace : List V) :
    cycleFrom g lsq K (traced a) target (K.length u) u spent trace =
      advances g lsq K (traced a) (K.length u) target count (K.scale u (1 / K.length u))
        (Cycle.start (K.scale u (1 / K.length u)) (K.length u) spent) trace := by
  rw [cycleFrom, Scalar.reciprocal_real hu, hrestart]
  rfl

/-- A whole cycle from a residual that is not zero. -/
theorem cycleFrom_spec {count : Nat} (hrestart : g.restart = .ok count) (target : ℝ) {u : V}
    (hu : K.length u ≠ 0) (hmem : e u ∈ W) (spent : Nat) (trace : List V) :
    ∃ c vs, cycleFrom g lsq K (traced a) target (K.length u) u spent trace = .ok c (trace ++ vs) ∧
      Advanced g lsq e L W (e u) (K.length u) target delta count
        (Cycle.start (K.scale u (1 / K.length u)) (K.length u) spent) vs c := by
  rw [cycleFrom_run lsq hrestart target hu]
  exact advances_spec lsq hdelta hnonneg hK hL hW target count _ _ (.first hK hu hmem spent) rfl
    (fun hpos => absurd hpos (Nat.lt_irrefl 0)) trace

end Cycle

end Gmres

end NewtonKrylov
