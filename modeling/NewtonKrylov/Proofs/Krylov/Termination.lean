import Mathlib.LinearAlgebra.FiniteDimensional.Lemmas
import NewtonKrylov.Proofs.Krylov.Guarantee

/-!
# How soon a call is done

`Gmres.call_solves`: where the range and the kernel of the operator meet in zero only, a right-hand
side in the range is met within one cycle, after no more applications than the rank. All basis
vectors lie in the range (`W` of `Arnoldi`), so there is no room for more than the rank of them. The
steps end before that, and they end well: a space that nothing leaves is mapped onto itself, so it
holds the residual as an image (`Built.exists_residual_eq_zero`).
-/

namespace NewtonKrylov

open scoped InnerProductSpace

variable {V E : Type} [NormedAddCommGroup E] [InnerProductSpace ℝ E]

theorem Orthonormals.length_le_finrank {e : V → E} {vs : List V} (h : Orthonormals e vs)
    {W : Submodule ℝ E} [FiniteDimensional ℝ W] (hmem : ∀ v ∈ vs, e v ∈ W) :
    vs.length ≤ Module.finrank ℝ W := by
  let f : Fin vs.length → W := fun i => ⟨e vs[i], hmem _ (List.getElem_mem _)⟩
  have hf : LinearIndependent ℝ f :=
    LinearIndependent.of_comp W.subtype h.orthonormal.linearIndependent
  simpa using hf.fintype_card_le_finrank

/-- An operator that is symmetric (`t = 1`) or skew (`t = -1`) maps nothing in its range to zero. -/
theorem disjoint_range_ker {L : E →ₗ[ℝ] E} (t : ℝ) (h : ∀ x y, ⟪L x, y⟫_ℝ = t * ⟪x, L y⟫_ℝ) :
    Disjoint (LinearMap.range L) (LinearMap.ker L) := by
  rw [Submodule.disjoint_def]
  rintro _ ⟨x, rfl⟩ hker
  have hinner : ⟪L x, L x⟫_ℝ = 0 := by
    rw [h, LinearMap.mem_ker.mp hker, inner_zero_right, mul_zero]
  exact inner_self_eq_zero.mp hinner

namespace Gmres

variable [Inhabited V] {K : Backend ℝ V} {e : V → E} {L : E →ₗ[ℝ] E} {r : E} {beta : ℝ}
variable {c : Cycle V ℝ} {vs : List V} {q : E} {lsq : LeastSquares ℝ}

/-! ## Where nothing leaves the space -/

def space (e : V → E) (c : Cycle V ℝ) (vs : List V) : Submodule ℝ E :=
  Submodule.span ℝ (Set.range fun j : Fin c.columns.size => e (vs.getD j default))

theorem Built.space_le {W : Submodule ℝ E} (h : Built e L W r beta c vs q) : space e c vs ≤ W := by
  refine Submodule.span_le.mpr ?_
  rintro _ ⟨j, rfl⟩
  exact h.mem _ (getD_mem (j.2.trans_eq h.length_eq.symm))

variable {W : Submodule ℝ E}

theorem Built.mem_space (h : Built e L W r beta c vs q) : r ∈ space e c vs := by
  rw [h.start]
  exact Submodule.smul_mem _ _ (Submodule.subset_span ⟨⟨0, h.pos⟩, rfl⟩)

theorem Built.map_mem_space (h : Built e L W r beta c vs q)
    (hzero : ∀ j < c.columns.size, entry c.columns c.columns.size j = 0) :
    ∀ x ∈ space e c vs, L x ∈ space e c vs := by
  intro x hx
  suffices hle : space e c vs ≤ (space e c vs).comap L from hle hx
  refine Submodule.span_le.mpr ?_
  rintro _ ⟨j, rfl⟩
  show L (e (vs.getD j default)) ∈ space e c vs
  rw [h.relation j j.2, hzero j j.2, zero_smul, add_zero]
  refine Submodule.sum_mem _ fun i hi => Submodule.smul_mem _ _ ?_
  exact Submodule.subset_span ⟨⟨i, Finset.mem_range.mp hi⟩, rfl⟩

theorem Built.exists_image_eq (h : Built e L (LinearMap.range L) r beta c vs q)
    (hdisjoint : Disjoint (LinearMap.range L) (LinearMap.ker L))
    (hzero : ∀ j < c.columns.size, entry c.columns c.columns.size j = 0) :
    ∃ x ∈ space e c vs, L x = r := by
  have hmap := h.map_mem_space hzero
  have hfinite : FiniteDimensional ℝ (space e c vs) :=
    FiniteDimensional.span_of_finite ℝ (Set.finite_range _)
  have hinjective : Function.Injective (L.restrict hmap) := by
    refine LinearMap.ker_eq_bot.mp ((Submodule.eq_bot_iff _).mpr ?_)
    rintro ⟨x, hx⟩ hker
    have hLx : L x = 0 := congrArg Subtype.val (LinearMap.mem_ker.mp hker)
    exact Subtype.ext (Submodule.disjoint_def.mp hdisjoint x (h.space_le hx) hLx)
  obtain ⟨⟨x, hx⟩, hLx⟩ := LinearMap.injective_iff_surjective.mp hinjective ⟨r, h.mem_space⟩
  exact ⟨x, hx, congrArg Subtype.val hLx⟩

theorem exists_coefficients {x : E} (hx : x ∈ space e c vs) :
    ∃ y : Vector ℝ c.columns.size,
      ∑ j ∈ Finset.range c.columns.size, y.toList.getD j 0 • e (vs.getD j default) = x := by
  obtain ⟨y, hy⟩ := Submodule.mem_span_range_iff_exists_fun ℝ |>.mp hx
  refine ⟨Vector.ofFn y, ?_⟩
  rw [← hy, Finset.sum_range]
  apply Finset.sum_congr rfl
  intro j _
  simp [List.getD_eq_getElem?_getD]

theorem Built.exists_residual_eq_zero (h : Built e L (LinearMap.range L) r beta c vs q)
    (hdisjoint : Disjoint (LinearMap.range L) (LinearMap.ker L))
    (hzero : ∀ j < c.columns.size, entry c.columns c.columns.size j = 0) :
    ∃ y : Vector ℝ c.columns.size,
      LeastSquares.residual (hessenberg c.columns) (firstUnit beta) y = 0 := by
  obtain ⟨x, hx, hLx⟩ := h.exists_image_eq hdisjoint hzero
  obtain ⟨y, hsum⟩ := exists_coefficients hx
  refine ⟨y, ?_⟩
  rw [← h.norm_residual, hsum, hLx, sub_self, norm_zero]

theorem Built.residual_nonpos (h : Built e L (LinearMap.range L) r beta c vs q)
    (hsolved : Solved lsq beta c) (hlsq : lsq.Minimises)
    (hdisjoint : Disjoint (LinearMap.range L) (LinearMap.ker L))
    (hzero : ∀ j < c.columns.size, entry c.columns c.columns.size j = 0) : c.residual ≤ 0 := by
  obtain ⟨y, hy⟩ := h.exists_residual_eq_zero hdisjoint hzero
  rw [hsolved.residual_eq, ← hy]
  exact hlsq _ _ _ _

/-! ## One cycle is enough -/

variable {R : Type} {g : Gmres ℝ R} {a : V → V} {target : ℝ} {count : Nat}

/-- A cycle with room for the rank ends early, with a residual that is small enough. -/
theorem Advanced.solves [FiniteDimensional ℝ (LinearMap.range L)] {v : V} {us : List V}
    (h : Advanced g lsq e L (LinearMap.range L) r beta target 0 count (Cycle.start v beta 0) us c)
    (hlsq : lsq.Minimises) (hdisjoint : Disjoint (LinearMap.range L) (LinearMap.ker L))
    (htarget : 0 ≤ target) (hcount : Module.finrank ℝ (LinearMap.range L) ≤ count)
    (hmaxiter : Module.finrank ℝ (LinearMap.range L) ≤ g.maxiter) :
    0 < c.columns.size ∧ c.residual ≤ target ∧
      c.spent ≤ Module.finrank ℝ (LinearMap.range L) := by
  have hspent : c.spent = us.length := h.spent_eq.trans (Nat.zero_add _)
  have hsize : c.columns.size = us.length := h.size_eq.trans (Nat.zero_add _)
  rcases h.outcome with ⟨harnoldi, hover⟩ | ⟨vs, q, hbuilt, hended⟩
  · -- one basis vector more than there were steps
    have hroom := harnoldi.orthonormal.length_le_finrank harnoldi.mem
    rw [harnoldi.length_eq] at hroom
    omega
  · have hroom := hbuilt.orthonormal.length_le_finrank hbuilt.mem
    rw [hbuilt.length_eq] at hroom
    refine ⟨hbuilt.pos, ?_, by omega⟩
    rcases hended with hsmall | ⟨-, hzero⟩
    · exact hsmall
    · exact (hbuilt.residual_nonpos (h.solved hbuilt.pos) hlsq hdisjoint (hzero rfl)).trans htarget

theorem refine_solves [FiniteDimensional ℝ (LinearMap.range L)] {tol : ℝ} (htol : g.tol = .ok tol)
    (hrestart : g.restart = .ok count) (hdelta : g.breakdownTol = .ok 0) (htol_nonneg : 0 ≤ tol)
    (hlsq : lsq.Minimises) (hK : K.Exact e) (hL : ∀ v, e (a v) = L (e v))
    (hdisjoint : Disjoint (LinearMap.range L) (LinearMap.ker L))
    (hcount : Module.finrank ℝ (LinearMap.range L) ≤ count)
    (hmaxiter : Module.finrank ℝ (LinearMap.range L) ≤ g.maxiter) {b : V}
    (hb : e b ∈ LinearMap.range L) (x : V) (trace : List V) :
    ∃ account u, refine g lsq K (traced a) b ⟨x, trace⟩ = .ok account u ∧ account.exit.Met ∧
      ‖e b - L (e u.value)‖ ≤ tol * ‖e b‖ ∧
      account.applications ≤ Module.finrank ℝ (LinearMap.range L) ∧ account.cycles ≤ 1 ∧
      u.outside.length = trace.length + (account.applications + account.cycles) := by
  by_cases hzero : e b = 0
  · refine ⟨_, _, refine_of_eq_zero hK hzero _, .inr rfl, ?_, Nat.zero_le _, Nat.zero_le _, rfl⟩
    exact (residual_of_eq_zero hK hzero x).trans_le (mul_nonneg htol_nonneg (norm_nonneg _))
  have hrank : 0 < Module.finrank ℝ (LinearMap.range L) := by
    have hnontrivial : Nontrivial (LinearMap.range L) :=
      nontrivial_of_ne ⟨e b, hb⟩ 0 fun h => hzero (congrArg Subtype.val h)
    exact Module.finrank_pos
  have hbudget : 0 < g.maxiter := hrank.trans_le hmaxiter
  obtain ⟨fuel, hfuel⟩ := Nat.exists_eq_succ_of_ne_zero hbudget.ne'
  have htarget : 0 ≤ tol * ‖e b‖ := mul_nonneg htol_nonneg (norm_nonneg _)
  have hdefect := defect_eq hK hL b x
  rw [refine_of_ne_zero htol hK hzero, hfuel]
  by_cases hle : K.length (defect K a b x) ≤ tol * ‖e b‖
  · refine ⟨_, _, refineFrom_of_le hbudget hle, .inl rfl, ?_, Nat.zero_le _, le_rfl, ?_⟩
    · rwa [← hdefect, ← hK.length_eq]
    · exact List.length_append
  · have hlt := not_le.mp hle
    have hmem : e (defect K a b x) ∈ LinearMap.range L := by
      rw [hdefect]
      exact Submodule.sub_mem _ hb ⟨e x, rfl⟩
    obtain ⟨c, us, hcycle, hadvanced⟩ := cycleFrom_spec lsq hdelta le_rfl hK hL
      (LinearMap.mem_range_self L) hrestart (tol * ‖e b‖) (htarget.trans_lt hlt).ne' hmem 0
      (trace ++ [x])
    obtain ⟨hpos, hsmall, hspent⟩ := hadvanced.solves hlsq hdisjoint htarget hcount hmaxiter
    obtain ⟨vs, q, hbuilt⟩ := hadvanced.exists_built hpos
    rw [refineFrom_of_lt hbudget hlt hcycle, if_neg hpos.ne', if_pos hsmall]
    refine ⟨_, _, rfl, .inl rfl, ?_, hspent, le_rfl, ?_⟩
    · exact (hbuilt.residual_eq hK (hadvanced.solved hpos) hdefect).trans_le hsmall
    · have hlength : c.spent = us.length := hadvanced.spent_eq.trans (Nat.zero_add _)
      show (trace ++ [x] ++ us).length = trace.length + (c.spent + 1)
      rw [List.length_append, List.length_append, List.length_singleton]
      omega

/-! ## Calls on shared vectors -/

/-- Where only zero is both in the range and in the kernel, a call of GMRES that does not give up a
space early meets every right-hand side in the range: within one cycle, and with no more applications
than the rank. -/
theorem call_solves {n : Nat} (L : EuclideanSpace ℝ (Fin n) →ₗ[ℝ] EuclideanSpace ℝ (Fin n))
    (hdisjoint : Disjoint (LinearMap.range L) (LinearMap.ker L)) {g : Gmres ℝ R} {tol : ℝ}
    {count : Nat} (htol : g.tol = .ok tol) (hrestart : g.restart = .ok count)
    (hdelta : g.breakdownTol = .ok 0) (htol_nonneg : 0 ≤ tol)
    (hcount : Module.finrank ℝ (LinearMap.range L) ≤ count)
    (hmaxiter : Module.finrank ℝ (LinearMap.range L) ≤ g.maxiter) {lsq : LeastSquares ℝ}
    (hlsq : lsq.Minimises) {p : LinearProblem (Vector ℝ n) ℝ R (List (Vector ℝ n))}
    (hbackend : p.backend = (Component.plain ℝ).backend n) {guard scratch : Set Ref}
    {s : Session (Vector ℝ n) ℝ R (List (Vector ℝ n))}
    (hp : p.Posed (traced (applied L)) guard scratch s) (sup : Supply p.new (p.own guard scratch))
    (hready : sup.Ready s) (hrhs : point (s.store.read p.rhs) ∈ LinearMap.range L) :
    ∃ account s', g.call lsq p s = .ok account s' ∧ account.exit.Met ∧
      misfit L (s.store.read p.rhs) (s'.store.read p.unknown) ≤ tol * ‖point (s.store.read p.rhs)‖ ∧
      account.applications ≤ Module.finrank ℝ (LinearMap.range L) ∧ account.cycles ≤ 1 ∧
      s'.outside.length = s.outside.length + (account.applications + account.cycles) := by
  have hK : p.backend.Exact point := hbackend ▸ Component.plain_exact n
  obtain ⟨account, u, hrefine, hexit, hmet, happlications, hcycles, hlength⟩ := refine_solves htol
    hrestart hdelta htol_nonneg hlsq hK (point_applied L) hdisjoint hcount hmaxiter hrhs
    (s.store.read p.unknown) s.outside
  obtain ⟨_, s', hcall, rfl, hvalue, hout, -⟩ := (g.call_follows lsq sup hp hready).exists_ok hrefine
  exact ⟨_, s', hcall, hexit, hvalue ▸ hmet, happlications, hcycles, hout ▸ hlength⟩

theorem disjoint_axisCross : Disjoint (LinearMap.range axisCross) (LinearMap.ker axisCross) := by
  refine disjoint_range_ker (-1) fun x y => ?_
  simp [axisCross, PiLp.inner_apply, Fin.sum_univ_three, Matrix.mulVec, dotProduct]

theorem finrank_range_axisCross_le : Module.finrank ℝ (LinearMap.range axisCross) ≤ 3 :=
  (LinearMap.finrank_range_le axisCross).trans_eq finrank_euclideanSpace_fin

theorem call_axisCross_solves :
    ∃ account s', Gmres.call (R := ℝ) ⟨.ok 0, .ok 3, 3, .ok 0⟩ LeastSquares.exact
        (.fresh ((Component.plain ℝ).backend 3) (traced (applied axisCross)))
        (.fresh #v[-2, 1, 0] #v[0, 0, 7] []) = .ok account s' ∧ account.exit.Met ∧
      misfit axisCross #v[-2, 1, 0] (s'.store.read ⟨1⟩) ≤ 0 * ‖point #v[-2, 1, 0]‖ ∧
      account.applications ≤ Module.finrank ℝ (LinearMap.range axisCross) ∧ account.cycles ≤ 1 ∧
      s'.outside.length = 0 + (account.applications + account.cycles) := by
  have hrhs : point #v[-2, 1, 0] ∈ LinearMap.range axisCross := by
    refine ⟨point #v[1, 2, 0], ?_⟩
    ext i
    fin_cases i
    all_goals simp [axisCross, point, dotProduct, Fin.sum_univ_three]
  exact call_solves axisCross disjoint_axisCross rfl rfl rfl le_rfl finrank_range_axisCross_le
    finrank_range_axisCross_le LeastSquares.exact_minimises rfl (LinearProblem.fresh_posed _ _ _ _ _)
    (Supply.fresh _ _) (LinearProblem.fresh_ready _ _ _ _ _) hrhs

end Gmres

end NewtonKrylov
