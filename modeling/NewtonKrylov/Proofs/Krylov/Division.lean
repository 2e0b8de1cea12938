import NewtonKrylov.Proofs.Krylov.Optimality

/-!
# Where a call divides by zero

A cycle divides twice: by the length of the residual that it starts from, and in each step by the
length of what projecting leaves. A test guards each division, but it compares with a fraction given by
a tolerance, and a negative fraction lets zero pass. In exact arithmetic a cycle divides by zero
exactly where it is `Barred`: it starts from no residual, or it comes to a Krylov space that the
operator maps into itself without reaching the target there (`DeadEnd`).

`Gmres.call_divides` says so for calls, and that the tolerances under which no call divides by zero are
those that are not negative; the one for breakdowns is free where a cycle has room for one step only.
-/

namespace NewtonKrylov

open scoped InnerProductSpace
open Module.End (invtSubmodule mem_invtSubmodule_iff_forall_mem_of_mem)

variable {V E : Type} [NormedAddCommGroup E] [InnerProductSpace ℝ E]

/-! ## Krylov spaces that do not grow -/

section DeadEnd

variable {L : E →ₗ[ℝ] E} {r : E} {target : ℝ} {j : Nat}

theorem krylov_le_of_invariant {k : Nat} (h : krylov L r (k + 1) ∈ invtSubmodule L) (k' : Nat) :
    krylov L r k' ≤ krylov L r (k + 1) := by
  have hmap := (mem_invtSubmodule_iff_forall_mem_of_mem L).mp h
  refine Submodule.span_le.mpr ?_
  rintro _ ⟨j, rfl⟩
  show (L ^ (j : Nat)) r ∈ krylov L r (k + 1)
  generalize (j : Nat) = i
  induction i with
  | zero => exact krylov_mono (Nat.succ_pos k) mem_krylov_one
  | succ i ih =>
    rw [pow_succ', Module.End.mul_apply]
    exact hmap _ ih

theorem krylov_one : krylov L r 1 = ℝ ∙ r := by
  rw [krylov, Set.range_unique]
  rfl

/-- After `j` steps from the residual `r` there is no direction left to go in: the Krylov space is
mapped into itself. Still the last step has moved, and the space holds no residual within the target. -/
structure DeadEnd (L : E →ₗ[ℝ] E) (r : E) (target : ℝ) (j : Nat) : Prop where
  invariant : krylov L r (j + 1) ∈ invtSubmodule L
  moved : ∃ z ∈ krylov L r (j + 1) ⊓ (krylov L r j)ᗮ, L z ≠ 0
  far : ∀ z ∈ krylov L r (j + 1), target < ‖r - L z‖

theorem DeadEnd.not_invariant {i : Nat} (h : DeadEnd L r target j) (hij : i < j) :
    krylov L r (i + 1) ∉ invtSubmodule L := by
  intro hinvariant
  obtain ⟨z, ⟨hz, horth⟩, hne⟩ := h.moved
  have hzero : ⟪z, z⟫_ℝ = 0 := horth z (krylov_mono hij (krylov_le_of_invariant hinvariant _ hz))
  rw [inner_self_eq_zero.mp hzero, map_zero] at hne
  exact hne rfl

theorem DeadEnd.pos (h : DeadEnd L r target j) (htarget : 0 ≤ target) : 0 < j := by
  refine Nat.pos_of_ne_zero ?_
  rintro rfl
  obtain ⟨z, ⟨hz, -⟩, hne⟩ := h.moved
  have himage := (mem_invtSubmodule_iff_forall_mem_of_mem L).mp h.invariant z hz
  rw [krylov_one] at himage
  obtain ⟨t, ht⟩ := Submodule.mem_span_singleton.mp himage
  have ht_ne : t ≠ 0 := by
    rintro rfl
    rw [zero_smul] at ht
    exact hne ht.symm
  have hfar := h.far (t⁻¹ • z) (Submodule.smul_mem _ _ hz)
  rw [map_smul, ← ht, inv_smul_smul₀ ht_ne, sub_self, norm_zero] at hfar
  exact absurd htarget (not_le.mpr hfar)

/-- What bars a cycle of at most `count` steps from the residual `r`. -/
def Barred (L : E →ₗ[ℝ] E) (target delta : ℝ) (count : Nat) (r : E) : Prop :=
  r = 0 ∨ delta < 0 ∧ ∃ j < count, DeadEnd L r target j

theorem Barred.mono {delta : ℝ} {count count' : Nat} (h : Barred L target delta count r)
    (hcount : count ≤ count') : Barred L target delta count' r :=
  h.imp_right (And.imp_right fun ⟨j, hj, hend⟩ => ⟨j, hj.trans_le hcount, hend⟩)

end DeadEnd

/-! ## Runs that may divide by zero -/

/-- The run divides by zero where `P` holds, and returns where it does not. -/
def DividesIff {R σ α : Type} (P : Prop) : EStateM.Result (Fault R) σ α → Prop
  | .ok _ _ => ¬P
  | .error fault _ => fault = .divisionByZero ∧ P

theorem DividesIff.cases {R σ α : Type} {P : Prop} {result : EStateM.Result (Fault R) σ α}
    (h : DividesIff P result) :
    (∃ v s, result = .ok v s ∧ ¬P) ∨ ∃ s, result = .error .divisionByZero s ∧ P := by
  cases result with
  | ok v s => exact .inl ⟨v, s, rfl, h⟩
  | error fault s =>
    obtain ⟨rfl, hP⟩ := h
    exact .inr ⟨s, rfl, hP⟩

theorem DividesIff.congr {R σ α : Type} {P Q : Prop} {result : EStateM.Result (Fault R) σ α}
    (h : DividesIff P result) (hPQ : P ↔ Q) : DividesIff Q result := propext hPQ ▸ h

theorem Scalar.reciprocal_zero {R : Type} :
    Scalar.reciprocal (0 : ℝ) = (.error .divisionByZero : Except (Fault R) ℝ) := by
  rw [reciprocal, if_pos (by simp)]

namespace Gmres

variable [Inhabited V] {K : Backend ℝ V} {e : V → E} {L : E →ₗ[ℝ] E} {W : Submodule ℝ E} {r : E}
variable {beta : ℝ} {c : Cycle V ℝ} {vs : List V} {q : E} {v : V}

/-! ## What is left of an image -/

theorem Built.inner_eq_zero (h : Built e L W r beta c vs q) {x : E} (hx : x ∈ space e c vs) :
    ⟪x, q⟫_ℝ = 0 := by
  obtain ⟨y, rfl⟩ := exists_coefficients hx
  rw [sum_inner]
  refine Finset.sum_eq_zero fun j hj => ?_
  have hmem := getD_mem ((Finset.mem_range.mp hj).trans_eq h.length_eq.symm)
  rw [real_inner_smul_left, h.orthogonal _ hmem, mul_zero]

namespace Climbing

theorem last_mem (h : Climbing e L r beta v c) : e v ∈ krylov L r (c.columns.size + 1) := by
  rw [h.last]
  exact h.generated _ (h.arnoldi.length_eq ▸ Nat.lt_succ_self _)

theorem last_orthogonal (h : Climbing e L r beta v c) : e v ∈ (krylov L r c.columns.size)ᗮ := by
  intro x hx
  rcases Nat.eq_zero_or_pos c.columns.size with hzero | hpos
  · rw [hzero, krylov_zero] at hx
    rw [(Submodule.mem_bot ℝ).mp hx, inner_zero_left]
  · have hbuilt := h.arnoldi.built hpos
    rw [← hbuilt.space_eq (h.generated.of_initial hbuilt.initial)] at hx
    rw [h.last]
    exact hbuilt.inner_eq_zero hx

variable {a : V → V} (hK : K.Exact e) (hL : ∀ v, e (a v) = L (e v)) (lsq : LeastSquares ℝ) (delta : ℝ)
include hK hL

theorem exists_built (h : Climbing e L r beta v c) :
    ∃ q, Built e L ⊤ r beta (extended K a lsq beta delta c v) c.basis q ∧
      e (project K (a v) c.basis).1 = K.length (project K (a v) c.basis).1 • q := by
  obtain ⟨q, hq, hunit, horth, -⟩ :=
    project_direction hK (a v) h.arnoldi.orthonormal Submodule.mem_top h.arnoldi.mem
  exact ⟨q, h.arnoldi.extend hK hL h.last hq hunit horth lsq delta, hq⟩

theorem extended_best (h : Climbing e L r beta v c) (hlsq : lsq.Minimises) :
    IsLeast ((fun z => ‖r - L z‖) '' krylov L r (c.columns.size + 1))
      (extended K a lsq beta delta c v).residual := by
  obtain ⟨q, hbuilt, -⟩ := h.exists_built hK hL lsq delta
  have hbest := hbuilt.best ⟨rfl, rfl⟩ hlsq h.generated
  rwa [Best, extended_size] at hbest

/-- Projecting leaves nothing exactly where the Krylov space is mapped into itself. -/
theorem invariant_iff (h : Climbing e L r beta v c) :
    krylov L r (c.columns.size + 1) ∈ invtSubmodule L ↔ K.length (project K (a v) c.basis).1 = 0 := by
  obtain ⟨q, hbuilt, hq⟩ := h.exists_built hK hL LeastSquares.exact 0
  have hsize := extended_size K a LeastSquares.exact beta 0 c v
  have hspace := hbuilt.space_eq h.generated
  rw [hsize] at hspace
  rw [mem_invtSubmodule_iff_forall_mem_of_mem]
  constructor
  · intro hmap
    have himage : e (a v) ∈ krylov L r (c.columns.size + 1) := hL v ▸ hmap _ h.last_mem
    have hmem := project_mem hK (a v) himage (h.generated.mem h.arnoldi.length_eq.le)
    have horth := hbuilt.inner_eq_zero (hspace ▸ hmem)
    have hself : ⟪e (project K (a v) c.basis).1, e (project K (a v) c.basis).1⟫_ℝ = 0 := by
      nth_rewrite 2 [hq]
      rw [real_inner_smul_right, horth, mul_zero]
    rw [hK.length_eq, inner_self_eq_zero.mp hself, norm_zero]
  · intro hnone
    rw [← hspace]
    refine hbuilt.map_mem_space fun j hj => ?_
    rw [hsize] at hj ⊢
    rw [h.arnoldi.extended_last K a _ _ v j hj, hnone, ite_self]

/-- The last basis vector is the only direction in which a Krylov space is larger than the one before. -/
theorem exists_eq_smul (h : Climbing e L r beta v c) {z : E}
    (hz : z ∈ krylov L r (c.columns.size + 1)) (horth : z ∈ (krylov L r c.columns.size)ᗮ) :
    ∃ t : ℝ, z = t • e v := by
  obtain ⟨q, hbuilt, -⟩ := h.exists_built hK hL LeastSquares.exact 0
  have hsize := extended_size K a LeastSquares.exact beta 0 c v
  rw [← hsize, ← hbuilt.space_eq h.generated] at hz
  obtain ⟨y, hy⟩ := exists_coefficients hz
  rw [congrArg Finset.range hsize, Finset.sum_range_succ, ← h.last] at hy
  refine ⟨y.toList.getD c.columns.size 0, ?_⟩
  -- the other components make up a vector of the smaller space, orthogonal to itself
  have hrest : z - y.toList.getD c.columns.size 0 • e v ∈ krylov L r c.columns.size := by
    rw [← hy, add_sub_cancel_right]
    refine Submodule.sum_mem _ fun i hi => Submodule.smul_mem _ _ ?_
    have hi := Finset.mem_range.mp hi
    exact krylov_mono hi (h.generated i (by rw [h.arnoldi.length_eq]; omega))
  have hself := Submodule.sub_mem _ horth (Submodule.smul_mem _ (y.toList.getD c.columns.size 0)
    h.last_orthogonal) _ hrest
  exact sub_eq_zero.mp (inner_self_eq_zero.mp hself)

theorem nonneg_of_stop (h : Climbing e L r beta v c) (hlsq : lsq.Minimises) {target : ℝ}
    (hstop : (Scalar.le (extended K a lsq beta delta c v).residual target ||
      (extended K a lsq beta delta c v).brokeDown) = true) {j : Nat} (hj : c.columns.size ≤ j)
    (hend : DeadEnd L r target j) : 0 ≤ delta := by
  rcases Bool.or_eq_true _ _ ▸ hstop with hsmall | hbroke
  · obtain ⟨z, hz, hresidual⟩ := (h.extended_best hK hL lsq delta hlsq).1
    have hfar := hend.far z (krylov_mono (Nat.succ_le_succ hj) hz)
    exact absurd ((Scalar.le_real _ _).mp hsmall) (not_le.mpr (hfar.trans_eq hresidual))
  · by_contra hneg
    have hle := (Scalar.le_real _ _).mp hbroke
    rw [hK.length_eq (a v)] at hle
    have hnone : K.length (project K (a v) c.basis).1 = 0 := by
      refine le_antisymm (hle.trans ?_) (hK.length_eq _ ▸ norm_nonneg _)
      exact mul_nonpos_of_nonpos_of_nonneg (not_le.mp hneg).le (norm_nonneg _)
    rcases hj.eq_or_lt with rfl | hlt
    · -- the image of the last vector is zero, and the last step has not moved
      have himage : ‖e (a v)‖ ≤ 0 :=
        nonpos_of_mul_nonneg_right (hnone.symm.trans_le hle) (not_le.mp hneg)
      obtain ⟨z, ⟨hz, horth⟩, hne⟩ := hend.moved
      obtain ⟨t, rfl⟩ := h.exists_eq_smul hK hL hz horth
      rw [map_smul, ← hL, norm_le_zero_iff.mp himage, smul_zero] at hne
      exact hne rfl
    · exact hend.not_invariant hlt ((h.invariant_iff hK hL).mpr hnone)

theorem deadEnd_of_go (h : Climbing e L r beta v c) (hlsq : lsq.Minimises) {target : ℝ}
    (hgo : ¬(Scalar.le (extended K a lsq beta delta c v).residual target ||
      (extended K a lsq beta delta c v).brokeDown) = true)
    (hnone : K.length (project K (a v) c.basis).1 = 0) :
    delta < 0 ∧ DeadEnd L r target c.columns.size := by
  obtain ⟨hlarge, hkept⟩ := not_or.mp (mt (Bool.or_eq_true _ _).mpr hgo)
  have hfraction : delta * ‖L (e v)‖ < 0 := by
    refine not_le.mp fun hle => hkept ((Scalar.le_real _ _).mpr ?_)
    rw [hnone, hK.length_eq, hL]
    exact hle
  have hbest := h.extended_best hK hL lsq delta hlsq
  refine ⟨neg_of_mul_neg_left hfraction (norm_nonneg _), (h.invariant_iff hK hL).mpr hnone,
    ⟨e v, ⟨h.last_mem, h.last_orthogonal⟩, fun hzero => ?_⟩, fun z hz => ?_⟩
  · rw [hzero, norm_zero, mul_zero] at hfraction
    exact lt_irrefl 0 hfraction
  · exact (not_le.mp (mt (Scalar.le_real _ _).mpr hlarge)).trans_le (hbest.2 ⟨z, hz, rfl⟩)

end Climbing

/-! ## Cycles -/

section Cycle

variable {R : Type} {g : Gmres ℝ R} {a : V → V} {delta : ℝ} {lsq : LeastSquares ℝ}
variable (hdelta : g.breakdownTol = .ok delta) (hlsq : lsq.Minimises) (hK : K.Exact e)
  (hL : ∀ v, e (a v) = L (e v))
include hdelta hlsq hK hL

/-- A step divides by zero where it comes to a dead end. Otherwise it goes on, or it ends the cycle, which
then is not on the way to one. -/
theorem Climbing.advance_divides (h : Climbing e L r beta v c) (target : ℝ) (trace : List V) :
    (∃ c', Gmres.advance g lsq K (traced a) beta target v c trace = .ok (c', none) (trace ++ [v]) ∧
      ∀ j ≥ c.columns.size, DeadEnd L r target j → 0 ≤ delta) ∨
    (∃ c' v', Gmres.advance g lsq K (traced a) beta target v c trace =
        .ok (c', some v') (trace ++ [v]) ∧ c'.spent = c.spent + 1 ∧
      c'.columns.size = c.columns.size + 1 ∧ Climbing e L r beta v' c' ∧
      ¬DeadEnd L r target c.columns.size) ∨
    (Gmres.advance g lsq K (traced a) beta target v c trace = .error .divisionByZero (trace ++ [v]) ∧
      delta < 0 ∧ DeadEnd L r target c.columns.size) := by
  by_cases hstop : (Scalar.le (extended K a lsq beta delta c v).residual target ||
      (extended K a lsq beta delta c v).brokeDown) = true
  · refine .inl ⟨extended K a lsq beta delta c v, ?_, fun j => h.nonneg_of_stop hK hL lsq delta hlsq hstop⟩
    rw [advance_run hdelta]
    simp only [hstop]
    rfl
  by_cases hnone : K.length (project K (a v) c.basis).1 = 0
  · refine .inr (.inr ⟨?_, h.deadEnd_of_go hK hL lsq delta hlsq hstop hnone⟩)
    rw [advance_run hdelta]
    simp only [hstop, hnone, Scalar.reciprocal_zero]
    rfl
  · obtain ⟨c', v', hrun, hspent, hsize, -, hlast, harnoldi⟩ := advance_grows lsq hdelta hK hL
      (fun _ => Submodule.mem_top) h.arnoldi h.last target trace hstop hnone
    exact .inr (.inl ⟨c', v', hrun, hspent, hsize,
      ⟨harnoldi, hlast, h.generated_advance hdelta hK hL hrun⟩,
      fun hend => hnone ((h.invariant_iff hK hL).mp hend.invariant)⟩)

theorem Climbing.advances_divides (target : ℝ) (count : Nat) (h : Climbing e L r beta v c)
    (trace : List V) :
    DividesIff (delta < 0 ∧ ∃ j ≥ c.columns.size, j < c.columns.size + count ∧
        c.spent + j < g.maxiter + c.columns.size ∧ DeadEnd L r target j)
      (advances g lsq K (traced a) beta target count v c trace) := by
  induction count generalizing v c trace with
  | zero =>
    rintro ⟨-, j, hj, hlt, -⟩
    omega
  | succ count ih =>
    rw [advances]
    by_cases hbudget : c.spent < g.maxiter
    · rw [if_pos hbudget]
      rcases h.advance_divides hdelta hlsq hK hL target trace with
        ⟨c', hrun, hnot⟩ | ⟨c', v', hrun, hspent, hsize, h', hnot⟩ | ⟨hrun, hneg, hend⟩
      · rw [bind_run_ok hrun]
        rintro ⟨hneg, j, hj, -, -, hend⟩
        exact absurd (hnot j hj hend) (not_le.mpr hneg)
      · rw [bind_run_ok hrun]
        refine (ih h' (trace ++ [v])).congr (and_congr_right fun _ => exists_congr fun j => ?_)
        rw [hspent, hsize]
        constructor
        · rintro ⟨hj, hlt, hroom, hend⟩
          exact ⟨by omega, by omega, by omega, hend⟩
        · rintro ⟨hj, hlt, hroom, hend⟩
          have hne : j ≠ c.columns.size := fun heq => hnot (heq ▸ hend)
          exact ⟨by omega, by omega, by omega, hend⟩
      · rw [bind_run_error hrun]
        exact ⟨rfl, hneg, _, le_rfl, by omega, by omega, hend⟩
    · rw [if_neg hbudget]
      rintro ⟨-, j, hj, -, hroom, -⟩
      omega

theorem cycleFrom_divides {count : Nat} (hrestart : g.restart = .ok count) (target : ℝ) (u : V)
    (spent : Nat) (trace : List V) :
    DividesIff (Barred L target delta (min count (g.maxiter - spent)) (e u))
      (cycleFrom g lsq K (traced a) target (K.length u) u spent trace) := by
  by_cases hu : K.length u = 0
  · rw [cycleFrom, hu, Scalar.reciprocal_zero]
    refine ⟨rfl, .inl (norm_eq_zero.mp ?_)⟩
    rw [← hK.length_eq, hu]
  have hne : e u ≠ 0 := fun hzero => hu (by rw [hK.length_eq, hzero, norm_zero])
  have hadvances := (Climbing.first (L := L) hK hu spent).advances_divides hdelta hlsq hK hL target
    count trace
  rw [cycleFrom_run lsq hrestart target hu, Barred, or_iff_right hne]
  refine hadvances.congr (and_congr_right fun _ => exists_congr fun j => ?_)
  show 0 ≤ j ∧ j < 0 + count ∧ spent + j < g.maxiter + 0 ∧ DeadEnd L (e u) target j ↔ _
  constructor
  · rintro ⟨-, hcount, hroom, hend⟩
    exact ⟨by omega, hend⟩
  · rintro ⟨hj, hend⟩
    exact ⟨by omega, by omega, by omega, hend⟩

end Cycle

/-! ## Calls on values -/

/-- A start for `L x = b` from which a call divides by zero: there is something to do, and the cycle is
barred. -/
structure Trap (L : E →ₗ[ℝ] E) (tol delta : ℝ) (count : Nat) (b x : E) : Prop where
  rhs_ne : b ≠ 0
  far : tol * ‖b‖ < ‖b - L x‖
  barred : Barred L (tol * ‖b‖) delta count (b - L x)

section Trap

variable {tol delta : ℝ} {count : Nat} {b x : E}

theorem Trap.of_exact (htol : tol < 0) (hb : b ≠ 0) (hx : L x = b) : Trap L tol delta count b x where
  rhs_ne := hb
  far := (mul_neg_of_neg_of_pos htol (norm_pos_iff.mpr hb)).trans_le (norm_nonneg _)
  barred := .inl (sub_eq_zero.mpr hx.symm)

theorem not_trap (htol : 0 ≤ tol) (hsafe : 0 ≤ delta ∨ count ≤ 1) : ¬Trap L tol delta count b x := by
  intro h
  have htarget : 0 ≤ tol * ‖b‖ := mul_nonneg htol (norm_nonneg b)
  rcases h.barred with hzero | ⟨hneg, j, hj, hend⟩
  · have hfar := h.far
    rw [hzero, norm_zero] at hfar
    exact absurd htarget (not_le.mpr hfar)
  · have hpos := hend.pos htarget
    have hcount := hsafe.resolve_left (not_le.mpr hneg)
    omega

end Trap

section Refine

variable {R : Type} {g : Gmres ℝ R} {a : V → V} {tol delta : ℝ} {count : Nat} {lsq : LeastSquares ℝ}

omit [Inhabited V] in
theorem refineFrom_of_error {b x : V} {target : ℝ} {fuel spent begun : Nat} {trace trace' : List V}
    {fault : Fault R} (hbudget : spent < g.maxiter) (h : target < K.length (defect K a b x))
    (hcycle : cycleFrom g lsq K (traced a) target (K.length (defect K a b x)) (defect K a b x) spent
      (trace ++ [x]) = .error fault trace') :
    refineFrom g lsq K (traced a) b target (fuel + 1) spent begun ⟨x, trace⟩ =
      .error fault ⟨x, trace'⟩ := by
  have hlarge : ¬Scalar.le (K.length (K.addScaled b (a x) (-Scalar.ofNat 1))) target = true :=
    fun hle => absurd ((Scalar.le_real _ _).mp hle) (not_le.mpr h)
  rw [refineFrom, if_pos hbudget]
  show (if Scalar.le (K.length (K.addScaled b (a x) (-Scalar.ofNat 1))) target then _ else _ :
    OnUnknown V R (List V) Account) ⟨x, trace ++ [x]⟩ = _
  rw [if_neg hlarge]
  show (OnUnknown.consult (cycleFrom g lsq K (traced a) target
    (K.length (K.addScaled b (a x) (-Scalar.ofNat 1))) (K.addScaled b (a x) (-Scalar.ofNat 1))
      spent) >>= fun c => _ : OnUnknown V R (List V) Account) ⟨x, trace ++ [x]⟩ = _
  rw [bind_run_error (OnUnknown.consult_run_error hcycle)]

variable (hrestart : g.restart = .ok count) (hdelta : g.breakdownTol = .ok delta)
  (hlsq : lsq.Minimises) (hK : K.Exact e) (hL : ∀ v, e (a v) = L (e v))
include hrestart hdelta hlsq hK hL

theorem refineFrom_divides (tol : ℝ) {b : V} (hb : e b ≠ 0) (fuel spent begun : Nat) (x : V)
    (trace : List V) :
    (∃ account u, refineFrom g lsq K (traced a) b (tol * ‖e b‖) fuel spent begun ⟨x, trace⟩ =
      .ok account u) ∨
    ∃ u, refineFrom g lsq K (traced a) b (tol * ‖e b‖) fuel spent begun ⟨x, trace⟩ =
        .error .divisionByZero u ∧
      Trap L tol delta (min count g.maxiter) (e b) (e u.value) := by
  induction fuel generalizing spent begun x trace with
  | zero => exact .inl ⟨_, _, rfl⟩
  | succ fuel ih =>
    by_cases hbudget : spent < g.maxiter
    · by_cases hle : K.length (defect K a b x) ≤ tol * ‖e b‖
      · exact .inl ⟨_, _, refineFrom_of_le hbudget hle⟩
      have hlt := not_le.mp hle
      rcases (cycleFrom_divides hdelta hlsq hK hL hrestart (tol * ‖e b‖) (defect K a b x) spent
        (trace ++ [x])).cases with ⟨c, trace', hcycle, -⟩ | ⟨trace', hcycle, hbarred⟩
      · rw [refineFrom_of_lt hbudget hlt hcycle]
        split
        · exact .inl ⟨_, _, rfl⟩
        split
        · exact .inl ⟨_, _, rfl⟩
        split
        · exact .inl ⟨_, _, rfl⟩
        · exact ih _ _ _ _
      · refine .inr ⟨_, refineFrom_of_error hbudget hlt hcycle, hb, ?_, ?_⟩
        · rwa [hK.length_eq, defect_eq hK hL] at hlt
        · rw [defect_eq hK hL] at hbarred
          exact hbarred.mono (min_le_min_left _ (Nat.sub_le _ _))
    · rw [refineFrom, if_neg hbudget]
      exact .inl ⟨_, _, rfl⟩

theorem refineFrom_of_trap {b x : V} (hmaxiter : 0 < g.maxiter) (fuel begun : Nat)
    (h : Trap L tol delta (min count g.maxiter) (e b) (e x)) (trace : List V) :
    ∃ u, refineFrom g lsq K (traced a) b (tol * ‖e b‖) (fuel + 1) 0 begun ⟨x, trace⟩ =
      .error .divisionByZero u := by
  have hlt := h.far
  have hbarred := h.barred
  rw [← defect_eq hK hL] at hlt hbarred
  rw [← hK.length_eq (defect K a b x)] at hlt
  rcases (cycleFrom_divides hdelta hlsq hK hL hrestart (tol * ‖e b‖) (defect K a b x) 0
    (trace ++ [x])).cases with ⟨-, -, -, hfree⟩ | ⟨trace', hcycle, -⟩
  · exact absurd hbarred hfree
  · exact ⟨_, refineFrom_of_error hmaxiter hlt hcycle⟩

/-- A call returns, and then it has not started from a trap; or it divides by zero in one. -/
theorem refine_divides (htol : g.tol = .ok tol) (hmaxiter : 0 < g.maxiter) (b x : V) (trace : List V) :
    (∃ account u, refine g lsq K (traced a) b ⟨x, trace⟩ = .ok account u ∧
      ¬Trap L tol delta (min count g.maxiter) (e b) (e x)) ∨
    ∃ u, refine g lsq K (traced a) b ⟨x, trace⟩ = .error .divisionByZero u ∧
      Trap L tol delta (min count g.maxiter) (e b) (e u.value) := by
  by_cases hb : e b = 0
  · exact .inl ⟨_, _, refine_of_eq_zero hK hb _, fun h => h.rhs_ne hb⟩
  obtain ⟨fuel, hfuel⟩ := Nat.exists_eq_succ_of_ne_zero hmaxiter.ne'
  rw [refine_of_ne_zero htol hK hb]
  rcases refineFrom_divides hrestart hdelta hlsq hK hL tol hb g.maxiter 0 0 x trace with
    ⟨account, u, hrun⟩ | hfailed
  · refine .inl ⟨account, u, hrun, fun htrap => ?_⟩
    obtain ⟨u', hrun'⟩ :=
      refineFrom_of_trap hrestart hdelta hlsq hK hL hmaxiter fuel 0 htrap trace
    rw [← Nat.succ_eq_add_one, ← hfuel, hrun] at hrun'
    exact nomatch hrun'
  · exact .inr hfailed

end Refine

/-! ## Calls on shared vectors -/

/-- A call for a linear operator, in exact arithmetic. -/
structure ExactCall (R : Type) where
  n : Nat
  operator : EuclideanSpace ℝ (Fin n) →ₗ[ℝ] EuclideanSpace ℝ (Fin n)
  problem : LinearProblem (Vector ℝ n) ℝ R (List (Vector ℝ n))
  guard : Set Ref
  scratch : Set Ref
  session : Session (Vector ℝ n) ℝ R (List (Vector ℝ n))
  supply : Supply problem.new (problem.own guard scratch)
  backend_eq : problem.backend = (Component.plain ℝ).backend n
  posed : problem.Posed (traced (applied operator)) guard scratch session
  ready : supply.Ready session

namespace ExactCall

variable {R : Type}

/-- A call on two vectors of its own. -/
noncomputable def fresh {n : Nat} (L : EuclideanSpace ℝ (Fin n) →ₗ[ℝ] EuclideanSpace ℝ (Fin n))
    (b x : Vector ℝ n) : ExactCall R where
  n := n
  operator := L
  problem := .fresh ((Component.plain ℝ).backend n) (traced (applied L))
  guard := {⟨0⟩}
  scratch := ∅
  session := .fresh b x []
  supply := .fresh _ _
  backend_eq := rfl
  posed := LinearProblem.fresh_posed _ _ _ _ _
  ready := LinearProblem.fresh_ready _ _ _ _ _

/-- The right-hand side. -/
def rhs (C : ExactCall R) : EuclideanSpace ℝ (Fin C.n) :=
  point (C.session.store.read C.problem.rhs)

/-- The unknown in a session. -/
def unknownIn (C : ExactCall R) (s : Session (Vector ℝ C.n) ℝ R (List (Vector ℝ C.n))) :
    EuclideanSpace ℝ (Fin C.n) := point (s.store.read C.problem.unknown)

end ExactCall

section Call

variable {R : Type} {g : Gmres ℝ R} {tol delta : ℝ} {count : Nat} {lsq : LeastSquares ℝ}
variable (htol : g.tol = .ok tol) (hrestart : g.restart = .ok count)
  (hdelta : g.breakdownTol = .ok delta) (hmaxiter : 0 < g.maxiter) (hlsq : lsq.Minimises)
include htol hrestart hdelta hmaxiter hlsq

theorem call_ends (C : ExactCall R) :
    (∃ account s', g.call lsq C.problem C.session = .ok account s' ∧
      ¬Trap C.operator tol delta (min count g.maxiter) C.rhs (C.unknownIn C.session)) ∨
    ∃ s', g.call lsq C.problem C.session = .error .divisionByZero s' ∧
      Trap C.operator tol delta (min count g.maxiter) C.rhs (C.unknownIn s') := by
  have hK : C.problem.backend.Exact point := C.backend_eq ▸ Component.plain_exact C.n
  have hvalues := refine_divides hrestart hdelta hlsq hK (point_applied C.operator) htol hmaxiter
    (C.session.store.read C.problem.rhs) (C.session.store.read C.problem.unknown) C.session.outside
  rcases (g.call_follows lsq C.supply C.posed C.ready).cases with
    ⟨account, s', _, u, hcall, hrefine, -⟩ | ⟨fault, s', u, hcall, hrefine, ⟨hvalue, -⟩, -⟩
  · rcases hvalues with ⟨_, _, -, hfree⟩ | ⟨_, hfailed, -⟩
    · exact .inl ⟨account, s', hcall, hfree⟩
    · exact nomatch hrefine.symm.trans hfailed
  · rcases hvalues with ⟨_, _, hreturned, -⟩ | ⟨_, hfailed, htrap⟩
    · exact nomatch hrefine.symm.trans hreturned
    · obtain ⟨rfl, rfl⟩ := EStateM.Result.error.inj (hrefine.symm.trans hfailed)
      refine .inr ⟨s', hcall, ?_⟩
      unfold ExactCall.unknownIn
      rw [hvalue]
      exact htrap

theorem not_trap_of_returns (C : ExactCall R)
    (h : ∃ account s', g.call lsq C.problem C.session = .ok account s') :
    ¬Trap C.operator tol delta (min count g.maxiter) C.rhs (C.unknownIn C.session) := by
  obtain ⟨account, s', hreturned⟩ := h
  rcases call_ends htol hrestart hdelta hmaxiter hlsq C with ⟨_, _, -, hfree⟩ | ⟨_, hfailed, -⟩
  · exact hfree
  · exact nomatch hreturned.symm.trans hfailed

end Call

/-! ## Traps -/

/-- Keeps the first axis, and turns the third one into a multiple of the second. -/
noncomputable def shift (t : ℝ) : EuclideanSpace ℝ (Fin 3) →ₗ[ℝ] EuclideanSpace ℝ (Fin 3) :=
  (EuclideanSpace.projₗ 0).smulRight (point #v[1, 0, 0]) +
    (EuclideanSpace.projₗ 2).smulRight (point #v[0, -t, 0])

section Shift

variable {t : ℝ}

theorem norm_firstAxis : ‖point #v[1, 0, 0]‖ = 1 := by
  simp [point, EuclideanSpace.norm_eq, Fin.sum_univ_three]

theorem firstAxis_ne_zero : point #v[1, 0, 0] ≠ 0 := by
  rw [← norm_ne_zero_iff, norm_firstAxis]
  exact one_ne_zero

theorem shift_residual : point #v[1, 0, 0] - shift t (point #v[0, 0, 1]) = point #v[1, t, 0] := by
  ext i
  fin_cases i
  all_goals simp [shift, point]

theorem shift_of_plane {z : EuclideanSpace ℝ (Fin 3)} (hz : z 2 = 0) :
    shift t z = z 0 • point #v[1, 0, 0] := by
  ext i
  fin_cases i
  all_goals simp [shift, point, hz]

theorem shift_krylov {z : EuclideanSpace ℝ (Fin 3)}
    (hz : z ∈ krylov (shift t) (point #v[1, t, 0]) 2) : shift t z = z 0 • point #v[1, 0, 0] := by
  refine shift_of_plane ?_
  suffices hle : krylov (shift t) (point #v[1, t, 0]) 2 ≤
      (EuclideanSpace.projₗ 2 : EuclideanSpace ℝ (Fin 3) →ₗ[ℝ] ℝ).ker from hle hz
  refine Submodule.span_le.mpr ?_
  rintro _ ⟨j, rfl⟩
  fin_cases j
  all_goals simp [shift, point]

theorem shift_deadEnd (ht : 0 < t) {target : ℝ} (htarget : target < t) :
    DeadEnd (shift t) (point #v[1, t, 0]) target 1 := by
  have hstart : point #v[1, t, 0] ∈ krylov (shift t) (point #v[1, t, 0]) 2 :=
    krylov_mono one_le_two mem_krylov_one
  have himage : point #v[1, 0, 0] ∈ krylov (shift t) (point #v[1, t, 0]) 2 := by
    have hmem := map_mem_krylov (mem_krylov_one (L := shift t) (r := point #v[1, t, 0]))
    rwa [shift_krylov hstart, show (point #v[1, t, 0]) 0 = (1 : ℝ) from rfl, one_smul] at hmem
  refine ⟨(mem_invtSubmodule_iff_forall_mem_of_mem _).mpr fun z hz => ?_,
    ⟨(t ^ 2 + 1) • point #v[1, 0, 0] - point #v[1, t, 0], ⟨?_, ?_⟩, ?_⟩, fun z hz => ?_⟩
  · rw [shift_krylov hz]
    exact Submodule.smul_mem _ _ himage
  · exact Submodule.sub_mem _ (Submodule.smul_mem _ _ himage) hstart
  · rw [krylov_one]
    refine Submodule.mem_orthogonal_singleton_iff_inner_right.mpr ?_
    have haxis : ⟪point #v[1, t, 0], point #v[1, 0, 0]⟫_ℝ = 1 := by
      simp [point, PiLp.inner_apply, Fin.sum_univ_three]
    have hself : ⟪point #v[1, t, 0], point #v[1, t, 0]⟫_ℝ = t ^ 2 + 1 := by
      rw [PiLp.inner_apply, Fin.sum_univ_three]
      simp [point, sq, add_comm]
    rw [inner_sub_right, real_inner_smul_right, haxis, hself, mul_one, sub_self]
  · have hfirst : ((t ^ 2 + 1) • point #v[1, 0, 0] - point #v[1, t, 0]) 0 = t ^ 2 := by simp [point]
    rw [shift_of_plane (by simp [point]), hfirst]
    exact smul_ne_zero (pow_ne_zero 2 ht.ne') firstAxis_ne_zero
  · have hsecond : (point #v[1, t, 0] - z 0 • point #v[1, 0, 0]) 1 = t := by simp [point]
    have hle := PiLp.norm_apply_le (point #v[1, t, 0] - z 0 • point #v[1, 0, 0]) 1
    rw [hsecond, Real.norm_of_nonneg ht.le] at hle
    rw [shift_krylov hz]
    exact htarget.trans_le hle

/-- A call that starts on the third axis has no way to get rid of what it finds on the second one. -/
theorem shift_trap {tol delta : ℝ} (htol : 0 ≤ tol) (hdelta : delta < 0) {count : Nat}
    (hcount : 1 < count) :
    Trap (shift (tol + 1)) tol delta count (point #v[1, 0, 0]) (point #v[0, 0, 1]) := by
  have hend := shift_deadEnd (t := tol + 1) (by linarith) (lt_add_one tol)
  refine ⟨firstAxis_ne_zero, ?_, .inr ⟨hdelta, 1, hcount, ?_⟩⟩
  · rw [norm_firstAxis, mul_one, shift_residual]
    simpa using hend.far 0 (Submodule.zero_mem _)
  · rwa [norm_firstAxis, mul_one, shift_residual]

end Shift

/-! ## Tolerances -/

theorem point_one_ne_zero : point #v[1] ≠ 0 := by
  intro hzero
  have hentry : (1 : ℝ) = 0 := congrFun (congrArg WithLp.ofLp hzero) 0
  exact one_ne_zero hentry

/-- A call returns, and then it has not started from a trap, or it divides by zero and leaves the unknown
in one. All calls return exactly where the tolerance is not negative, and the one for breakdowns is not
either or there is room for one step only. -/
theorem call_divides {R : Type} {g : Gmres ℝ R} {tol delta : ℝ} {count : Nat} (htol : g.tol = .ok tol)
    (hrestart : g.restart = .ok count) (hdelta : g.breakdownTol = .ok delta) (hmaxiter : 0 < g.maxiter)
    {lsq : LeastSquares ℝ} (hlsq : lsq.Minimises) :
    (∀ C : ExactCall R,
      (∃ account s', g.call lsq C.problem C.session = .ok account s' ∧
        ¬Trap C.operator tol delta (min count g.maxiter) C.rhs (C.unknownIn C.session)) ∨
      ∃ s', g.call lsq C.problem C.session = .error .divisionByZero s' ∧
        Trap C.operator tol delta (min count g.maxiter) C.rhs (C.unknownIn s')) ∧
    ((∀ C : ExactCall R, ∃ account s', g.call lsq C.problem C.session = .ok account s') ↔
      0 ≤ tol ∧ (0 ≤ delta ∨ count ≤ 1 ∨ g.maxiter ≤ 1)) := by
  have hends := call_ends htol hrestart hdelta hmaxiter hlsq
  refine ⟨hends, fun hreturns => ?_, fun ⟨htol_nonneg, hsafe⟩ C => ?_⟩
  · have hfree := fun C => not_trap_of_returns htol hrestart hdelta hmaxiter hlsq C (hreturns C)
    have htol_nonneg : 0 ≤ tol := by
      by_contra hneg
      exact hfree (.fresh LinearMap.id #v[1] #v[1])
        (.of_exact (not_le.mp hneg) point_one_ne_zero rfl)
    refine ⟨htol_nonneg, or_iff_not_imp_left.mpr fun hneg => ?_⟩
    by_contra hroom
    exact hfree (.fresh (shift (tol + 1)) #v[1, 0, 0] #v[0, 0, 1])
      (shift_trap htol_nonneg (not_le.mp hneg) (by omega))
  · rcases hends C with ⟨account, s', hreturned, -⟩ | ⟨_, -, htrap⟩
    · exact ⟨account, s', hreturned⟩
    · exact absurd htrap (not_trap htol_nonneg (hsafe.imp_right (by omega)))

/-- A tolerance for breakdowns that no breakdown meets. -/
theorem call_eager_divides :
    (∀ C : ExactCall ℝ,
      (∃ account s', Gmres.call ⟨.ok (1 / 2), .ok 3, 5, .ok (-1)⟩ LeastSquares.exact C.problem
          C.session = .ok account s' ∧
        ¬Trap C.operator (1 / 2) (-1) (min 3 5) C.rhs (C.unknownIn C.session)) ∨
      ∃ s', Gmres.call ⟨.ok (1 / 2), .ok 3, 5, .ok (-1)⟩ LeastSquares.exact C.problem C.session =
          .error .divisionByZero s' ∧
        Trap C.operator (1 / 2) (-1) (min 3 5) C.rhs (C.unknownIn s')) ∧
    ((∀ C : ExactCall ℝ, ∃ account s', Gmres.call ⟨.ok (1 / 2), .ok 3, 5, .ok (-1)⟩
        LeastSquares.exact C.problem C.session = .ok account s') ↔
      (0 : ℝ) ≤ 1 / 2 ∧ ((0 : ℝ) ≤ -1 ∨ 3 ≤ 1 ∨ 5 ≤ 1)) :=
  call_divides (g := ⟨.ok (1 / 2), .ok 3, 5, .ok (-1)⟩) rfl rfl rfl (Nat.succ_pos 4)
    LeastSquares.exact_minimises

/-- With a negative tolerance an exact solution is divided by the length of its residual. -/
theorem call_exact_start_divides :
    ∃ s', Gmres.call (R := ℝ) ⟨.ok (-1), .ok 20, 100, .ok (1 / 10 ^ 12)⟩ LeastSquares.exact
      (.fresh ((Component.plain ℝ).backend 1) (traced (applied LinearMap.id)))
      (.fresh #v[1] #v[1] []) = .error .divisionByZero s' := by
  have htrap : Trap LinearMap.id (-1) (1 / 10 ^ 12) (min 20 100) (point #v[1]) (point #v[1]) :=
    .of_exact (by norm_num) point_one_ne_zero rfl
  rcases call_ends (g := ⟨.ok (-1), .ok 20, 100, .ok (1 / 10 ^ 12)⟩) rfl rfl rfl (Nat.succ_pos 99)
    LeastSquares.exact_minimises (.fresh LinearMap.id #v[1] #v[1]) with
    ⟨_, _, -, hfree⟩ | ⟨s', hfailed, -⟩
  · exact absurd htrap hfree
  · exact ⟨s', hfailed⟩

end Gmres

end NewtonKrylov
