import NewtonKrylov.Proofs.Krylov.Responses
import NewtonKrylov.Proofs.Krylov.Termination
import NewtonKrylov.Proofs.Newton.Descent

/-!
# Affine residuals

On a residual `L x - c` the central difference is `L` itself, whatever its half-width
(`jacobian_affine`). So the direction is what GMRES makes of the equation with `L`, and where the range
and the kernel of `L` meet in zero only, it is as accurate as GMRES is asked to be, from whatever
direction it starts (`Newton.Damped.solver_run`). A step of `alpha` then leaves `1 - alpha` of the
residual and `alpha` times what the direction does not account for.

`Newton.run_contracts`: every iteration of a run contracts the residual by `|1 - alpha| + alpha t`, and
with `t = 0` the mean squares that are told decay with the powers of `(1 - alpha) ^ 2`.
-/

namespace NewtonKrylov

open Gmres (applied axisCross)

variable {R σ : Type} {d : Nat}
variable {L : EuclideanSpace ℝ (Fin d) →ₗ[ℝ] EuclideanSpace ℝ (Fin d)} {c : Vector ℝ d}

/-! ## The residual and its Jacobian -/

/-- The residual `L x - c`. -/
noncomputable def affine (L : EuclideanSpace ℝ (Fin d) →ₗ[ℝ] EuclideanSpace ℝ (Fin d))
    (c x : Vector ℝ d) : Vector ℝ d :=
  ((Component.plain ℝ).backend d).addScaled (applied L x) c (-1)

theorem point_affine (x : Vector ℝ d) : point (affine L c x) = L (point x) - point c := by
  rw [affine, (Component.plain_exact d).addScaled_eq, Gmres.point_applied, neg_one_smul,
    sub_eq_add_neg]

theorem affine_mem_range (hc : point c ∈ LinearMap.range L) (x : Vector ℝ d) :
    point (affine L c x) ∈ LinearMap.range L := by
  rw [point_affine]
  exact Submodule.sub_mem _ ⟨point x, rfl⟩ hc

theorem centralDifference_affine {e : ℝ} (he : 0 < e) (x v : Vector ℝ d) :
    centralDifference ((Component.plain ℝ).backend d) (fun y => pure (affine L c y)) x e v =
      (pure (applied L v) : Collab R σ (Vector ℝ d)) := by
  have hK := Component.plain_exact d
  have htwo : 2 * e ≠ 0 := (mul_pos two_pos he).ne'
  have hreciprocal : Scalar.reciprocal (R := R) (Scalar.ofNat 2 * e) = .ok (1 / (2 * e)) :=
    Scalar.reciprocal_real htwo
  have hvalue : ((Component.plain ℝ).backend d).scale
      (((Component.plain ℝ).backend d).addScaled
        (affine L c (((Component.plain ℝ).backend d).addScaled x v e))
        (affine L c (((Component.plain ℝ).backend d).addScaled x v (-e))) (-Scalar.ofNat 1))
      (1 / (2 * e)) = applied L v := by
    refine point_injective ?_
    rw [hK.scale_eq, hK.addScaled_eq, point_affine, point_affine, hK.addScaled_eq, hK.addScaled_eq,
      Gmres.point_applied, map_add, map_add, map_smul, map_smul, Scalar.ofNat_real, Nat.cast_one]
    calc (1 / (2 * e)) • (L (point x) + e • L (point v) - point c +
          (-1 : ℝ) • (L (point x) + -e • L (point v) - point c))
        = (1 / (2 * e)) • (2 * e) • L (point v) := by congr 1; module
      _ = L (point v) := by rw [smul_smul, one_div_mul_cancel htwo, one_smul]
  unfold centralDifference
  rw [hreciprocal]
  exact congrArg (pure (f := EStateM (Fault R) σ)) hvalue

theorem jacobian_affine {M : Method (Vector ℝ d) ℝ R σ} {e : ℝ} (he : 0 < e)
    (hhalf : M.halfWidth = .ok e) (x : Vector ℝ d) :
    M.jacobian ((Component.plain ℝ).backend d) (fun y => pure (affine L c y)) x =
      fun v => (pure (applied L v) : Collab R σ (Vector ℝ d)) := by
  funext v
  rw [Method.jacobian, hhalf]
  exact centralDifference_affine he x v

/-! ## One step -/

/-- What a step of `alpha` along a direction of relative accuracy `t` makes of the residual. -/
structure Contracted (L : EuclideanSpace ℝ (Fin d) →ₗ[ℝ] EuclideanSpace ℝ (Fin d)) (c : Vector ℝ d)
    (alpha t : ℝ) (x x' : Vector ℝ d) : Prop where
  norm_le : ‖point (affine L c x')‖ ≤ (|1 - alpha| + alpha * t) * ‖point (affine L c x)‖
  eq_of_exact : t = 0 → point (affine L c x') = (1 - alpha) • point (affine L c x)

theorem point_affine_step (x dx : Vector ℝ d) (alpha : ℝ) :
    point (affine L c (((Component.plain ℝ).backend d).addScaled x dx (-alpha))) =
      (1 - alpha) • point (affine L c x) + alpha • (point (affine L c x) - L (point dx)) := by
  rw [point_affine, point_affine, (Component.plain_exact d).addScaled_eq, map_add, map_smul]
  module

theorem contracted_of_misfit {alpha t : ℝ} (hpos : 0 < alpha) {x dx : Vector ℝ d}
    (h : ‖point (affine L c x) - L (point dx)‖ ≤ t * ‖point (affine L c x)‖) :
    Contracted L c alpha t x (((Component.plain ℝ).backend d).addScaled x dx (-alpha)) where
  norm_le := by
    rw [point_affine_step]
    calc ‖(1 - alpha) • point (affine L c x) + alpha • (point (affine L c x) - L (point dx))‖
        ≤ |1 - alpha| * ‖point (affine L c x)‖ +
          alpha * ‖point (affine L c x) - L (point dx)‖ := by
          refine (norm_add_le _ _).trans_eq ?_
          rw [norm_smul, norm_smul, Real.norm_eq_abs, Real.norm_of_nonneg hpos.le]
      _ ≤ |1 - alpha| * ‖point (affine L c x)‖ + alpha * (t * ‖point (affine L c x)‖) := by gcongr
      _ = (|1 - alpha| + alpha * t) * ‖point (affine L c x)‖ := by ring
  eq_of_exact := by
    rintro rfl
    rw [zero_mul] at h
    rw [point_affine_step, norm_le_zero_iff.mp h, smul_zero, add_zero]

namespace Newton

/-- Steps of the whole reach `alpha` along directions of GMRES. It has room for all of the space, gives
up none early and is asked for the relative accuracy `t`. -/
structure Damped [Magnitude R] (M : Method (Vector ℝ d) ℝ R σ) (g : Gmres ℝ R) (lsq : LeastSquares ℝ)
    (alpha t : ℝ) : Prop where
  halfWidth : ∃ e, 0 < e ∧ M.halfWidth = .ok e
  solver_eq : M.solver = g.solve lsq
  minimises : lsq.Minimises
  tol_eq : g.tol = .ok t
  tol_nonneg : 0 ≤ t
  room : ∃ count, d ≤ count ∧ g.restart = .ok count
  budget : d ≤ g.maxiter
  breakdown_eq : g.breakdownTol = .ok 0
  search_eq : ∃ budget, M.search = LineSearch.run ⟨.full, budget⟩
  reach_eq : M.reach.largest = .ok alpha
  reach_pos : 0 < alpha

variable {lsq : LeastSquares ℝ} {alpha t : ℝ} {w : Scratch} {x dx : Ref} {given : Option Ref}

section Steps

variable [Magnitude R] {P : NonlinearProblem (Vector ℝ d) ℝ R σ} {M : Method (Vector ℝ d) ℝ R σ}
variable {g : Gmres ℝ R} {s s' : Session (Vector ℝ d) ℝ R σ}

theorem Damped.search_inquiry (h : Damped M g lsq alpha t) :
    ∃ q : Inquiry ℝ R (Fault R) σ, ∀ profile, M.search profile M.reach = q.run Run.turn profile := by
  obtain ⟨budget, hsearch⟩ := h.search_eq
  refine ⟨LineSearch.inquiry ⟨.full, budget⟩ M.reach, fun profile => ?_⟩
  rw [hsearch]
  exact LineSearch.run_eq_inquiry _

theorem Damped.confined (h : Damped M g lsq alpha t) : M.solver.Confined :=
  h.solver_eq ▸ Gmres.solve_confined g lsq

variable (hdisjoint : Disjoint (LinearMap.range L) (LinearMap.ker L))
  (hc : point c ∈ LinearMap.range L) (hM : Damped M g lsq alpha t)
  (hbackend : P.backend = (Component.plain ℝ).backend d)
  (hresidual : P.residual = Residual.whole fun v => pure (affine L c v))
include hdisjoint hc hM hbackend hresidual

theorem Damped.solver_run (h : Settled w x dx s)
    (hrhs : s.store.read w.residual = affine L c (s.store.read x)) :
    ∃ s', M.solver (directionProblem P M w x dx) s = .ok () s' ∧
      s.Keeps {x, w.residual} s' ∧
      ‖point (affine L c (s.store.read x)) - L (point (s'.store.read dx))‖ ≤
        t * ‖point (affine L c (s.store.read x))‖ := by
  obtain ⟨e, he, hhalf⟩ := hM.halfWidth
  obtain ⟨count, hcount, hrestart⟩ := hM.room
  have hK : P.backend.Exact point := hbackend ▸ Component.plain_exact d
  have hrank : Module.finrank ℝ (LinearMap.range L) ≤ d :=
    (LinearMap.finrank_range_le L).trans_eq finrank_euclideanSpace_fin
  have hposed := directionProblem_posed (M := M) hresidual h.laid
  rw [hbackend, jacobian_affine he hhalf] at hposed
  obtain ⟨account, u, hrefine, -, hmet, -⟩ := Gmres.refine_solves hM.tol_eq hrestart hM.breakdown_eq
    hM.tol_nonneg hM.minimises hK (Gmres.point_applied L) hdisjoint (hrank.trans hcount)
    (hrank.trans hM.budget) (affine_mem_range hc (s.store.read x)) (s.store.read dx) []
  have hrun := Gmres.refine_of_traced (σ := σ) g lsq hrefine s.outside
  have hfollows := g.call_follows lsq (Supply.kept P.backend (workspace w x dx)) hposed h.apart
  have hrhs' : s.store.read (directionProblem P M w x dx).rhs = affine L c (s.store.read x) := hrhs
  rw [hrhs'] at hfollows
  obtain ⟨_, s', hcall, -, hvalue, -, hkeeps, -⟩ := hfollows.exists_ok hrun
  refine ⟨s', ?_, hkeeps, ?_⟩
  · rw [hM.solver_eq, Gmres.solve, bind_run_ok hcall]
    rfl
  · have hdx : s'.store.read dx = u.value := hvalue
    rw [hdx]
    exact hmet

/-- An update is made, and its step contracts the residual. -/
theorem Damped.update_run (h : Settled w x dx s)
    (hrhs : s.store.read w.residual = affine L c (s.store.read x)) (k : Nat) (err : R) :
    ∃ s', update P M w x dx k err s = .ok () s' ∧
      Contracted L c alpha t (s.store.read x) (s'.store.read x) := by
  obtain ⟨s₁, hsolver, hkeeps, hmet⟩ := hM.solver_run hdisjoint hc hbackend hresidual h hrhs
  obtain ⟨budget, hsearch⟩ := hM.search_eq
  have hx : s₁.store.read x = s.store.read x := hkeeps.read_eq x (Set.mem_insert x _)
  have hvalid : s₁.store.Valid x := hkeeps.valid (h.laid.valid x (by simp))
  have hlook : M.search (profile P w x dx) M.reach s₁ = .ok (alpha, none) s₁ := by
    rw [hsearch]
    simp only [LineSearch.run, hM.reach_eq]
    rfl
  have hupdate : update P M w x dx k err s =
      .ok () (Session.write { s₁ with log := s₁.log ++ [.update k err alpha none] } x
        (P.backend.addScaled (s₁.store.read x) (s₁.store.read dx) (-alpha))) := by
    unfold update
    rw [bind_run_ok hsolver, bind_run_ok hlook]
    rfl
  refine ⟨_, hupdate, ?_⟩
  rw [Session.store_write, Store.read_write_self hvalid, hx, hbackend]
  exact contracted_of_misfit hM.reach_pos hmet

omit hresidual

/-! ## Iterations -/

variable {m : Vector ℝ d → R} {notify : Option (R → Nat → Run (Vector ℝ d) ℝ R σ Bool)}
variable {s₀ s₁ : Session (Vector ℝ d) ℝ R σ} {n k : Nat} {last : Option R} {err : R}
variable (hP : Evaluates P (affine L c) m) (hquiet : Quiet notify)
include hP hquiet

theorem Damped.going (h : Passes P M notify w x dx s₀ k last s) (h₀ : Settled w x dx s₀)
    (hassess : assess P M notify w x (k + 1) s = .ok (err, none) s₁) :
    ∃ s', update P M w x dx (k + 1) err s₁ = .ok () s' ∧
      Contracted L c alpha t (s.store.read x) (s'.store.read x) := by
  obtain ⟨q, hsearch⟩ := hM.search_inquiry
  have hs := h.settled hP hM.confined hsearch hquiet h₀
  have halike := (assess_ends hP hquiet hs _).run_ok hassess
  have hx := assess_read hP hquiet hs hassess
  have hrhs : s₁.store.read w.residual = affine L c (s₁.store.read x) := by
    rw [hx, halike.store_eq, Session.store_write,
      Store.read_write_self (hs.laid.valid w.residual (by simp))]
  rw [← hx]
  exact hM.update_run hdisjoint hc hbackend hP.residual_eq (hs.of_alike halike) hrhs _ _

theorem Damped.reaches_next (hx : s.store.Valid x)
    (hgiven : ∀ dx ∈ given, s.store.Valid dx ∧ x ≠ dx) (hmax : M.maxiter = .ok n) (hk : k < n)
    (h : Reaches P M notify x given s k last s') :
    Assessed M notify (k + 1) (m (affine L c (s'.store.read x))) (run P M notify x given s) ∨
      ∃ s'', Reaches P M notify x given s (k + 1) (some (m (affine L c (s'.store.read x)))) s'' ∧
        Contracted L c alpha t (s'.store.read x) (s''.store.read x) := by
  obtain ⟨w, s₀, hopening, hopened⟩ := opening_run P hx hgiven
  obtain ⟨q, hsearch⟩ := hM.search_inquiry
  have hpasses := h.passes hopening
  have h₀ : Settled w x (directionAt given s) s₀ := ⟨hopened.laid, hopened.apart⟩
  rw [run_eq_reported notify hopening hmax]
  refine (hpasses.assessed_or_going hP hM.confined hsearch hquiet h₀ hk).imp_right ?_
  rintro ⟨s₁, hassess⟩
  obtain ⟨s'', hupdate, hcontracted⟩ := hM.going hdisjoint hc hbackend hP hquiet hpasses h₀ hassess
  exact ⟨s'', ⟨w, _, s₀, n, hopening, hmax, hk, hpasses.next hassess hupdate⟩, hcontracted⟩

end Steps

/-! ## The norms of a run -/

section Norms

/-- The mean squares of the residuals of the first `k` iterations, where a step leaves `1 - alpha` of a
residual and `q` is the first one. -/
noncomputable def decay (alpha q : ℝ) (k : Nat) : List (Nat × Extended) :=
  (List.range k).map fun i => (i + 1, .number ↑((1 - alpha) ^ (2 * i) * q))

theorem decay_succ (alpha q : ℝ) (k : Nat) :
    decay alpha q (k + 1) = decay alpha q k ++ [(k + 1, .number ↑((1 - alpha) ^ (2 * k) * q))] := by
  rw [decay, List.range_succ, List.map_append]
  rfl

theorem meanSquare_eq (v : Vector ℝ d) :
    ((Component.plain ℝ).backend d).meanSquare v = ‖point v‖ ^ 2 / d := by
  rw [Backend.meanSquare, (Component.plain_exact d).dot_eq, real_inner_self_eq_norm_sq]
  rfl

theorem meanSquare_of_smul {u v : Vector ℝ d} {a : ℝ} {k : Nat} (h : point v = a ^ k • point u) :
    ((Component.plain ℝ).backend d).meanSquare v =
      a ^ (2 * k) * ((Component.plain ℝ).backend d).meanSquare u := by
  rw [meanSquare_eq, meanSquare_eq, h, norm_smul, mul_pow, Real.norm_eq_abs, sq_abs, ← pow_mul,
    mul_comm k, mul_div_assoc]

variable {P : NonlinearProblem (Vector ℝ d) ℝ Extended σ}
variable {M : Method (Vector ℝ d) ℝ Extended σ} {g : Gmres ℝ Extended}
variable {m : Vector ℝ d → Extended} {callback : Option (Callback Extended σ)}
variable {s₀ s : Session (Vector ℝ d) ℝ Extended σ} {k n : Nat} {last : Option Extended}

/-- Between iterations: the norms told, and the residual at the iterate. -/
structure Decaying (L : EuclideanSpace ℝ (Fin d) →ₗ[ℝ] EuclideanSpace ℝ (Fin d)) (c : Vector ℝ d)
    (alpha : ℝ) (x : Ref) (s₀ : Session (Vector ℝ d) ℝ Extended σ) (k : Nat)
    (s : Session (Vector ℝ d) ℝ Extended σ) : Prop where
  history_eq : s.history = s₀.history ++
    decay alpha (((Component.plain ℝ).backend d).meanSquare (affine L c (s₀.store.read x))) k
  residual_eq : point (affine L c (s.store.read x)) =
    (1 - alpha) ^ k • point (affine L c (s₀.store.read x))

variable (hdisjoint : Disjoint (LinearMap.range L) (LinearMap.ker L))
  (hc : point c ∈ LinearMap.range L) (hM : Damped M g lsq alpha 0)
  (hbackend : P.backend = (Component.plain ℝ).backend d) (hP : Evaluates P (affine L c) m)
  (hmeasure : ∀ v, m v = .number ↑(((Component.plain ℝ).backend d).meanSquare v))

include hmeasure in
theorem Decaying.tell (h : Decaying L c alpha x s₀ k s) {s' : Session (Vector ℝ d) ℝ Extended σ}
    (hs' : s'.history = s.history ++ [(k + 1, m (affine L c (s.store.read x)))]) :
    s'.history = s₀.history ++
      decay alpha (((Component.plain ℝ).backend d).meanSquare (affine L c (s₀.store.read x)))
        (k + 1) := by
  rw [hs', h.history_eq, hmeasure, meanSquare_of_smul h.residual_eq, decay_succ, List.append_assoc]

include hdisjoint hc hM hbackend hP hmeasure in
theorem Passes.decaying (h : Passes P M (some (recording callback)) w x dx s₀ k last s)
    (h₀ : Settled w x dx s₀) : Decaying L c alpha x s₀ k s := by
  obtain ⟨q, hsearch⟩ := hM.search_inquiry
  have hquiet := quiet_recording (V := Vector ℝ d) (S := ℝ) callback
  induction h with
  | start => exact ⟨(List.append_nil _).symm, by rw [pow_zero, one_smul]⟩
  | next h hassess hupdate ih =>
    rename_i k last s s₁ s' err
    have hs := h.settled hP hM.confined hsearch hquiet h₀
    have htold := ih.tell hmeasure
      ((assess_told hP (hs.laid.valid w.residual (by simp)) callback _).run_ok hassess)
    have h₁ := hs.of_alike ((assess_ends hP hquiet hs _).run_ok hassess)
    have hupdated := (update_ends hP.residual_eq hM.confined hsearch h₁ _ _).run_ok hupdate
    obtain ⟨_, hgoing, hcontracted⟩ := hM.going hdisjoint hc hbackend hP hquiet h h₀ hassess
    obtain ⟨-, rfl⟩ := EStateM.Result.ok.inj (hupdate.symm.trans hgoing)
    refine ⟨hupdated.history_eq.trans htold, ?_⟩
    rw [hcontracted.eq_of_exact rfl, ih.residual_eq, smul_smul, ← pow_succ']

variable (callback) in
include hdisjoint hc hM hbackend hP hmeasure in
/-- All norms that are told decay, however the iterations end. -/
theorem iterations_decay (h₀ : Settled w x dx s₀) (n : Nat) :
    Ends
      (fun _ s' => ∃ k ≤ n, s'.history = s₀.history ++
        decay alpha (((Component.plain ℝ).backend d).meanSquare (affine L c (s₀.store.read x))) k)
      (fun s' => ∃ k ≤ n, s'.history = s₀.history ++
        decay alpha (((Component.plain ℝ).backend d).meanSquare (affine L c (s₀.store.read x))) k)
      (iterations P M (some (recording callback)) w x dx n 0 none) s₀ := by
  obtain ⟨q, hsearch⟩ := hM.search_inquiry
  have hquiet := quiet_recording (V := Vector ℝ d) (S := ℝ) callback
  unfold Ends
  rcases iterations_cases n s₀ with ⟨last, s', hpasses, hiter⟩ | ⟨k, last, s, hk, hpasses, hcloses⟩
  · rw [hiter]
    exact ⟨n, le_rfl, (hpasses.decaying hdisjoint hc hM hbackend hP hmeasure h₀).history_eq⟩
  have hdecaying := hpasses.decaying hdisjoint hc hM hbackend hP hmeasure h₀
  have hs := hpasses.settled hP hM.confined hsearch hquiet h₀
  have htold := assess_told (M := M) (x := x) hP (hs.laid.valid w.residual (by simp)) callback (k + 1)
  generalize iterations P M (some (recording callback)) w x dx n 0 none s₀ = r at hcloses
  cases hcloses with
  | ended hassess => exact ⟨k + 1, hk, hdecaying.tell hmeasure (htold.run_ok hassess)⟩
  | refused hassess =>
    rcases htold.run_error hassess with hhistory | hhistory
    · exact ⟨k, hk.le, hhistory.trans hdecaying.history_eq⟩
    · exact ⟨k + 1, hk, hdecaying.tell hmeasure hhistory⟩
  | broken hassess hupdate =>
    obtain ⟨_, hgoing, -⟩ := hM.going hdisjoint hc hbackend hP hquiet hpasses h₀ hassess
    exact nomatch hupdate.symm.trans hgoing

end Norms

/-! ## Affine problems -/

/-- The runs of a damped method on an affine residual. An iteration that is begun ends the run by its
assessment or is completed, and what is left of the residual then is at most `|1 - alpha| + alpha t` of
it, and exactly `1 - alpha` of it if GMRES has no tolerance. Then the mean squares that are told are the
first one times the powers of `(1 - alpha) ^ 2`. -/
theorem run_contracts (hdisjoint : Disjoint (LinearMap.range L) (LinearMap.ker L))
    (hc : point c ∈ LinearMap.range L) {M : Method (Vector ℝ d) ℝ Extended σ} {g : Gmres ℝ Extended}
    (hM : Damped M g lsq alpha t) {n : Nat} (hmax : M.maxiter = .ok n)
    (measure : Vector ℝ d → Extended)
    {notify : Option (Extended → Nat → Run (Vector ℝ d) ℝ Extended σ Bool)} (hquiet : Quiet notify)
    {s : Session (Vector ℝ d) ℝ Extended σ} (hx : s.store.Valid x)
    (hgiven : ∀ dx ∈ given, s.store.Valid dx ∧ x ≠ dx) :
    (∃ s₀, Reaches (exactProblem (affine L c) measure) M notify x given s 0 none s₀ ∧
      s₀.store.read x = s.store.read x) ∧
    (∀ k last s', k < n →
      Reaches (exactProblem (affine L c) measure) M notify x given s k last s' →
      Assessed M notify (k + 1) (measure (affine L c (s'.store.read x)))
          (run (exactProblem (affine L c) measure) M notify x given s) ∨
        ∃ s'', Reaches (exactProblem (affine L c) measure) M notify x given s (k + 1)
            (some (measure (affine L c (s'.store.read x)))) s'' ∧
          Contracted L c alpha t (s'.store.read x) (s''.store.read x)) ∧
    (t = 0 → (∀ v, measure v = .number ↑(((Component.plain ℝ).backend d).meanSquare v)) →
      ∀ callback, notify = some (recording callback) →
      Ends
        (fun _ s' => ∃ k ≤ n, s'.history = s.history ++
          decay alpha (((Component.plain ℝ).backend d).meanSquare (affine L c (s.store.read x))) k)
        (fun s' => ∃ k ≤ n, s'.history = s.history ++
          decay alpha (((Component.plain ℝ).backend d).meanSquare (affine L c (s.store.read x))) k)
        (run (exactProblem (affine L c) measure) M notify x given) s) := by
  have hP : Evaluates (exactProblem (σ := σ) (affine L c) measure) (affine L c) measure := ⟨rfl, rfl⟩
  obtain ⟨w, s₀, hopening, hopened⟩ := opening_run (exactProblem (affine L c) measure) hx hgiven
  have hread : s₀.store.read x = s.store.read x := hopened.keeps.read_eq x hx
  refine ⟨⟨s₀, ⟨w, _, s₀, n, hopening, hmax, n.zero_le, .start⟩, hread⟩, fun k last s' hk h => ?_, ?_⟩
  · exact hM.reaches_next hdisjoint hc rfl hP hquiet hx hgiven hmax hk h
  rintro rfl hmeasure callback rfl
  have hdecay := iterations_decay callback hdisjoint hc hM rfl hP hmeasure
    ⟨hopened.laid, hopened.apart⟩ n
  rw [hread, hopened.keeps.history_eq] at hdecay
  have hrun := run_eq_reported (some (recording callback)) hopening hmax
  cases hiter : iterations (exactProblem (affine L c) measure) M (some (recording callback)) w x
      (directionAt given s) n 0 none s₀ with
  | ok ending s' =>
    have hhistory := hdecay.run_ok hiter
    rw [hiter] at hrun
    exact Ends.of_ok hrun hhistory
  | error e s' =>
    rw [hiter] at hrun
    exact Ends.of_error hrun (hdecay.run_error hiter)

/-- Steps of `alpha` along directions that GMRES makes exact. -/
noncomputable def stepMethod (alpha : ℝ) : Method (Vector ℝ 3) ℝ Extended Unit where
  accepts _ := false
  maxiter := .ok 4
  reach := .upTo alpha
  halfWidth := .ok 1
  solver := Gmres.solve ⟨.ok 0, .ok 3, 3, .ok 0⟩ LeastSquares.exact
  search := LineSearch.run ⟨.full, .ok 0⟩
  checkFinite := true

theorem stepMethod_damped {alpha : ℝ} (hpos : 0 < alpha) :
    Damped (stepMethod alpha) ⟨.ok 0, .ok 3, 3, .ok 0⟩ LeastSquares.exact alpha 0 where
  halfWidth := ⟨1, one_pos, rfl⟩
  solver_eq := rfl
  minimises := LeastSquares.exact_minimises
  tol_eq := rfl
  tol_nonneg := le_rfl
  room := ⟨3, le_rfl, rfl⟩
  budget := le_rfl
  breakdown_eq := rfl
  search_eq := ⟨.ok 0, rfl⟩
  reach_eq := rfl
  reach_pos := hpos

def spaceSession (u v : Vector ℝ 3) : Session (Vector ℝ 3) ℝ Extended Unit where
  store := (({} : Store (Vector ℝ 3)).push "x" u).push "dx" v
  outside := ()

/-- The problem `a × x = c` for a vector `a` along an axis, measured by the mean square. -/
noncomputable def axisProblem (c : Vector ℝ 3) : NonlinearProblem (Vector ℝ 3) ℝ Extended Unit :=
  exactProblem (affine axisCross c) fun v => .number ↑(((Component.plain ℝ).backend 3).meanSquare v)

theorem run_axisCross_contracts :
    (∃ s₀, Reaches (axisProblem (applied axisCross #v[1, 2, 0])) (stepMethod (1 / 2))
        (some (recording none)) ⟨0⟩ (some ⟨1⟩) (spaceSession #v[3, 0, 5] #v[0, 0, 7]) 0 none s₀ ∧
      s₀.store.read ⟨0⟩ = #v[3, 0, 5]) ∧
    (∀ k last s', k < 4 →
      Reaches (axisProblem (applied axisCross #v[1, 2, 0])) (stepMethod (1 / 2))
        (some (recording none)) ⟨0⟩ (some ⟨1⟩) (spaceSession #v[3, 0, 5] #v[0, 0, 7]) k last s' →
      Assessed (stepMethod (1 / 2)) (some (recording none)) (k + 1)
          (.number ↑(((Component.plain ℝ).backend 3).meanSquare
            (affine axisCross (applied axisCross #v[1, 2, 0]) (s'.store.read ⟨0⟩))))
          (run (axisProblem (applied axisCross #v[1, 2, 0])) (stepMethod (1 / 2))
            (some (recording none)) ⟨0⟩ (some ⟨1⟩) (spaceSession #v[3, 0, 5] #v[0, 0, 7])) ∨
        ∃ s'', Reaches (axisProblem (applied axisCross #v[1, 2, 0])) (stepMethod (1 / 2))
            (some (recording none)) ⟨0⟩ (some ⟨1⟩) (spaceSession #v[3, 0, 5] #v[0, 0, 7]) (k + 1)
            (some (.number ↑(((Component.plain ℝ).backend 3).meanSquare
              (affine axisCross (applied axisCross #v[1, 2, 0]) (s'.store.read ⟨0⟩))))) s'' ∧
          Contracted axisCross (applied axisCross #v[1, 2, 0]) (1 / 2) 0 (s'.store.read ⟨0⟩)
            (s''.store.read ⟨0⟩)) ∧
    Ends
      (fun _ s' => ∃ k ≤ 4, s'.history = decay (1 / 2)
        (((Component.plain ℝ).backend 3).meanSquare
          (affine axisCross (applied axisCross #v[1, 2, 0]) #v[3, 0, 5])) k)
      (fun s' => ∃ k ≤ 4, s'.history = decay (1 / 2)
        (((Component.plain ℝ).backend 3).meanSquare
          (affine axisCross (applied axisCross #v[1, 2, 0]) #v[3, 0, 5])) k)
      (run (axisProblem (applied axisCross #v[1, 2, 0])) (stepMethod (1 / 2)) (some (recording none))
        ⟨0⟩ (some ⟨1⟩)) (spaceSession #v[3, 0, 5] #v[0, 0, 7]) := by
  have hc : point (applied axisCross #v[1, 2, 0]) ∈ LinearMap.range axisCross :=
    ⟨_, (Gmres.point_applied axisCross _).symm⟩
  have hx : (spaceSession #v[3, 0, 5] #v[0, 0, 7]).store.Valid ⟨0⟩ := Nat.zero_lt_two
  obtain ⟨hstart, hstep, hdecay⟩ := run_contracts Gmres.disjoint_axisCross hc
    (stepMethod_damped one_half_pos) rfl
    (fun v => .number ↑(((Component.plain ℝ).backend 3).meanSquare v)) (quiet_recording none) hx
    (given_second Nat.one_lt_two)
  exact ⟨hstart, hstep, hdecay rfl (fun _ => rfl) none rfl⟩

end Newton

end NewtonKrylov
