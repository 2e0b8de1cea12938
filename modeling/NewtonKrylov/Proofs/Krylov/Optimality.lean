import NewtonKrylov.Proofs.Krylov.Places
import NewtonKrylov.Proofs.Krylov.Termination

/-!
# The least residual on a Krylov space

In exact arithmetic the basis that a cycle builds from a residual `r` spans the spaces
`r, L r, …, L ^ (k - 1) r` one after the other (`krylov`, `Climbing`). So each step leaves the least
residual on its space (`Best`), and the unknown that a cycle leads to has that residual
(`Optimal`), however the cycle ends. `Gmres.call_optimal` says so for every cycle of a call.
-/

namespace NewtonKrylov

open scoped InnerProductSpace

variable {V E : Type} [NormedAddCommGroup E] [InnerProductSpace ℝ E]

/-! ## Krylov spaces -/

/-- The space that `r` and its first images span, `k` vectors in all. -/
def krylov (L : E →ₗ[ℝ] E) (r : E) (k : Nat) : Submodule ℝ E :=
  Submodule.span ℝ (Set.range fun j : Fin k => (L ^ (j : Nat)) r)

section Krylov

variable {L : E →ₗ[ℝ] E} {r : E}

theorem krylov_mono {k k' : Nat} (h : k ≤ k') : krylov L r k ≤ krylov L r k' := by
  refine Submodule.span_mono ?_
  rintro _ ⟨j, rfl⟩
  exact ⟨Fin.castLE h j, rfl⟩

theorem mem_krylov_one : r ∈ krylov L r 1 := Submodule.subset_span ⟨0, rfl⟩

theorem krylov_zero : krylov L r 0 = ⊥ := by
  rw [krylov, Set.range_eq_empty, Submodule.span_empty]

theorem map_mem_krylov {k : Nat} {x : E} (hx : x ∈ krylov L r k) : L x ∈ krylov L r (k + 1) := by
  suffices hle : krylov L r k ≤ (krylov L r (k + 1)).comap L from hle hx
  refine Submodule.span_le.mpr ?_
  rintro _ ⟨j, rfl⟩
  refine Submodule.subset_span ⟨j.succ, ?_⟩
  show (L ^ (j + 1 : Nat)) r = L ((L ^ (j : Nat)) r)
  rw [pow_succ', Module.End.mul_apply]

instance (k : Nat) : FiniteDimensional ℝ (krylov L r k) :=
  FiniteDimensional.span_of_finite ℝ (Set.finite_range _)

theorem finrank_krylov_le (k : Nat) : Module.finrank ℝ (krylov L r k) ≤ k :=
  (finrank_range_le_card _).trans_eq (Fintype.card_fin k)

end Krylov

namespace Gmres

variable [Inhabited V] {K : Backend ℝ V} {e : V → E} {L : E →ₗ[ℝ] E} {r : E} {beta : ℝ}
variable {c : Cycle V ℝ} {vs : List V} {q : E} {lsq : LeastSquares ℝ}

/-! ## What a cycle attains -/

/-- The residual is the least on the Krylov space that there are columns for. -/
def Best {B : Type} (L : E →ₗ[ℝ] E) (r : E) (c : Cycle B ℝ) : Prop :=
  IsLeast ((fun z => ‖r - L z‖) '' krylov L r c.columns.size) c.residual

omit [Inhabited V] in
theorem Best.residual_anti {B : Type} {c c' : Cycle B ℝ} (h : Best L r c) (h' : Best L r c')
    (hsize : c.columns.size ≤ c'.columns.size) : c'.residual ≤ c.residual :=
  h.mono h' (Set.image_mono (krylov_mono hsize))

theorem Best.start {B : Type} (v : B) (spent : Nat) : Best L r (Cycle.start v ‖r‖ spent) := by
  have hspace : ((krylov L r (Cycle.start v ‖r‖ spent).columns.size : Submodule ℝ E) : Set E) = {0} :=
    congrArg _ krylov_zero
  rw [Best, hspace, Set.image_singleton, map_zero, sub_zero]
  exact isLeast_singleton

/-- The basis vectors are in the Krylov spaces, each in the one of its place. -/
def Generated (e : V → E) (L : E →ₗ[ℝ] E) (r : E) (vs : List V) : Prop :=
  ∀ i < vs.length, e (vs.getD i default) ∈ krylov L r (i + 1)

theorem Generated.mem (h : Generated e L r vs) {k : Nat} (hk : vs.length ≤ k) :
    ∀ v ∈ vs, e v ∈ krylov L r k := by
  intro v hv
  obtain ⟨i, hi, rfl⟩ := List.mem_iff_getElem.mp hv
  rw [← List.getD_eq_getElem _ default hi]
  exact krylov_mono (by omega) (h i hi)

theorem Generated.of_initial {us : List V} (h : Generated e L r vs) (hus : us <+: vs) :
    Generated e L r us := by
  obtain ⟨rest, rfl⟩ := hus
  intro i hi
  have hmem := h i (by rw [List.length_append]; omega)
  rwa [List.getD_append _ _ _ _ hi] at hmem

theorem Generated.concat {v : V} (h : Generated e L r vs) (hv : e v ∈ krylov L r (vs.length + 1)) :
    Generated e L r (vs ++ [v]) := by
  intro i hi
  rw [List.length_append, List.length_singleton] at hi
  rcases Nat.lt_succ_iff_lt_or_eq.mp hi with hlt | rfl
  · rw [List.getD_append _ _ _ _ hlt]
    exact h i hlt
  · rw [List.getD_append_right _ _ _ _ le_rfl, Nat.sub_self]
    exact hv

variable {W : Submodule ℝ E}

/-- As many orthonormal vectors as the Krylov space has room for span it. -/
theorem Built.space_eq (h : Built e L W r beta c vs q) (hgenerated : Generated e L r vs) :
    space e c vs = krylov L r c.columns.size := by
  have hle : space e c vs ≤ krylov L r c.columns.size := by
    refine Submodule.span_le.mpr ?_
    rintro _ ⟨j, rfl⟩
    exact hgenerated.mem h.length_eq.le _ (getD_mem (j.2.trans_eq h.length_eq.symm))
  have hindependent : LinearIndependent ℝ fun j : Fin c.columns.size => e (vs.getD j default) := by
    have hget : (fun j : Fin c.columns.size => e (vs.getD j default)) =
        (fun i : Fin vs.length => e vs[i]) ∘ Fin.cast h.length_eq.symm := by
      funext j
      exact congrArg e (List.getD_eq_getElem _ _ (j.2.trans_eq h.length_eq.symm))
    rw [hget]
    exact h.orthonormal.orthonormal.linearIndependent.comp _ (Fin.cast_injective _)
  refine Submodule.eq_of_le_of_finrank_le hle ((finrank_krylov_le _).trans_eq ?_)
  rw [space, finrank_span_eq_card hindependent, Fintype.card_fin]

theorem Built.best (h : Built e L W r beta c vs q) (hsolved : Solved lsq beta c)
    (hlsq : lsq.Minimises) (hgenerated : Generated e L r vs) : Best L r c := by
  rw [Best, ← h.space_eq hgenerated]
  constructor
  · rw [hsolved.residual_eq, ← h.norm_residual]
    refine ⟨_, Submodule.sum_mem _ fun j hj => Submodule.smul_mem _ _ ?_, rfl⟩
    exact Submodule.subset_span ⟨⟨j, Finset.mem_range.mp hj⟩, rfl⟩
  · rintro _ ⟨z, hz, rfl⟩
    obtain ⟨y, rfl⟩ := exists_coefficients hz
    dsimp only
    rw [h.norm_residual, hsolved.residual_eq]
    exact hlsq _ _ _ _

/-- The unknown that a cycle leads to, from a start whose residual is `r`: it is reached within the Krylov
space, and the cycle knows the residual there, which is the least one. -/
structure Optimal (K : Backend ℝ V) (e : V → E) (L : E →ₗ[ℝ] E) (r : E) (c : Cycle V ℝ) : Prop where
  best : Best L r c
  reached : ∀ x, e (combination K x c.basis c.coefficients) - e x ∈ krylov L r c.columns.size
  residual_eq : ∀ b x, r = b - L (e x) →
    ‖b - L (e (combination K x c.basis c.coefficients))‖ = c.residual

theorem Built.optimal (h : Built e L W r beta c vs q) (hsolved : Solved lsq beta c)
    (hlsq : lsq.Minimises) (hK : K.Exact e) (hgenerated : Generated e L r c.basis) :
    Optimal K e L r c where
  best := h.best hsolved hlsq (hgenerated.of_initial h.initial)
  reached := by
    intro x
    rw [h.combination_eq hK hsolved, add_sub_cancel_left]
    refine Submodule.sum_mem _ fun j hj => Submodule.smul_mem _ _ ?_
    have hj := Finset.mem_range.mp hj
    exact krylov_mono hj (hgenerated.of_initial h.initial j (hj.trans_eq h.length_eq.symm))
  residual_eq := fun _ _ hr => h.residual_eq hK hsolved hr

/-! ## Steps -/

/-- Between the steps of a cycle, with `v` as the last basis vector. -/
structure Climbing (e : V → E) (L : E →ₗ[ℝ] E) (r : E) (beta : ℝ) (v : V) (c : Cycle V ℝ) : Prop where
  arnoldi : Arnoldi e L ⊤ r beta c
  last : v = c.basis.getD c.columns.size default
  generated : Generated e L r c.basis

section Step

variable {R : Type} {g : Gmres ℝ R} {a : V → V} {delta target : ℝ} {v : V}

theorem advance_mem (hdelta : g.breakdownTol = .ok delta) (hK : K.Exact e) {trace trace' : List V}
    {c' : Cycle V ℝ} {next : Option V} {W : Submodule ℝ E} (hv : e (a v) ∈ W)
    (hbasis : ∀ u ∈ c.basis, e u ∈ W)
    (h : advance g lsq K (traced a) beta target v c trace = .ok (c', next) trace') :
    c'.basis = c.basis ++ next.toList ∧ ∀ v' ∈ next, e v' ∈ W := by
  rw [advance_run hdelta] at h
  dsimp only at h
  split at h
  · obtain ⟨heq, -⟩ := pure_eq_ok h
    cases heq
    exact ⟨(List.append_nil _).symm, nofun⟩
  · obtain ⟨d, trace₁, hdemand, h⟩ := bind_eq_ok h
    obtain ⟨heq, -⟩ := pure_eq_ok h
    cases heq
    refine ⟨rfl, ?_⟩
    rintro _ ⟨⟩
    rw [hK.scale_eq]
    exact W.smul_mem _ (project_mem hK _ hv hbasis)

variable (hdelta : g.breakdownTol = .ok delta) (hnonneg : 0 ≤ delta) (hlsq : lsq.Minimises)
  (hK : K.Exact e) (hL : ∀ v, e (a v) = L (e v))
include hdelta hnonneg hlsq hK hL

omit hnonneg hlsq in
theorem Climbing.generated_advance (h : Climbing e L r beta v c) {trace trace' : List V}
    {c' : Cycle V ℝ} {next : Option V}
    (hrun : Gmres.advance g lsq K (traced a) beta target v c trace = .ok (c', next) trace') :
    Generated e L r c'.basis := by
  have hlength := h.arnoldi.length_eq
  have hv : e (a v) ∈ krylov L r (c.basis.length + 1) := by
    rw [hL, hlength, h.last]
    exact map_mem_krylov (h.generated _ (hlength ▸ Nat.lt_succ_self _))
  obtain ⟨hbasis, hnext⟩ := advance_mem hdelta hK hv (h.generated.mem (Nat.le_succ _)) hrun
  rw [hbasis]
  cases next with
  | none => exact (List.append_nil c.basis).symm ▸ h.generated
  | some v' => exact h.generated.concat (hnext v' rfl)

/-- A step leaves the least residual on the next Krylov space. -/
theorem Climbing.advance (h : Climbing e L r beta v c) (target : ℝ) (trace : List V) :
    ∃ c' next, advance g lsq K (traced a) beta target v c trace = .ok (c', next) (trace ++ [v]) ∧
      c'.spent = c.spent + 1 ∧ c'.columns.size = c.columns.size + 1 ∧ Optimal K e L r c' ∧
      ∀ v' ∈ next, Climbing e L r beta v' c' := by
  obtain ⟨c', next, hrun, hspent, hsize, hsolved, houtcome⟩ :=
    advance_spec lsq hdelta hnonneg hK hL (fun _ => Submodule.mem_top) h.arnoldi h.last target trace
  have hgenerated := h.generated_advance hdelta hK hL hrun
  refine ⟨c', next, hrun, hspent, hsize, ?_, ?_⟩
  · rcases houtcome with ⟨-, -, -, harnoldi⟩ | ⟨-, vs, q, hbuilt, -⟩
    · exact (harnoldi.built (hsize ▸ Nat.succ_pos _)).optimal hsolved hlsq hK hgenerated
    · exact hbuilt.optimal hsolved hlsq hK hgenerated
  · rintro v' ⟨⟩
    rcases houtcome with ⟨v'', hsome, hlast, harnoldi⟩ | ⟨hnone, -⟩
    · obtain rfl := Option.some.inj hsome
      exact ⟨harnoldi, hlast, hgenerated⟩
    · exact nomatch hnone

end Step

theorem Climbing.first (hK : K.Exact e) {u : V} (hu : K.length u ≠ 0) (spent : Nat) :
    Climbing e L (e u) (K.length u) (K.scale u (1 / K.length u))
      (Cycle.start (K.scale u (1 / K.length u)) (K.length u) spent) where
  arnoldi := .first hK hu Submodule.mem_top spent
  last := rfl
  generated := by
    intro i hi
    obtain rfl : i = 0 := Nat.lt_one_iff.mp hi
    show e (K.scale u (1 / K.length u)) ∈ krylov L (e u) 1
    rw [hK.scale_eq]
    exact Submodule.smul_mem _ _ mem_krylov_one

/-! ## Cycles in place -/

/-- What the steps build that follow a cycle `c`: one column each, and the least residuals. -/
structure Ladder {B : Type} (L : E →ₗ[ℝ] E) (r : E) (c : Cycle B ℝ) (cs : List (Cycle B ℝ)) : Prop where
  best : ∀ c' ∈ cs, Best L r c'
  sizes : cs.map (fun c' => c'.columns.size) = List.range' (c.columns.size + 1) cs.length
  size_eq : (cs.getLastD c).columns.size = c.columns.size + cs.length

namespace Ladder

variable {B : Type} {c c' : Cycle B ℝ} {cs : List (Cycle B ℝ)}

omit [Inhabited V] in
theorem nil (L : E →ₗ[ℝ] E) (r : E) (c : Cycle B ℝ) : Ladder L r c [] := ⟨nofun, rfl, rfl⟩

omit [Inhabited V] in
theorem cons (h : Ladder L r c' cs) (hbest : Best L r c')
    (hsize : c'.columns.size = c.columns.size + 1) : Ladder L r c (c' :: cs) where
  best := List.forall_mem_cons.mpr ⟨hbest, h.best⟩
  sizes := by rw [List.map_cons, h.sizes, hsize, List.length_cons, List.range'_succ]
  size_eq := by
    rw [List.getLastD_cons, h.size_eq, hsize, List.length_cons]
    omega

omit [Inhabited V] in
theorem falling (h : Ladder L r c cs) (hc : Best L r c) :
    (c.residual :: cs.map Cycle.residual).Pairwise (· ≥ ·) := by
  have hsizes : ((c :: cs).map fun c' => c'.columns.size).Pairwise (· ≤ ·) := by
    rw [List.map_cons, h.sizes, ← List.range'_succ]
    exact List.pairwise_le_range'
  rw [← List.map_cons, List.pairwise_map]
  refine (List.pairwise_map.mp hsizes).imp_of_mem fun ha hb hle => ?_
  have hbest : ∀ c' ∈ c :: cs, Best L r c' := List.forall_mem_cons.mpr ⟨hc, h.best⟩
  exact (hbest _ ha).residual_anti (hbest _ hb) hle

end Ladder

/-- A cycle of a call for `A x = b` in exact arithmetic. -/
structure Round.Exact (e : V → E) (L : E →ₗ[ℝ] E) (b : E) (ρ : Round V ℝ) : Prop where
  beta_eq : ρ.beta = ‖b - L (e ρ.start)‖
  reached : e ρ.finish - e ρ.start ∈ krylov L (b - L (e ρ.start)) ρ.steps
  least : IsLeast ((fun z => ‖b - L (e ρ.start) - L z‖) '' krylov L (b - L (e ρ.start)) ρ.steps)
    ρ.residual
  residual_eq : ρ.residual = ‖b - L (e ρ.finish)‖
  falling : ρ.residuals.Pairwise (· ≥ ·)

omit [Inhabited V] in
theorem Round.Exact.idle {b : E} {x : V} (h : beta = ‖b - L (e x)‖) :
    Round.Exact e L b ⟨x, beta, [], x⟩ where
  beta_eq := h
  reached := by
    rw [sub_self]
    exact Submodule.zero_mem _
  least := h ▸ Best.start (L := L) x 0
  residual_eq := h
  falling := List.pairwise_singleton _ _

theorem Round.Exact.of_ladder {b : E} {x : V} {v : Ref} {spent : Nat} {c : Cycle Ref ℝ}
    {cs : List (Cycle Ref ℝ)} {store : Store V} (hbeta : beta = ‖b - L (e x)‖)
    (hladder : Ladder L (b - L (e x)) (Cycle.start v beta spent) cs) (hcs : cs ≠ [])
    (hc : cs.getLastD (Cycle.start v beta spent) = c)
    (hoptimal : Optimal K e L (b - L (e x)) (c.valued store)) :
    Round.Exact e L b
      ⟨x, beta, cs, combination K x (c.basis.map store.read) c.coefficients⟩ := by
  have hsize : c.columns.size = cs.length := hc ▸ hladder.size_eq.trans (Nat.zero_add _)
  have hresidual : cs.getLast?.elim beta Cycle.residual = c.residual := by
    rw [getLast?_eq_getLastD hcs (Cycle.start v beta spent), hc]
    rfl
  refine ⟨hbeta, ?_, ?_, ?_, hladder.falling (hbeta ▸ Best.start v spent)⟩
  · unfold Round.steps
    rw [← hsize]
    exact hoptimal.reached x
  · unfold Round.residual Round.steps
    rw [hresidual, ← hsize]
    exact hoptimal.best
  · unfold Round.residual
    rw [hresidual]
    exact (hoptimal.residual_eq b x rfl).symm

section InPlace

variable {R : Type} {g : Gmres ℝ R} {a : V → V} {delta : ℝ}
variable {p : LinearProblem V ℝ R (List V)} {guard scratch : Set Ref}
variable {sup : Supply p.new (p.own guard scratch)} {s₀ s : Session V ℝ R (List V)} {res w : Ref}
variable {trace : List V}
variable (hp : p.Posed (traced a) guard scratch s₀) (hdelta : g.breakdownTol = .ok delta)
  (hnonneg : 0 ≤ delta) (hlsq : lsq.Minimises) (hK : p.backend.Exact e) (hL : ∀ v, e (a v) = L (e v))
include hp hdelta hnonneg hlsq hK hL

omit hdelta hnonneg hlsq in
theorem residualInto_exact {u : Unknown V (List V)} (h : Refining sup s₀ res w s u) :
    ∃ s' trace', residualInto p res s = .ok () s' ∧
      Refining sup s₀ res w s' ⟨u.value, trace'⟩ ∧
      e (s'.store.read res) = e (s₀.store.read p.rhs) - L (e u.value) := by
  have hrun : (OnUnknown.consult (residualAt p.backend (traced a) (s₀.store.read p.rhs) u.value) :
      OnUnknown V R (List V) V) u = .ok (defect p.backend a (s₀.store.read p.rhs) u.value)
        { u with outside := u.outside ++ [u.value] } := rfl
  obtain ⟨⟨⟩, s', hresidual, h', hread, -⟩ := (residualInto_follows hp h).exists_ok hrun
  exact ⟨s', _, hresidual, h', by rw [hread, defect_eq hK hL]⟩

theorem step_exact (target : ℝ) {v : Ref} {c : Cycle Ref ℝ} (hbuild : Building sup s₀ res w s c.basis trace)
    (hv : v ∈ c.basis) (hc : Climbing e L r beta (s.store.read v) (c.valued s.store)) :
    ∃ c' next s' trace', step g lsq p w beta target v c s = .ok (c', next) s' ∧
      Building sup s₀ res w s' c'.basis trace' ∧ c'.columns.size = c.columns.size + 1 ∧
      Optimal p.backend e L r (c'.valued s'.store) ∧
      ∀ v' ∈ next, v' ∈ c'.basis ∧
        Climbing e L r beta (s'.store.read v') (c'.valued s'.store) := by
  have hlength : c.basis.length = c.columns.size + 1 := by
    simpa [Cycle.valued] using hc.arnoldi.length_eq
  obtain ⟨c₁, next₁, hrun, -, hsize, hoptimal, hnext⟩ :=
    hc.advance hdelta hnonneg hlsq hK hL target trace
  obtain ⟨⟨c', next⟩, s', hstep, hbuild', heq, hmem⟩ :=
    (step_follows g lsq beta target hp hbuild hv hlength).exists_ok hrun
  obtain ⟨rfl, rfl⟩ := Prod.mk.inj heq
  refine ⟨c', next, s', _, hstep, hbuild', hsize, hoptimal, ?_⟩
  rintro v' ⟨⟩
  exact ⟨(hmem v' rfl).1, hnext _ rfl⟩

theorem stages_exact (target : ℝ) (count : Nat) {v : Ref} {c : Cycle Ref ℝ}
    (hbuild : Building sup s₀ res w s c.basis trace) (hv : v ∈ c.basis)
    (hc : Climbing e L r beta (s.store.read v) (c.valued s.store))
    (hoptimal : 0 < c.columns.size → Optimal p.backend e L r (c.valued s.store)) :
    ∃ cs s' trace', stages g lsq p w beta target count v c s = .ok cs s' ∧
      Building sup s₀ res w s' (cs.getLastD c).basis trace' ∧ Ladder L r c cs ∧
      (0 < (cs.getLastD c).columns.size →
        Optimal p.backend e L r ((cs.getLastD c).valued s'.store)) := by
  induction count generalizing v c s trace with
  | zero => exact ⟨[], s, trace, rfl, hbuild, .nil L r c, hoptimal⟩
  | succ count ih =>
    unfold stages
    by_cases hbudget : c.spent < g.maxiter
    · rw [if_pos hbudget]
      obtain ⟨c', next, s₁, trace₁, hstep, hbuild₁, hsize, hoptimal₁, hnext⟩ :=
        step_exact hp hdelta hnonneg hlsq hK hL target hbuild hv hc
      rw [bind_run_ok hstep]
      cases next with
      | none => exact ⟨[c'], s₁, trace₁, rfl, hbuild₁,
          (Ladder.nil L r c').cons hoptimal₁.best hsize, fun _ => hoptimal₁⟩
      | some v' =>
        obtain ⟨hv', hc'⟩ := hnext v' rfl
        obtain ⟨cs, s', trace', hrun, hbuild', hladder, hlast⟩ :=
          ih hbuild₁ hv' hc' fun _ => hoptimal₁
        refine ⟨c' :: cs, s', trace', ?_, ?_, hladder.cons hoptimal₁.best hsize, ?_⟩
        · dsimp only
          rw [bind_run_ok hrun]
          rfl
        · rw [List.getLastD_cons]
          exact hbuild'
        · rw [List.getLastD_cons]
          exact hlast
    · rw [if_neg hbudget]
      exact ⟨[], s, trace, rfl, hbuild, .nil L r c, hoptimal⟩

omit hp in
theorem cycleStages_exact (target : ℝ) {count : Nat} (hrestart : g.restart = .ok count) (spent : Nat)
    {u : Unknown V (List V)} (hp : p.Posed (traced a) guard scratch s)
    (h : Refining sup s₀ res w s u) (hlength : p.backend.length (s.store.read res) = beta)
    (hne : beta ≠ 0) :
    ∃ v cs s' trace', cycleStages g lsq p res w beta target spent s =
        .ok (Cycle.start v beta spent, cs) s' ∧
      Building sup s res w s' (cs.getLastD (Cycle.start v beta spent)).basis trace' ∧
      Ladder L (e (s.store.read res)) (Cycle.start v beta spent) cs ∧
      (cs ≠ [] → Optimal p.backend e L (e (s.store.read res))
        ((cs.getLastD (Cycle.start v beta spent)).valued s'.store)) := by
  obtain ⟨v, s₁, hfirst, hbuild₁, hread⟩ := firstVector_run hp.placed h (Scalar.reciprocal_real hne)
  have hclimbing : Climbing e L (e (s.store.read res)) beta (s₁.store.read v)
      ((Cycle.start v beta spent).valued s₁.store) := by
    show Climbing e L (e (s.store.read res)) beta (s₁.store.read v)
      (Cycle.start (s₁.store.read v) beta spent)
    subst hlength
    rw [hread]
    exact .first hK hne spent
  obtain ⟨cs, s', trace', hrun, hbuild', hladder, hlast⟩ :=
    stages_exact hp hdelta hnonneg hlsq hK hL target count (c := Cycle.start v beta spent) hbuild₁
      (List.mem_singleton_self v) hclimbing (fun hpos => absurd hpos (Nat.lt_irrefl 0))
  refine ⟨v, cs, s', trace', ?_, hbuild', hladder, fun hcs => hlast ?_⟩
  · rw [cycleStages_eq, bind_run_ok hfirst, hrestart]
    show (stages g lsq p w beta target count v (Cycle.start v beta spent) >>= fun cs =>
      pure (Cycle.start v beta spent, cs) : Run V ℝ R (List V) _) s₁ = _
    rw [bind_run_ok hrun]
    rfl
  · rw [hladder.size_eq]
    exact Nat.add_pos_right _ (List.length_pos_iff.mpr hcs)

omit hp in
theorem turn_exact {target : ℝ} {count : Nat} (hrestart : g.restart = .ok count) (htarget : 0 ≤ target)
    (spent : Nat) {u : Unknown V (List V)} (hp : p.Posed (traced a) guard scratch s₀)
    (h : Refining sup s₀ res w s u) :
    ∃ ρ exit s' trace', turn g lsq p res w target spent s = .ok (ρ, exit) s' ∧
      Refining sup s₀ res w s' ⟨ρ.finish, trace'⟩ ∧ ρ.start = u.value ∧
      ρ.Exact e L (e (s₀.store.read p.rhs)) := by
  obtain ⟨s₁, trace₁, hresidual, h₁, hdefect⟩ := residualInto_exact hp hK hL h
  have hcontents : Run.contents p.unknown s = .ok u.value s := by
    rw [Run.contents_run, h.value_eq]
  have hbeta : p.backend.length (s₁.store.read res) =
      ‖e (s₀.store.read p.rhs) - L (e u.value)‖ := by rw [hK.length_eq, hdefect]
  unfold turn
  rw [bind_run_ok hcontents, bind_run_ok hresidual, bind_run_ok (p.lengthAt_run res s₁)]
  generalize hlength : p.backend.length (s₁.store.read res) = beta at *
  by_cases hsmall : Scalar.le beta target = true
  · rw [if_pos hsmall]
    exact ⟨_, _, s₁, _, rfl, h₁, rfl, .idle hbeta⟩
  have hne : beta ≠ 0 := by
    rintro rfl
    exact hsmall ((Scalar.le_real _ _).mpr htarget)
  obtain ⟨v, cs, s₂, trace₂, hcycle, hbuild, hladder, hoptimal⟩ :=
    cycleStages_exact hdelta hnonneg hlsq hK hL target hrestart spent
      (hp.of_keeps h₁.keeps) h₁ hlength hne
  rw [if_neg hsmall, if_neg (by simp), bind_run_ok hcycle]
  dsimp only
  generalize hc : cs.getLastD (Cycle.start v beta spent) = c at *
  have h₂ := hbuild.refining h₁
  have hsize : c.columns.size = cs.length := hc ▸ hladder.size_eq.trans (Nat.zero_add _)
  unfold close
  by_cases hcs : cs = []
  · rw [if_pos (Array.isEmpty_iff_size_eq_zero.mpr (by rw [hsize, hcs, List.length_nil])), hcs]
    exact ⟨_, _, s₂, trace₂, rfl, h₂, rfl, .idle hbeta⟩
  have hunknown : p.unknown ∉ c.basis := hbuild.unknown_not_mem
  have h₃ := h₂.write_unknown hp.placed
    (combination p.backend u.value (c.basis.map s₂.store.read) c.coefficients)
  have hcombine : combine p c.basis c.coefficients s₂ = .ok () (s₂.write p.unknown
      (combination p.backend u.value (c.basis.map s₂.store.read) c.coefficients)) := by
    rw [← h₂.value_eq]
    exact combine_run p (h₂.keeps.valid hp.unknown_valid) hunknown
  have hempty : ¬c.columns.isEmpty = true := by
    rw [Array.isEmpty_iff_size_eq_zero, hsize, List.length_eq_zero_iff]
    exact hcs
  rw [if_neg hempty, bind_run_ok hcombine, bind_run_ok (Run.contents_run p.unknown),
    h₃.value_eq]
  rw [hdefect] at hladder hoptimal
  exact ⟨_, _, _, trace₂, rfl, h₃, rfl, .of_ladder hbeta hladder hcs hc (hoptimal hcs)⟩

theorem rounds_exact {target : ℝ} {count : Nat} (hrestart : g.restart = .ok count) (htarget : 0 ≤ target)
    (fuel spent : Nat) {u : Unknown V (List V)} (h : Refining sup s₀ res w s u) :
    ∃ ρs exit s' u', rounds g lsq p res w target fuel spent s = .ok (ρs, exit) s' ∧
      Refining sup s₀ res w s' u' ∧
      u.value :: ρs.map Round.finish = ρs.map Round.start ++ [u'.value] ∧
      ∀ ρ ∈ ρs, ρ.Exact e L (e (s₀.store.read p.rhs)) := by
  induction fuel generalizing spent s u with
  | zero => exact ⟨[], _, s, u, rfl, h, rfl, nofun⟩
  | succ fuel ih =>
    unfold rounds
    by_cases hbudget : spent < g.maxiter
    · rw [if_pos hbudget]
      obtain ⟨ρ, exit, s₁, trace₁, hturn, h₁, hstart, hexact⟩ :=
        turn_exact hdelta hnonneg hlsq hK hL hrestart htarget spent hp h
      rw [bind_run_ok hturn]
      cases exit with
      | some exit =>
        exact ⟨[ρ], exit, s₁, _, rfl, h₁, by rw [← hstart]; rfl, List.forall_mem_singleton.mpr hexact⟩
      | none =>
        obtain ⟨ρs, exit, s', u', hrounds, h', hjoined, hexacts⟩ := ih (spent + ρ.steps) h₁
        refine ⟨ρ :: ρs, exit, s', u', ?_, h', ?_, List.forall_mem_cons.mpr ⟨hexact, hexacts⟩⟩
        · dsimp only
          rw [bind_run_ok hrounds]
          rfl
        · rw [List.map_cons, List.map_cons, hstart, hjoined, List.cons_append]
    · rw [if_neg hbudget]
      exact ⟨[], _, s, u, rfl, h, rfl, nofun⟩

end InPlace

/-! ## Whole calls -/

section Call

variable {R : Type} {g : Gmres ℝ R} {a : V → V} {tol delta : ℝ} {count : Nat}
variable {p : LinearProblem V ℝ R (List V)} {guard scratch : Set Ref} {s : Session V ℝ R (List V)}

/-- A call in exact arithmetic returns. Its cycles lead from the unknown that it is given to the one that
it leaves, unless the right-hand side is zero, and there are none. -/
theorem course_exact (htol : g.tol = .ok tol) (hrestart : g.restart = .ok count)
    (hdelta : g.breakdownTol = .ok delta) (htol_nonneg : 0 ≤ tol) (hnonneg : 0 ≤ delta)
    (hlsq : lsq.Minimises) (hK : p.backend.Exact e) (hL : ∀ v, e (a v) = L (e v))
    (hp : p.Posed (traced a) guard scratch s) (sup : Supply p.new (p.own guard scratch))
    (hready : sup.Ready s) :
    ∃ ρs exit s', g.course lsq p s = .ok (ρs, exit) s' ∧
      (exit = .zeroRhs ∧ ρs = [] ∨ s.store.read p.unknown :: ρs.map Round.finish =
        ρs.map Round.start ++ [s'.store.read p.unknown]) ∧
      ∀ ρ ∈ ρs, ρ.Exact e L (e (s.store.read p.rhs)) := by
  obtain ⟨r, w, s₁, s₂, hr, hw, -, h⟩ := Refining.opening sup hp.placed hready
  unfold course
  rw [bind_run_ok hr, bind_run_ok hw, bind_run_ok (p.lengthAt_run p.rhs s₂)]
  by_cases hzero : Scalar.isZero (p.backend.length (s₂.store.read p.rhs)) = true
  · rw [if_pos hzero]
    exact ⟨[], .zeroRhs, _, rfl, .inl ⟨rfl, rfl⟩, nofun⟩
  have htarget : 0 ≤ tol * p.backend.length (s₂.store.read p.rhs) := by
    rw [hK.length_eq]
    exact mul_nonneg htol_nonneg (norm_nonneg _)
  obtain ⟨ρs, exit, s', u', hrounds, h', hjoined, hexact⟩ :=
    rounds_exact hp hdelta hnonneg hlsq hK hL hrestart htarget g.maxiter 0 h
  refine ⟨ρs, exit, s', ?_, .inr (h'.value_eq ▸ hjoined), hexact⟩
  rw [if_neg hzero, htol]
  exact hrounds

end Call

section Vectors

variable {R : Type} {n : Nat} (L : EuclideanSpace ℝ (Fin n) →ₗ[ℝ] EuclideanSpace ℝ (Fin n))

/-- Every cycle of a call leads to the point with the least residual among those that the Krylov space of
its steps reaches from its start, and the tracked residual is the one there. -/
theorem call_optimal {g : Gmres ℝ R} {tol delta : ℝ} {count : Nat} (htol : g.tol = .ok tol)
    (hrestart : g.restart = .ok count) (hdelta : g.breakdownTol = .ok delta) (htol_nonneg : 0 ≤ tol)
    (hnonneg : 0 ≤ delta) {lsq : LeastSquares ℝ} (hlsq : lsq.Minimises)
    {p : LinearProblem (Vector ℝ n) ℝ R (List (Vector ℝ n))}
    (hbackend : p.backend = (Component.plain ℝ).backend n) {guard scratch : Set Ref}
    {s : Session (Vector ℝ n) ℝ R (List (Vector ℝ n))}
    (hp : p.Posed (traced (applied L)) guard scratch s) (sup : Supply p.new (p.own guard scratch))
    (hready : sup.Ready s) :
    ∃ ρs exit s', g.course lsq p s = .ok (ρs, exit) s' ∧
      g.call lsq p s = .ok (Account.of ρs exit) s' ∧
      (exit = .zeroRhs ∧ ρs = [] ∨ s.store.read p.unknown :: ρs.map Round.finish =
        ρs.map Round.start ++ [s'.store.read p.unknown]) ∧
      ∀ ρ ∈ ρs,
        point ρ.finish - point ρ.start ∈
          krylov L (point (s.store.read p.rhs) - L (point ρ.start)) ρ.steps ∧
        (∀ z, z - point ρ.start ∈
            krylov L (point (s.store.read p.rhs) - L (point ρ.start)) ρ.steps →
          misfit L (s.store.read p.rhs) ρ.finish ≤ ‖point (s.store.read p.rhs) - L z‖) ∧
        ρ.residual = misfit L (s.store.read p.rhs) ρ.finish := by
  have hK : p.backend.Exact point := hbackend ▸ Component.plain_exact n
  obtain ⟨ρs, exit, s', hcourse, hjoined, hexact⟩ := course_exact htol hrestart hdelta htol_nonneg
    hnonneg hlsq hK (point_applied L) hp sup hready
  refine ⟨ρs, exit, s', hcourse, ?_, hjoined, fun ρ hρ => ?_⟩
  · rw [call_eq_course]
    exact bind_run_ok hcourse _
  · obtain ⟨-, hreached, hleast, hresidual, -⟩ := hexact ρ hρ
    refine ⟨hreached, fun z hz => ?_, hresidual⟩
    calc misfit L (s.store.read p.rhs) ρ.finish = ρ.residual := hresidual.symm
      _ ≤ ‖point (s.store.read p.rhs) - L (point ρ.start) - L (z - point ρ.start)‖ :=
        hleast.2 ⟨z - point ρ.start, hz, rfl⟩
      _ = ‖point (s.store.read p.rhs) - L z‖ := by rw [map_sub, sub_sub, add_sub_cancel]

end Vectors

theorem call_axisCross_optimal :
    ∃ ρs exit s', Gmres.course (R := ℝ) ⟨.ok 0, .ok 2, 4, .ok 0⟩ LeastSquares.exact
        (.fresh ((Component.plain ℝ).backend 3) (traced (applied axisCross)))
        (.fresh #v[-2, 1, 5] #v[0, 0, 7] []) = .ok (ρs, exit) s' ∧
      Gmres.call (R := ℝ) ⟨.ok 0, .ok 2, 4, .ok 0⟩ LeastSquares.exact
        (.fresh ((Component.plain ℝ).backend 3) (traced (applied axisCross)))
        (.fresh #v[-2, 1, 5] #v[0, 0, 7] []) = .ok (Account.of ρs exit) s' ∧
      (exit = .zeroRhs ∧ ρs = [] ∨
        #v[0, 0, 7] :: ρs.map Round.finish = ρs.map Round.start ++ [s'.store.read ⟨1⟩]) ∧
      ∀ ρ ∈ ρs,
        point ρ.finish - point ρ.start ∈
          krylov axisCross (point #v[-2, 1, 5] - axisCross (point ρ.start)) ρ.steps ∧
        (∀ z, z - point ρ.start ∈
            krylov axisCross (point #v[-2, 1, 5] - axisCross (point ρ.start)) ρ.steps →
          misfit axisCross #v[-2, 1, 5] ρ.finish ≤ ‖point #v[-2, 1, 5] - axisCross z‖) ∧
        ρ.residual = misfit axisCross #v[-2, 1, 5] ρ.finish :=
  call_optimal axisCross rfl rfl rfl le_rfl le_rfl LeastSquares.exact_minimises rfl
    (LinearProblem.fresh_posed _ _ _ _ _) (Supply.fresh _ _) (LinearProblem.fresh_ready _ _ _ _ _)

end Gmres

end NewtonKrylov
