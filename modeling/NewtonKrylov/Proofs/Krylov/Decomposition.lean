import NewtonKrylov.Proofs.Krylov.Optimality

/-!
# The decomposition that a cycle carries

In exact arithmetic, wherever a call is within a cycle, the basis is orthonormal and begins with the
direction of the residual, the matrix is upper Hessenberg with a positive subdiagonal, and it tells the
images of all basis vectors but the last (`Decomposes`). A step that ends the cycle leaves in `w` what
completes the image of the last one (`LeavesOver`), at a right angle to the basis. `Gmres.call_decomposes`
says so of what the store holds at the places that a call passes.

`Ascending` is the invariant of the steps. Modified Gram-Schmidt takes components out of a vector that it
has already changed; that they are still those along the basis is `project_sum` and
`project_orthogonal`. That the subdiagonal is positive is the test for a breakdown: a step only goes on
if the length that it is about to divide by is beyond a fraction that is not negative.
-/

namespace NewtonKrylov

open scoped InnerProductSpace

variable {V E : Type} [NormedAddCommGroup E] [InnerProductSpace ℝ E]

namespace Gmres

variable [Inhabited V] {K : Backend ℝ V} {e : V → E} {L : E →ₗ[ℝ] E} {r : E} {beta : ℝ}
variable {c : Cycle V ℝ} {lsq : LeastSquares ℝ}

/-! ## Decompositions -/

/-- A cycle from the residual `r`, of length `beta`, has `k + 1` basis vectors, and the first `k` columns
of its matrix tell the images of all but the last. -/
structure Decomposes (e : V → E) (L : E →ₗ[ℝ] E) (r : E) (beta : ℝ) (c : Cycle V ℝ) (k : Nat) :
    Prop where
  length_eq : c.basis.length = k + 1
  orthonormal : Orthonormal ℝ fun i : Fin c.basis.length => e c.basis[i]
  beta_eq : beta = ‖r‖
  start : e (c.basis.getD 0 default) = beta⁻¹ • r
  upper : ∀ i j, j + 1 < i → entry c.columns i j = 0
  positive : ∀ j < k, 0 < entry c.columns (j + 1) j
  relation : ∀ j < k, L (e (c.basis.getD j default)) =
    ∑ i ∈ Finset.range (j + 2), entry c.columns i j • e (c.basis.getD i default)

/-- Column `k` tells the image of basis vector `k` but for `w`, of which it has the length only. -/
structure LeavesOver (e : V → E) (L : E →ₗ[ℝ] E) (c : Cycle V ℝ) (k : Nat) (w : V) : Prop where
  image_eq : L (e (c.basis.getD k default)) =
    ∑ i ∈ Finset.range (k + 1), entry c.columns i k • e (c.basis.getD i default) + e w
  orthogonal : ∀ v ∈ c.basis, ⟪e v, e w⟫_ℝ = 0
  length_eq : ‖e w‖ = entry c.columns (k + 1) k

/-- Between the steps of a cycle, with `v` as the last basis vector. -/
structure Ascending (e : V → E) (L : E →ₗ[ℝ] E) (r : E) (beta : ℝ) (v : V) (c : Cycle V ℝ) :
    Prop where
  arnoldi : Arnoldi e L ⊤ r beta c
  last : v = c.basis.getD c.columns.size default
  beta_eq : beta = ‖r‖
  ne_zero : beta ≠ 0
  positive : ∀ j < c.columns.size, 0 < entry c.columns (j + 1) j

theorem Ascending.decomposes {v : V} (h : Ascending e L r beta v c) :
    Decomposes e L r beta c c.columns.size where
  length_eq := h.arnoldi.length_eq
  orthonormal := h.arnoldi.orthonormal.orthonormal
  beta_eq := h.beta_eq
  start := by
    conv_rhs => rw [h.arnoldi.start]
    rw [inv_smul_smul₀ h.ne_zero]
  upper := fun i j hij => h.arnoldi.upper i j hij
  positive := h.positive
  relation := by
    intro j hj
    rw [h.arnoldi.relation j hj]
    refine (Finset.sum_subset (Finset.range_subset_range.mpr (by omega)) fun i _ hi => ?_).symm
    have hlow : j + 2 ≤ i := Nat.le_of_not_lt fun hlt => hi (Finset.mem_range.mpr hlt)
    rw [h.arnoldi.upper i j hlow, zero_smul]

theorem Ascending.first (hK : K.Exact e) {u : V} (hu : K.length u ≠ 0) (spent : Nat) :
    Ascending e L (e u) (K.length u) (K.scale u (1 / K.length u))
      (Cycle.start (K.scale u (1 / K.length u)) (K.length u) spent) where
  arnoldi := .first hK hu Submodule.mem_top spent
  last := rfl
  beta_eq := hK.length_eq u
  ne_zero := hu
  positive := fun _ hj => absurd hj (Nat.not_lt_zero _)

section Step

variable {R : Type} {g : Gmres ℝ R} {a : V → V} {delta target : ℝ} {v : V}

theorem Ascending.extended (h : Ascending e L r beta v c) (hK : K.Exact e)
    (hL : ∀ v, e (a v) = L (e v)) (lsq : LeastSquares ℝ) (delta : ℝ) :
    Decomposes e L r beta (extended K a lsq beta delta c v) c.columns.size ∧
      LeavesOver e L (extended K a lsq beta delta c v) c.columns.size
        (project K (a v) c.basis).1 := by
  have hlength := h.arnoldi.length_eq
  have hplen := project_length (K := K) (a v) c.basis
  have hold : ∀ i j, j < c.columns.size →
      entry (Gmres.extended K a lsq beta delta c v).columns i j = entry c.columns i j := by
    intro i j hj
    rw [extended_entry, if_neg hj.ne]
  have hbefore := h.decomposes
  constructor
  · refine ⟨hlength, hbefore.orthonormal, hbefore.beta_eq, hbefore.start,
      fun i j hij => h.arnoldi.extended_upper i j hij, ?_, ?_⟩
    · intro j hj
      rw [hold _ _ hj]
      exact h.positive j hj
    · intro j hj
      simp only [hold _ _ hj]
      exact hbefore.relation j hj
  · refine ⟨?_, project_orthogonal hK (a v) h.arnoldi.orthonormal, ?_⟩
    · show L (e (c.basis.getD c.columns.size default)) = _
      rw [← h.last, ← hL, project_sum hK (a v) c.basis, hlength]
      congr 1
      apply Finset.sum_congr rfl
      intro i hi
      have hi := Finset.mem_range.mp hi
      rw [extended_entry, if_pos rfl, List.getD_append _ _ _ _ (by omega)]
      rfl
    · rw [h.arnoldi.extended_last K a lsq delta v _ (Nat.lt_succ_self _), if_pos rfl, hK.length_eq]

theorem Ascending.extended_brokeDown (h : Ascending e L r beta v c) (hK : K.Exact e)
    (hL : ∀ v, e (a v) = L (e v)) (lsq : LeastSquares ℝ) (delta : ℝ) :
    (Gmres.extended K a lsq beta delta c v).brokeDown = true ↔
      entry (Gmres.extended K a lsq beta delta c v).columns (c.columns.size + 1) c.columns.size ≤
        delta * ‖L (e v)‖ := by
  rw [h.arnoldi.extended_last K a lsq delta v _ (Nat.lt_succ_self _), if_pos rfl, ← hL,
    ← hK.length_eq]
  exact Scalar.le_real _ _

theorem Ascending.extended_residual (h : Ascending e L r beta v c) (hK : K.Exact e)
    (hL : ∀ v, e (a v) = L (e v)) (lsq : LeastSquares ℝ) (delta : ℝ) :
    ∃ z, (Gmres.extended K a lsq beta delta c v).residual = ‖r - L z‖ := by
  obtain ⟨q, hq, hunit, horth, -, -⟩ := project_direction hK (a v) h.arnoldi.orthonormal
    (W := ⊤) Submodule.mem_top fun _ _ => Submodule.mem_top
  exact ⟨_, ((h.arnoldi.extend hK hL h.last hq hunit horth lsq delta).norm_residual _).symm⟩

omit [Inhabited V] in
theorem advance_builds (hdelta : g.breakdownTol = .ok delta) {trace trace' : List V} {c' : Cycle V ℝ}
    {next : Option V}
    (h : advance g lsq K (traced a) beta target v c trace = .ok (c', next) trace') :
    c' = { extended K a lsq beta delta c v with basis := c'.basis } ∧
      (next = none → c'.basis = c.basis) ∧ (next = none ↔ (c'.exit target).isSome) := by
  rw [advance_run hdelta] at h
  dsimp only at h
  split at h
  · rename_i hstop
    obtain ⟨heq, -⟩ := pure_eq_ok h
    cases heq
    exact ⟨rfl, fun _ => rfl, iff_of_true rfl ((Cycle.exit_isSome ..).trans hstop)⟩
  · rename_i hgo
    obtain ⟨d, trace₁, -, h⟩ := bind_eq_ok h
    obtain ⟨heq, -⟩ := pure_eq_ok h
    cases heq
    refine ⟨rfl, nofun, iff_of_false (Option.some_ne_none _) ?_⟩
    rw [Cycle.exit_isSome]
    exact hgo

/-- One step keeps the invariant, and divides by a positive length. -/
theorem Ascending.advance (hdelta : g.breakdownTol = .ok delta) (hnonneg : 0 ≤ delta) (hK : K.Exact e)
    (hL : ∀ v, e (a v) = L (e v)) (h : Ascending e L r beta v c) (target : ℝ) (trace : List V) :
    ∃ c' next, advance g lsq K (traced a) beta target v c trace = .ok (c', next) (trace ++ [v]) ∧
      c' = { Gmres.extended K a lsq beta delta c v with basis := c'.basis } ∧
      (next = none → c'.basis = c.basis) ∧ (next = none ↔ (c'.exit target).isSome) ∧
      ∀ v' ∈ next, Ascending e L r beta v' c' := by
  obtain ⟨c', next, hrun, -, hsize, -, houtcome⟩ :=
    advance_spec lsq hdelta hnonneg hK hL (fun _ => Submodule.mem_top) h.arnoldi h.last target trace
  obtain ⟨hc', hbasis, hexit⟩ := advance_builds hdelta hrun
  refine ⟨c', next, hrun, hc', hbasis, hexit, ?_⟩
  rintro v' ⟨⟩
  rcases houtcome with ⟨_, ⟨⟩, hlast, harnoldi⟩ | ⟨hstop, -⟩
  · have hgo : ¬(Gmres.extended K a lsq beta delta c v).brokeDown = true := by
      intro hbroke
      refine Option.some_ne_none v' (hexit.mpr ?_)
      rw [Cycle.exit_isSome, hc', hbroke, Bool.or_true]
    rw [h.extended_brokeDown hK hL] at hgo
    refine ⟨harnoldi, hlast, h.beta_eq, h.ne_zero, fun j hj => ?_⟩
    rw [hsize] at hj
    rw [hc']
    rcases Nat.lt_succ_iff_lt_or_eq.mp hj with hlt | rfl
    · exact (h.extended hK hL lsq delta).1.positive j hlt
    · exact (mul_nonneg hnonneg (norm_nonneg _)).trans_lt (not_le.mp hgo)
  · exact nomatch hstop

end Step

/-! ## In place -/

section InPlace

variable {R : Type} {g : Gmres ℝ R} {a : V → V} {delta target : ℝ}
variable {p : LinearProblem V ℝ R (List V)} {guard scratch : Set Ref}
variable {sup : Supply p.new (p.own guard scratch)} {s₀ s₁ s s' : Session V ℝ R (List V)}
variable {res w v : Ref} {trace : List V} {c : Cycle Ref ℝ}

theorem step_leaves (hp : p.Posed (traced a) guard scratch s₁)
    (hbuild : Building sup s₁ res w s c.basis trace) (hv : v ∈ c.basis) {c' : Cycle Ref ℝ}
    (h : step g lsq p w beta target v c s = .ok (c', none) s') :
    s'.store.read w =
      (project p.backend (a (s.store.read v)) (c.basis.map s.store.read)).1 := by
  obtain ⟨name, hhasv⟩ := hbuild.exists_has hv
  have hanswer : traced (R := R) a (s.store.read v) s.outside =
    .ok (a (s.store.read v)) (s.outside ++ [s.store.read v]) := rfl
  obtain ⟨⟨⟩, s₂, hoperator, hread, hdone⟩ :=
    (hp.computes s w v (hbuild.keeps.mono (Set.subset_insert _ _)) hbuild.w_valid (sup.valid hhasv)
      (not_own_of_has hbuild.has_w).2 fun hs => (not_own_of_has hhasv).2 (.inr hs)).exists_ok hanswer
  obtain ⟨hbuild₂, hbasis⟩ := hbuild.of_keeps hdone.buffers_eq
    (hdone.keeps.mono (hbuild.subset_kept hp.placed))
  have hwrite : ∀ x, (s₂.write w x).store.read w = x := fun x => Store.read_write_self hbuild₂.w_valid
  unfold step at h
  rw [bind_run_ok hoperator, bind_run_ok (p.lengthAt_run w s₂),
    bind_run_ok (orthogonalise_run p hbuild₂.w_valid hbuild₂.w_not_mem),
    bind_run_ok (p.lengthAt_run w _), hread, hbasis] at h
  dsimp only at h
  split at h
  · obtain ⟨heq, rfl⟩ := pure_eq_ok h
    cases heq
    exact hwrite _
  obtain ⟨fraction, s₃, hdemand, h⟩ := bind_eq_ok h
  obtain ⟨-, rfl⟩ := Run.demand_eq_ok hdemand
  split at h
  · obtain ⟨heq, rfl⟩ := pure_eq_ok h
    cases heq
    exact hwrite _
  · obtain ⟨next, s₄, -, h⟩ := bind_eq_ok h
    obtain ⟨d, s₅, -, h⟩ := bind_eq_ok h
    obtain ⟨⟨⟩, s₆, -, h⟩ := bind_eq_ok h
    exact nomatch (pure_eq_ok h).1

variable (lsq) in
/-- One step in place keeps the invariant, or ends the cycle with what is left over in `w`. -/
theorem step_ascends (hdelta : g.breakdownTol = .ok delta) (hnonneg : 0 ≤ delta)
    (hK : p.backend.Exact e) (hL : ∀ v, e (a v) = L (e v)) (hp : p.Posed (traced a) guard scratch s₁)
    (hbuild : Building sup s₁ res w s c.basis trace) (hv : v ∈ c.basis)
    (hc : Ascending e L r beta (s.store.read v) (c.valued s.store)) (target : ℝ) :
    ∃ c' next s' trace', step g lsq p w beta target v c s = .ok (c', next) s' ∧
      Building sup s₁ res w s' c'.basis trace' ∧
      c'.valued s'.store =
        { extended p.backend a lsq beta delta (c.valued s.store) (s.store.read v) with
          basis := (c'.valued s'.store).basis } ∧
      (next = none ↔ (c'.exit target).isSome) ∧
      (next = none → Decomposes e L r beta (c'.valued s'.store) c.columns.size ∧
        LeavesOver e L (c'.valued s'.store) c.columns.size (s'.store.read w)) ∧
      ∀ v' ∈ next, v' ∈ c'.basis ∧
        Ascending e L r beta (s'.store.read v') (c'.valued s'.store) := by
  have hlength : c.basis.length = c.columns.size + 1 := by
    simpa [Cycle.valued] using hc.arnoldi.length_eq
  obtain ⟨c₁, next₁, hrun, hc₁, hbasis, hexit, hnext⟩ := hc.advance hdelta hnonneg hK hL target trace
  obtain ⟨⟨c', next⟩, s', hstep, hbuild', heq, hmem⟩ :=
    (step_follows g lsq beta target hp hbuild hv hlength).exists_ok hrun
  obtain ⟨rfl, rfl⟩ := Prod.mk.inj heq
  refine ⟨c', next, s', _, hstep, hbuild', hc₁, Option.map_eq_none_iff.symm.trans hexit, ?_, ?_⟩
  · rintro rfl
    rw [hc₁, hbasis rfl, step_leaves hp hbuild hv hstep]
    exact hc.extended hK hL lsq delta
  · rintro v' ⟨⟩
    exact ⟨(hmem v' rfl).1, hnext _ rfl⟩

/-! ## Places of a call -/

/-- The invariant of the places of a call for `A x = b`. -/
inductive Sound (sup : Supply p.new (p.own guard scratch)) (e : V → E) (L : E →ₗ[ℝ] E) (b : E)
    (s₀ : Session V ℝ R (List V)) (res w : Ref) : Place ℝ → Session V ℝ R (List V) → Prop
  | before {spent : Nat} {s : Session V ℝ R (List V)} {u : Unknown V (List V)}
    (h : Refining sup s₀ res w s u) : Sound sup e L b s₀ res w (.before spent) s
  | within {v : Ref} {c : Cycle Ref ℝ} {s₁ s : Session V ℝ R (List V)} {u : Unknown V (List V)}
    {trace : List V} {beta : ℝ} (h : Refining sup s₀ res w s₁ u)
    (hbuild : Building sup s₁ res w s c.basis trace) (hv : v ∈ c.basis)
    (hc : Ascending e L (b - L (e u.value)) beta (s.store.read v) (c.valued s.store)) :
    Sound sup e L b s₀ res w (.within beta v c) s

variable {tol : ℝ} {place : Place ℝ}

theorem Refining.enters (hK : p.backend.Exact e) (hp : p.Placed guard scratch s₀)
    {u : Unknown V (List V)} (h : Refining sup s₀ res w s u)
    (hbeta : p.backend.length (s.store.read res) = beta) (hne : beta ≠ 0) (spent : Nat) :
    ∃ v s', firstVector p res beta s = .ok v s' ∧ Building sup s res w s' [v] u.outside ∧
      Ascending e L (e (s.store.read res)) beta (s'.store.read v)
        ((Cycle.start v beta spent).valued s'.store) := by
  obtain ⟨v, s', hfirst, hbuild, hread⟩ := firstVector_run (hp.of_keeps h.keeps) h (Scalar.reciprocal_real hne)
  refine ⟨v, s', hfirst, hbuild, ?_⟩
  show Ascending e L (e (s.store.read res)) beta (s'.store.read v)
    (Cycle.start (s'.store.read v) beta spent)
  subst hbeta
  rw [hread]
  exact .first hK hne spent

theorem Passes.sound (htol : g.tol = .ok tol) (hdelta : g.breakdownTol = .ok delta)
    (htol_nonneg : 0 ≤ tol) (hnonneg : 0 ≤ delta) (hK : p.backend.Exact e)
    (hL : ∀ v, e (a v) = L (e v)) (hp : p.Posed (traced a) guard scratch s₀) (hready : sup.Ready s₀)
    (h : Passes g lsq p s₀ res w target place s) :
    0 ≤ target ∧ Sound sup e L (e (s₀.store.read p.rhs)) s₀ res w place s := by
  induction h with
  | opened hr hw hrhs htol' =>
    obtain rfl := Except.ok.inj (htol.symm.trans htol')
    obtain ⟨r, w, s₁, s₂, hr', hw', -, h⟩ := Refining.opening sup hp.placed hready
    obtain ⟨rfl, rfl⟩ := EStateM.Result.ok.inj (hr'.symm.trans hr)
    obtain ⟨rfl, rfl⟩ := EStateM.Result.ok.inj (hw'.symm.trans hw)
    refine ⟨mul_nonneg htol_nonneg ?_, .before h⟩
    rw [hK.length_eq]
    exact norm_nonneg _
  | @entered target beta _ _ _ _ _ _ _ hresidual hbeta hlarge _ hfirst ih =>
    obtain ⟨htarget, hsound⟩ := ih
    cases hsound with
    | before h =>
      obtain ⟨s₂, trace, hresidual', h₂, hdefect⟩ := residualInto_exact hp hK hL h
      obtain ⟨-, rfl⟩ := EStateM.Result.ok.inj (hresidual'.symm.trans hresidual)
      have hne : beta ≠ 0 := by
        rintro rfl
        exact hlarge ((Scalar.le_real _ _).mpr htarget)
      obtain ⟨v, s', hfirst', hbuild, hc⟩ := h₂.enters hK hp.placed hbeta hne _
      obtain ⟨rfl, rfl⟩ := EStateM.Result.ok.inj (hfirst'.symm.trans hfirst)
      exact ⟨htarget, .within h₂ hbuild (List.mem_singleton_self v) (hdefect ▸ hc)⟩
  | climbed _ hbudget hstep ih =>
    obtain ⟨htarget, hsound⟩ := ih
    cases hsound with
    | within h hbuild hv hc =>
      obtain ⟨c₁, next, s₁, trace₁, hstep', hbuild', -, -, -, hnext⟩ :=
        step_ascends lsq hdelta hnonneg hK hL (hp.of_keeps h.keeps) hbuild hv hc _
      obtain ⟨heq, rfl⟩ := EStateM.Result.ok.inj (hstep'.symm.trans hstep)
      obtain ⟨rfl, rfl⟩ := Prod.mk.inj heq
      obtain ⟨hv', hc'⟩ := hnext _ rfl
      exact ⟨htarget, .within h hbuild' hv' hc'⟩
  | left _ hcolumns hcombine hgo ih =>
    obtain ⟨htarget, hsound⟩ := ih
    cases hsound with
    | within h hbuild hv hc =>
      have hafter := hbuild.refining h
      have hvalid := hafter.keeps.valid hp.unknown_valid
      obtain ⟨-, rfl⟩ := EStateM.Result.ok.inj
        ((combine_run p hvalid hbuild.unknown_not_mem).symm.trans hcombine)
      exact ⟨htarget, .before (hafter.write_unknown hp.placed _)⟩

/-- Wherever a call is within a cycle, the store holds a decomposition, and the next step returns. If it
is the last one, `w` holds what it leaves over. -/
theorem Passes.decomposes (htol : g.tol = .ok tol) (hdelta : g.breakdownTol = .ok delta)
    (htol_nonneg : 0 ≤ tol) (hnonneg : 0 ≤ delta) (hK : p.backend.Exact e)
    (hL : ∀ v, e (a v) = L (e v)) (hp : p.Posed (traced a) guard scratch s₀)
    (sup : Supply p.new (p.own guard scratch)) (hready : sup.Ready s₀)
    (h : Passes g lsq p s₀ res w target (.within beta v c) s) :
    Decomposes e L (e (s₀.store.read p.rhs) - L (e (s.store.read p.unknown))) beta
        (c.valued s.store) c.columns.size ∧
      ∃ c' next s', step g lsq p w beta target v c s = .ok (c', next) s' ∧
        (next = none ↔ (c'.exit target).isSome) ∧
        (c'.brokeDown = true ↔ entry c'.columns (c.columns.size + 1) c.columns.size ≤
          delta * ‖L (e (s.store.read v))‖) ∧
        (next = none →
          Decomposes e L (e (s₀.store.read p.rhs) - L (e (s.store.read p.unknown))) beta
              (c'.valued s'.store) c.columns.size ∧
            LeavesOver e L (c'.valued s'.store) c.columns.size (s'.store.read w)) := by
  obtain ⟨-, hsound⟩ := h.sound htol hdelta htol_nonneg hnonneg hK hL hp hready
  cases hsound with
  | within hcycle hbuild hv hc =>
    rw [(hbuild.refining hcycle).value_eq]
    obtain ⟨c', next, s', trace', hstep, -, hc', hexit, hlast, -⟩ :=
      step_ascends lsq hdelta hnonneg hK hL (hp.of_keeps hcycle.keeps) hbuild hv hc target
    refine ⟨hc.decomposes, c', next, s', hstep, hexit, ?_, hlast⟩
    show (c'.valued s'.store).brokeDown = true ↔ entry (c'.valued s'.store).columns _ _ ≤ _
    rw [hc']
    exact hc.extended_brokeDown hK hL lsq delta

theorem exists_passes (htol : g.tol = .ok tol) (hK : p.backend.Exact e) (hL : ∀ v, e (a v) = L (e v))
    (hp : p.Posed (traced a) guard scratch s₀) (sup : Supply p.new (p.own guard scratch))
    (hready : sup.Ready s₀) (hmaxiter : 0 < g.maxiter) (hrhs : e (s₀.store.read p.rhs) ≠ 0)
    (htol_nonneg : 0 ≤ tol) (hlarge : tol * ‖e (s₀.store.read p.rhs)‖ <
      ‖e (s₀.store.read p.rhs) - L (e (s₀.store.read p.unknown))‖) (lsq : LeastSquares ℝ) :
    ∃ r w beta v s, Passes g lsq p s₀ r w (tol * ‖e (s₀.store.read p.rhs)‖)
        (.within beta v (Cycle.start v beta 0)) s ∧
      s.store.read p.unknown = s₀.store.read p.unknown := by
  obtain ⟨r, w, s₁, s₂, hr, hw, hkeeps, h⟩ := Refining.opening sup hp.placed hready
  have hlength : p.backend.length (s₂.store.read p.rhs) = ‖e (s₀.store.read p.rhs)‖ := by
    rw [hkeeps.read_eq _ (hp.guard_valid _ hp.rhs_mem), hK.length_eq]
  have hopened : Passes g lsq p s₀ r w (tol * p.backend.length (s₂.store.read p.rhs)) (.before 0) s₂ :=
    .opened hr hw (by simpa [hlength] using hrhs) htol
  obtain ⟨s₃, trace, hresidual, h₃, hdefect⟩ := residualInto_exact hp hK hL h
  have hbeta : p.backend.length (s₃.store.read r) =
      ‖e (s₀.store.read p.rhs) - L (e (s₀.store.read p.unknown))‖ := by
    rw [hK.length_eq, hdefect]
  have hpos := (mul_nonneg htol_nonneg (norm_nonneg _)).trans_lt hlarge
  obtain ⟨v, s', hfirst, hbuild, -⟩ := h₃.enters (L := L) hK hp.placed hbeta hpos.ne' 0
  rw [hlength] at hopened
  refine ⟨r, w, _, v, s', hopened.entered hmaxiter hresidual hbeta ?_ (Scalar.isFinite_real _) hfirst,
    (hbuild.refining h₃).value_eq⟩
  rw [Scalar.le_real]
  exact hlarge.not_ge

/-- Where nothing is tolerated, a residual that is neither an image nor an eigenvector takes a cycle past
its first step. -/
theorem exists_passes_one (htol : g.tol = .ok 0) (hdelta : g.breakdownTol = .ok 0)
    (hK : p.backend.Exact e) (hL : ∀ v, e (a v) = L (e v)) (hp : p.Posed (traced a) guard scratch s₀)
    (sup : Supply p.new (p.own guard scratch)) (hready : sup.Ready s₀) (hmaxiter : 0 < g.maxiter)
    (hr : r = e (s₀.store.read p.rhs) - L (e (s₀.store.read p.unknown))) (himage : ∀ z, r ≠ L z)
    (heigen : ∀ t : ℝ, L r ≠ t • r) (lsq : LeastSquares ℝ) :
    ∃ r w target beta v c s, Passes g lsq p s₀ r w target (.within beta v c) s ∧
      c.columns.size = 1 := by
  have hrhs : e (s₀.store.read p.rhs) ≠ 0 := by
    intro hzero
    apply himage (-e (s₀.store.read p.unknown))
    rw [hr, hzero, zero_sub, map_neg]
  have hlarge : 0 * ‖e (s₀.store.read p.rhs)‖ <
      ‖e (s₀.store.read p.rhs) - L (e (s₀.store.read p.unknown))‖ := by
    rw [zero_mul, ← hr, norm_pos_iff]
    intro hzero
    exact himage 0 (hzero.trans (map_zero L).symm)
  obtain ⟨res, w, beta, v, s, hplace, hunknown⟩ :=
    exists_passes htol hK hL hp sup hready hmaxiter hrhs le_rfl hlarge lsq
  obtain ⟨-, hsound⟩ := hplace.sound htol hdelta le_rfl le_rfl hK hL hp hready
  cases hsound with
  | within hcycle hbuild hv hc =>
    rw [← (hbuild.refining hcycle).value_eq, hunknown, ← hr] at hc
    obtain ⟨c', next, s', trace', hstep, -, hc', hexit, hlast, -⟩ :=
      step_ascends lsq hdelta le_rfl hK hL (hp.of_keeps hcycle.keeps) hbuild hv hc
        (0 * ‖e (s₀.store.read p.rhs)‖)
    cases next with
    | some v' =>
      refine ⟨res, w, _, beta, v', c', s', hplace.climbed hmaxiter hstep, ?_⟩
      cases (step_eq_ok hstep).1 with
      | grown _ _ hsize _ => exact hsize
    | none =>
      exfalso
      have hstop := hexit.mp rfl
      rw [Cycle.exit_isSome, Bool.or_eq_true, Scalar.le_real, zero_mul] at hstop
      rcases hstop with hsmall | hbroke
      · -- the residual is that of a point
        obtain ⟨z, hz⟩ := hc.extended_residual hK hL lsq 0
        have hresidual : c'.residual = ‖r - L z‖ := (congrArg Cycle.residual hc').trans hz
        rw [hresidual, norm_le_zero_iff, sub_eq_zero] at hsmall
        exact himage z hsmall
      · -- the image is along the residual
        obtain ⟨-, hleaves⟩ := hc.extended hK hL lsq 0
        have hzero := (hc.extended_brokeDown hK hL lsq 0).mp
          ((congrArg Cycle.brokeDown hc').symm.trans hbroke)
        rw [zero_mul, ← hleaves.length_eq, norm_le_zero_iff] at hzero
        have himage_eq := hleaves.image_eq
        rw [hzero, add_zero] at himage_eq
        have halong : ∃ t : ℝ, L (e (s.store.read v)) = t • e (s.store.read v) :=
          ⟨_, himage_eq.trans (Finset.sum_range_one _)⟩
        have hstart : r = beta • e (s.store.read v) := hc.arnoldi.start
        obtain ⟨t, ht⟩ := halong
        apply heigen t
        rw [hstart, map_smul, ht, smul_comm]

end InPlace

section Vectors

variable {R : Type} {n : Nat} (L : EuclideanSpace ℝ (Fin n) →ₗ[ℝ] EuclideanSpace ℝ (Fin n))

/-- At every place of a cycle that a call for `L x = b` passes, with one column for each step that the
cycle has completed: an orthonormal basis from the direction of the residual, and a Hessenberg matrix
with a positive subdiagonal that tells the images of all basis vectors but the last. The next step
returns. If it ends the cycle, as it does where the space breaks down, `w` is at a right angle to the
basis and completes the image of the last vector. The small problems may be solved in any way, and all
the steps that a call records are made at such places. -/
theorem call_decomposes {g : Gmres ℝ R} {tol delta : ℝ} (htol : g.tol = .ok tol)
    (hdelta : g.breakdownTol = .ok delta) (htol_nonneg : 0 ≤ tol) (hnonneg : 0 ≤ delta)
    (lsq : LeastSquares ℝ) {p : LinearProblem (Vector ℝ n) ℝ R (List (Vector ℝ n))}
    (hbackend : p.backend = (Component.plain ℝ).backend n) {guard scratch : Set Ref}
    {s₀ : Session (Vector ℝ n) ℝ R (List (Vector ℝ n))}
    (hp : p.Posed (traced (applied L)) guard scratch s₀) (sup : Supply p.new (p.own guard scratch))
    (hready : sup.Ready s₀) :
    (∀ r w target beta v c s, Passes g lsq p s₀ r w target (.within beta v c) s →
      Decomposes point L (point (s₀.store.read p.rhs) - L (point (s.store.read p.unknown))) beta
          (c.valued s.store) c.columns.size ∧
        ∃ c' next s', step g lsq p w beta target v c s = .ok (c', next) s' ∧
          (next = none ↔ (c'.exit target).isSome) ∧
          (c'.brokeDown = true ↔ entry c'.columns (c.columns.size + 1) c.columns.size ≤
            delta * ‖L (point (s.store.read v))‖) ∧
          (next = none →
            Decomposes point L (point (s₀.store.read p.rhs) - L (point (s.store.read p.unknown))) beta
                (c'.valued s'.store) c.columns.size ∧
              LeavesOver point L (c'.valued s'.store) c.columns.size (s'.store.read w))) ∧
      ∀ ρs exit s', g.course lsq p s₀ = .ok (ρs, exit) s' →
        ∀ ρ ∈ ρs, ∀ c' ∈ ρ.stages, Makes g lsq p s₀ c' := by
  have hK : p.backend.Exact point := hbackend ▸ Component.plain_exact n
  refine ⟨fun r w target beta v c s h => ?_, fun _ _ _ h => course_makes h⟩
  exact h.decomposes htol hdelta htol_nonneg hnonneg hK (point_applied L) hp sup hready

end Vectors

theorem call_axisCross_decomposes :
    ∃ r w target beta v c s, Passes (R := ℝ) ⟨.ok 0, .ok 2, 4, .ok 0⟩ LeastSquares.exact
        (.fresh ((Component.plain ℝ).backend 3) (traced (applied axisCross)))
        (.fresh #v[-2, 1, 5] #v[0, 0, 7] []) r w target (.within beta v c) s ∧
      c.columns.size = 1 ∧
      Decomposes point axisCross (point #v[-2, 1, 5] - axisCross (point (s.store.read ⟨1⟩))) beta
        (c.valued s.store) c.columns.size ∧
      ∃ c' next s', step (R := ℝ) ⟨.ok 0, .ok 2, 4, .ok 0⟩ LeastSquares.exact
          (.fresh ((Component.plain ℝ).backend 3) (traced (applied axisCross))) w beta target v c s =
            .ok (c', next) s' ∧
        (next = none ↔ (c'.exit target).isSome) ∧
        (c'.brokeDown = true ↔ entry c'.columns (c.columns.size + 1) c.columns.size ≤
          0 * ‖axisCross (point (s.store.read v))‖) ∧
        (next = none →
          Decomposes point axisCross (point #v[-2, 1, 5] - axisCross (point (s.store.read ⟨1⟩))) beta
              (c'.valued s'.store) c.columns.size ∧
            LeavesOver point axisCross (c'.valued s'.store) c.columns.size (s'.store.read w)) := by
  have hr : point #v[-2, 1, 5] - axisCross (point #v[0, 0, 7]) = point #v[-2, 1, 5] := by
    ext i
    fin_cases i
    all_goals simp [axisCross, point, dotProduct, Fin.sum_univ_three]
  have himage : ∀ z, point #v[-2, 1, 5] ≠ axisCross z := by
    intro z hz
    have hthird := congrFun (congrArg WithLp.ofLp hz) 2
    simp [axisCross, point, Matrix.mulVec, dotProduct, Fin.sum_univ_three] at hthird
  have heigen : ∀ t : ℝ, axisCross (point #v[-2, 1, 5]) ≠ t • point #v[-2, 1, 5] := by
    intro t ht
    have hfirst := congrFun (congrArg WithLp.ofLp ht) 0
    have hthird := congrFun (congrArg WithLp.ofLp ht) 2
    simp [axisCross, point, dotProduct, Fin.sum_univ_three] at hfirst hthird
    rw [hthird, zero_mul] at hfirst
    exact one_ne_zero hfirst
  have hp := LinearProblem.fresh_posed (S := ℝ) (R := ℝ) ((Component.plain ℝ).backend 3)
    (traced (applied axisCross)) #v[-2, 1, 5] #v[0, 0, 7] []
  have hready := LinearProblem.fresh_ready (S := ℝ) (R := ℝ) ((Component.plain ℝ).backend 3)
    (traced (applied axisCross)) #v[-2, 1, 5] #v[0, 0, 7] []
  obtain ⟨r, w, target, beta, v, c, s, hplace, hsize⟩ := exists_passes_one
    (g := ⟨.ok 0, .ok 2, 4, .ok 0⟩) rfl rfl (Component.plain_exact 3) (point_applied axisCross) hp
    (Supply.fresh _ _) hready (Nat.succ_pos 3) hr.symm himage heigen LeastSquares.exact
  exact ⟨r, w, target, beta, v, c, s, hplace, hsize,
    (call_decomposes axisCross rfl rfl le_rfl le_rfl LeastSquares.exact rfl hp (Supply.fresh _ _)
      hready).1 r w target beta v c s hplace⟩

end Gmres

end NewtonKrylov
