import NewtonKrylov.Proofs.Krylov.Course
import NewtonKrylov.Proofs.Krylov.InPlace

/-!
# The places that a call passes

`Gmres.Passes` says where a call of GMRES can be between its operations, and in which session: before a
cycle, or in one, between its steps. The constructors are the pieces of the program that lead from one
place to the next. It is `restart` and the budget that say when a cycle is over; here it may be left
after any step, so what is shown of these places does not depend on `restart`. None is overlooked: the
steps that a call records are made at them (`Gmres.course_makes`).
-/

namespace NewtonKrylov

variable {V S R σ : Type}

namespace Gmres

/-- Where a call is between its operations. -/
inductive Place (S : Type) where
  /-- Before a cycle, after so many applications to basis vectors. -/
  | before (spent : Nat)
  /-- In a cycle from a residual of length `beta`, with `v` as the last basis vector. -/
  | within (beta : S) (v : Ref) (c : Cycle Ref S)

variable [Inhabited V] [Scalar S]
variable (g : Gmres S R) (lsq : LeastSquares S) (p : LinearProblem V S R σ) (s₀ : Session V S R σ)

omit [Inhabited V] in
/-- The first basis vector, from a residual of length `beta` in `r`. -/
def firstVector (r : Ref) (beta : S) : Run V S R σ Ref := do
  let v ← p.new (basisName 0)
  p.backend.scaleInto v r (← Run.reciprocal beta)
  pure v

/-- A call from the session `s₀` passes a place, with the work vectors `r` and `w`, on its way to a
residual of length `target`. -/
inductive Passes (r w : Ref) : (target : S) → Place S → Session V S R σ → Prop
  | opened {tol : S} {s₁ s₂ : Session V S R σ} (hr : p.new "gmres_r" s₀ = .ok r s₁)
    (hw : p.new "gmres_w" s₁ = .ok w s₂)
    (hrhs : ¬Scalar.isZero (p.backend.length (s₂.store.read p.rhs)) = true)
    (htol : g.tol = .ok tol) :
    Passes r w (tol * p.backend.length (s₂.store.read p.rhs)) (.before 0) s₂
  | entered {target beta : S} {v : Ref} {spent : Nat} {s s₁ s₂ : Session V S R σ}
    (h : Passes r w target (.before spent) s) (hbudget : spent < g.maxiter)
    (hresidual : residualInto p r s = .ok () s₁)
    (hbeta : p.backend.length (s₁.store.read r) = beta) (hlarge : ¬Scalar.le beta target = true)
    (hfinite : Scalar.isFinite beta = true) (hfirst : firstVector p r beta s₁ = .ok v s₂) :
    Passes r w target (.within beta v (Cycle.start v beta spent)) s₂
  | climbed {target beta : S} {v v' : Ref} {c c' : Cycle Ref S} {s s' : Session V S R σ}
    (h : Passes r w target (.within beta v c) s) (hbudget : c.spent < g.maxiter)
    (hstep : step g lsq p w beta target v c s = .ok (c', some v') s') :
    Passes r w target (.within beta v' c') s'
  | left {target beta : S} {v : Ref} {c : Cycle Ref S} {s s' : Session V S R σ}
    (h : Passes r w target (.within beta v c) s) (hcolumns : ¬c.columns.isEmpty = true)
    (hcombine : combine p c.basis c.coefficients s = .ok () s') (hgo : c.exit target = none) :
    Passes r w target (.before c.spent) s'

/-- A step of the call, made at a place that it passes, comes to `c'`. -/
def Makes (c' : Cycle Ref S) : Prop :=
  ∃ r w target beta v c s next s', Passes g lsq p s₀ r w target (.within beta v c) s ∧
    c.spent < g.maxiter ∧ step g lsq p w beta target v c s = .ok (c', next) s'

variable {g lsq p s₀} {r w : Ref} {beta target : S} {s s' : Session V S R σ}

/-! ## The first vector -/

theorem cycleStages_eq (spent : Nat) :
    cycleStages g lsq p r w beta target spent = (do
      let v ← firstVector p r beta
      let count ← Run.demand g.restart
      let cs ← stages g lsq p w beta target count v (Cycle.start v beta spent)
      pure (Cycle.start v beta spent, cs) : Run V S R σ _) := by
  simp only [cycleStages, firstVector, bind_assoc, pure_bind]

theorem firstVector_run {guard scratch : Set Ref} {sup : Supply p.new (p.own guard scratch)}
    {u : Unknown V σ} {d : S} (hp : p.Placed guard scratch s) (h : Refining sup s₀ r w s u)
    (hd : Scalar.reciprocal beta = (.ok d : Except (Fault R) S)) :
    ∃ v s', firstVector p r beta s = .ok v s' ∧ Building sup s r w s' [v] u.outside ∧
      s'.store.read v = p.backend.scale (s.store.read r) d := by
  obtain ⟨v, s₁, hnew, hall, -, hgrow⟩ := h.building.grow hp
  obtain ⟨hbuild, -, hread⟩ := hgrow (p.backend.scale (s.store.read r) d)
  refine ⟨v, s₁.write v (p.backend.scale (s.store.read r) d), ?_, hbuild, hread⟩
  have hnew : p.new (basisName 0) s = .ok v s₁ := hnew
  unfold firstVector
  rw [bind_run_ok hnew, Run.reciprocal_eq, hd]
  show (p.backend.scaleInto v r d >>= fun _ => pure v : Run V S R σ Ref) s₁ = _
  rw [bind_run_ok (p.backend.scaleInto_run v r d), hall.read_eq r (sup.valid h.has_r)]
  rfl

/-! ## What a course records -/

theorem stages_makes {count : Nat} {v : Ref} {c : Cycle Ref S} {cs : List (Cycle Ref S)}
    (h : Passes g lsq p s₀ r w target (.within beta v c) s)
    (hrun : stages g lsq p w beta target count v c s = .ok cs s') :
    (∀ c' ∈ cs, Makes g lsq p s₀ c') ∧ (((cs.getLastD c).exit target).isSome ∨
      ∃ v', Passes g lsq p s₀ r w target (.within beta v' (cs.getLastD c)) s') := by
  induction count generalizing v c cs s with
  | zero =>
    obtain ⟨rfl, rfl⟩ := pure_eq_ok hrun
    exact ⟨nofun, .inr ⟨v, h⟩⟩
  | succ count ih =>
    unfold stages at hrun
    split at hrun
    · rename_i hbudget
      obtain ⟨⟨c₁, next⟩, s₁, hstep, hrun⟩ := bind_eq_ok hrun
      have hmade : Makes g lsq p s₀ c₁ := ⟨r, w, target, beta, v, c, s, next, s₁, h, hbudget, hstep⟩
      cases next with
      | none =>
        obtain ⟨rfl, rfl⟩ := pure_eq_ok hrun
        refine ⟨List.forall_mem_singleton.mpr hmade, .inl ?_⟩
        cases (step_eq_ok hstep).1 with
        | notFinite => rw [Cycle.exit_isSome, List.getLastD_cons, List.getLastD_nil, Bool.or_true]
        | last _ _ _ hexit => exact hexit
      | some v₁ =>
        obtain ⟨cs', s₂, hrest, hrun⟩ := bind_eq_ok hrun
        obtain ⟨rfl, rfl⟩ := pure_eq_ok hrun
        obtain ⟨hmakes, hlast⟩ := ih (h.climbed hbudget hstep) hrest
        rw [List.getLastD_cons]
        exact ⟨List.forall_mem_cons.mpr ⟨hmade, hmakes⟩, hlast⟩
    · obtain ⟨rfl, rfl⟩ := pure_eq_ok hrun
      exact ⟨nofun, .inr ⟨v, h⟩⟩

theorem close_eq_none {x : V} {c : Cycle Ref S} {cs : List (Cycle Ref S)} {ρ : Round V S}
    (h : close p target beta x c cs s = .ok (ρ, none) s') :
    ¬c.columns.isEmpty = true ∧ combine p c.basis c.coefficients s = .ok () s' ∧
      c.exit target = none := by
  unfold close at h
  split at h
  · exact nomatch (pure_eq_ok h).1
  · rename_i hcolumns
    obtain ⟨⟨⟩, s₁, hcombine, h⟩ := bind_eq_ok h
    rw [bind_run_ok (Run.contents_run p.unknown)] at h
    obtain ⟨heq, rfl⟩ := pure_eq_ok h
    exact ⟨hcolumns, hcombine, (Prod.mk.inj heq).2⟩

theorem turn_makes {spent : Nat} (h : Passes g lsq p s₀ r w target (.before spent) s)
    (hbudget : spent < g.maxiter) {ρ : Round V S} {exit : Option Exit}
    (hrun : turn g lsq p r w target spent s = .ok (ρ, exit) s') :
    (∀ c' ∈ ρ.stages, Makes g lsq p s₀ c') ∧
      (exit = none → Passes g lsq p s₀ r w target (.before (spent + ρ.steps)) s') := by
  unfold turn at hrun
  rw [bind_run_ok (Run.contents_run p.unknown)] at hrun
  obtain ⟨⟨⟩, s₁, hresidual, hrun⟩ := bind_eq_ok hrun
  rw [bind_run_ok (p.lengthAt_run r s₁)] at hrun
  split at hrun
  · obtain ⟨heq, -⟩ := pure_eq_ok hrun
    cases heq
    exact ⟨nofun, nofun⟩
  rename_i hlarge
  split at hrun
  · obtain ⟨heq, -⟩ := pure_eq_ok hrun
    cases heq
    exact ⟨nofun, nofun⟩
  rename_i hfinite
  obtain ⟨⟨c₀, cs⟩, s₂, hcycle, hclose⟩ := bind_eq_ok hrun
  obtain ⟨m, v₀, -, rfl, hstaged, -⟩ := cycleStages_eq_ok hcycle
  rw [cycleStages_eq] at hcycle
  obtain ⟨v, s₃, hfirst, hcycle⟩ := bind_eq_ok hcycle
  obtain ⟨count, s₄, hdemand, hcycle⟩ := bind_eq_ok hcycle
  obtain ⟨-, rfl⟩ := Run.demand_eq_ok hdemand
  obtain ⟨cs', s₅, hstages, hcycle⟩ := bind_eq_ok hcycle
  obtain ⟨heq, rfl⟩ := pure_eq_ok hcycle
  obtain ⟨hstart, rfl⟩ := Prod.mk.inj heq
  rw [← hstart] at hstaged hclose
  obtain ⟨hmakes, hlast⟩ :=
    stages_makes (h.entered hbudget hresidual rfl hlarge (by simpa using hfinite) hfirst) hstages
  obtain ⟨-, -, hρ, -, -⟩ := close_eq_ok hclose
  refine ⟨hρ ▸ hmakes, ?_⟩
  rintro rfl
  obtain ⟨hcolumns, hcombine, hgo⟩ := close_eq_none hclose
  rcases hlast with hexit | ⟨v', hplace⟩
  · rw [hgo] at hexit
    exact nomatch hexit
  · have hspent := hstaged.spent_eq
    rw [Round.steps, hρ, ← show (Cycle.start v _ spent).spent = spent from rfl, ← hspent]
    exact hplace.left hcolumns hcombine hgo

theorem rounds_makes {fuel spent : Nat} (h : Passes g lsq p s₀ r w target (.before spent) s)
    {ρs : List (Round V S)} {exit : Exit}
    (hrun : rounds g lsq p r w target fuel spent s = .ok (ρs, exit) s') :
    ∀ ρ ∈ ρs, ∀ c' ∈ ρ.stages, Makes g lsq p s₀ c' := by
  induction fuel generalizing spent s ρs with
  | zero =>
    obtain ⟨heq, -⟩ := pure_eq_ok hrun
    cases heq
    nofun
  | succ fuel ih =>
    by_cases hbudget : spent < g.maxiter
    · obtain ⟨ρ, next, s₁, hturn, hnext⟩ := rounds_succ_eq_ok hbudget hrun
      obtain ⟨hmakes, hplace⟩ := turn_makes h hbudget hturn
      rcases hnext with ⟨-, rfl, -⟩ | ⟨hnone, ρs', rfl, hrest⟩
      · exact List.forall_mem_singleton.mpr hmakes
      · exact List.forall_mem_cons.mpr ⟨hmakes, ih (hplace hnone) hrest⟩
    · rw [rounds_of_le (Nat.le_of_not_lt hbudget)] at hrun
      obtain ⟨heq, -⟩ := pure_eq_ok hrun
      cases heq
      nofun

/-- The steps that a call records are made at the places that it passes. -/
theorem course_makes {ρs : List (Round V S)} {exit : Exit}
    (h : g.course lsq p s₀ = .ok (ρs, exit) s') :
    ∀ ρ ∈ ρs, ∀ c' ∈ ρ.stages, Makes g lsq p s₀ c' := by
  obtain ⟨r, s₁, hr, h⟩ := bind_eq_ok h
  obtain ⟨w, s₂, hw, h⟩ := bind_eq_ok h
  rw [bind_run_ok (p.lengthAt_run p.rhs s₂)] at h
  split at h
  · obtain ⟨⟨⟩, s₃, -, h⟩ := bind_eq_ok h
    obtain ⟨heq, -⟩ := pure_eq_ok h
    cases heq
    nofun
  · rename_i hrhs
    obtain ⟨tol, s₃, hdemand, h⟩ := bind_eq_ok h
    obtain ⟨htol, rfl⟩ := Run.demand_eq_ok hdemand
    exact rounds_makes (.opened hr hw hrhs htol) h

end Gmres

end NewtonKrylov
