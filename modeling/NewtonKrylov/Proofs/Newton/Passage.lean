import NewtonKrylov.Proofs.Krylov.Passage
import NewtonKrylov.Proofs.Newton.Course

/-!
# The sessions that a run of Newton's method passes through

The passage of a run is written along it, from those of its solver and of its line search
(`Method.Passages`), which are themselves passages of whatever they are handed. A solver and a search
act only through what they are handed (`Method.Passages.Handed`) if they keep to every conduct that it
keeps to and that leaves open what is read and written; GMRES and inquiries do, and they keep to
conducts that do not leave it open as well (`Method.Passages.obey_of_gmres`).

`Newton.onward_obeys`: a run keeps to every conduct that lets its own vectors be written.
-/

namespace NewtonKrylov

variable {V S R σ : Type}

open Run.Passage (action)

/-! ## Solvers and searches -/

/-- Passages of the solver and of the search, from those of what they are handed. -/
structure Method.Passages (M : Method V S R σ) where
  solver : ∀ {p : LinearProblem V S R σ}, p.Passages → Run.Passage (M.solver p)
  search : ∀ {profile : S → Run V S R σ R}, (∀ alpha, Run.Passage (profile alpha)) →
    Run.Passage (M.search profile M.reach)

def Inquiry.passage {profile : S → Run V S R σ R} (t : ∀ alpha, Run.Passage (profile alpha)) :
    ∀ q : Inquiry S R (Fault R) σ, Run.Passage (q.run Run.turn profile)
  | choose alpha line => action (pure (alpha, line))
  | fail e => action (throw e)
  | look alpha next => .bind (t alpha) fun norm => (next norm).passage t
  | turn change next => .bind (action (Run.turn change)) fun o => (next o).passage t

variable [Inhabited V]

/-- The solver and the search keep to the conduct if what they are handed does. -/
structure Method.Passages.Obey {M : Method V S R σ} (T : M.Passages) (C : Conduct V S R σ) :
    Prop where
  solver : ∀ {p : LinearProblem V S R σ} {t : p.Passages} {s}, t.Obey C → C.Holds s →
    (T.solver t).Obeys C (fun _ _ => True) s
  search : ∀ {profile : S → Run V S R σ R} {t : ∀ alpha, Run.Passage (profile alpha)} {s},
    (∀ alpha {s}, C.Holds s → (t alpha).Obeys C (fun _ _ => True) s) → C.Holds s →
    (T.search t).Obeys C (fun _ _ => True) s

/-- The solver and the search act only through what they are handed. -/
def Method.Passages.Handed {M : Method V S R σ} (T : M.Passages) : Prop :=
  ∀ C : Conduct V S R σ, C.Free → T.Obey C

theorem Inquiry.run_obeys {C : Conduct V S R σ} {profile : S → Run V S R σ R}
    {t : ∀ alpha, Run.Passage (profile alpha)} {s : Session V S R σ}
    (ht : ∀ alpha {s}, C.Holds s → (t alpha).Obeys C (fun _ _ => True) s)
    (q : Inquiry S R (Fault R) σ) (hs : C.Holds s) : (q.passage t).Obeys C (fun _ _ => True) s := by
  induction q generalizing s with
  | choose alpha line => exact hs.still rfl trivial
  | fail e => exact hs.fails rfl
  | look alpha next ih => exact .bind (ht alpha hs) fun norm _ _ hs₁ _ => ih norm hs₁
  | turn change next ih => exact .bind (hs.consult _) fun o _ _ hs₁ _ => ih o hs₁

section Inquiries

variable {M : Method V S R σ} {q : Inquiry S R (Fault R) σ}
variable (hsearch : ∀ profile, M.search profile M.reach = q.run Run.turn profile)

/-- The passage of a search that is an inquiry. -/
def Method.searchPassage {profile : S → Run V S R σ R} (t : ∀ alpha, Run.Passage (profile alpha)) :
    Run.Passage (M.search profile M.reach) :=
  (q.passage t).of_eq (hsearch profile).symm

theorem Method.search_obeys {C : Conduct V S R σ} {profile : S → Run V S R σ R}
    {t : ∀ alpha, Run.Passage (profile alpha)} {s : Session V S R σ}
    (ht : ∀ alpha {s}, C.Holds s → (t alpha).Obeys C (fun _ _ => True) s) (hs : C.Holds s) :
    (searchPassage hsearch t).Obeys C (fun _ _ => True) s :=
  (Inquiry.run_obeys ht q hs).of_eq (hsearch profile).symm

end Inquiries

section Gmres

variable [Scalar S] {M : Method V S R σ} {g : Gmres S R} {lsq : LeastSquares S}
variable {q : Inquiry S R (Fault R) σ} (hsolver : M.solver = g.solve lsq)
variable (hsearch : ∀ profile, M.search profile M.reach = q.run Run.turn profile)

/-- The passages of GMRES and of an inquiry. -/
def Method.Passages.ofGmres : M.Passages where
  solver t := (g.solvePassage lsq t).of_eq (congrFun hsolver _).symm
  search t := searchPassage hsearch t

theorem Method.Passages.obey_of_gmres {C : Conduct V S R σ} (hg : g.Ordered C) :
    (ofGmres hsolver hsearch).Obey C where
  solver ht hs := (Gmres.solve_obeys lsq ht hg hs).of_eq (congrFun hsolver _).symm
  search ht hs := search_obeys hsearch ht hs

theorem Method.Passages.handed_of_gmres : (ofGmres hsolver hsearch).Handed := fun _ hC =>
  obey_of_gmres hsolver hsearch (.of_may_ask g hC.may_ask)

end Gmres

/-! ## Passages of a run -/

namespace Newton

section Passages

variable [Scalar S] [Magnitude R] (P : NonlinearProblem V S R σ) {M : Method V S R σ}
variable (notify : Option (R → Nat → Run V S R σ Bool)) (w : Scratch) (x dx : Ref)

omit [Magnitude R] in
def profilePassage (alpha : S) : Run.Passage (profile P w x dx alpha) :=
  .bind (action (P.backend.addScaledInto w.ahead x dx (-alpha))) fun _ =>
    .bind (action (P.residual.into w.residualAhead w.ahead)) fun _ => action (normAt P w.residualAhead)

omit [Magnitude R] in
def derivativePassage (f : Residual V R σ) (K : Backend S V) (e : S) (result v : Ref) :
    Run.Passage (f.derivative K w x e result v) :=
  .bind (action (K.addScaledInto w.ahead x v e)) fun _ =>
    .bind (action (K.addScaledInto w.behind x v (-e))) fun _ =>
      .bind (action (f.into w.residualAhead w.ahead)) fun _ =>
        .bind (action (f.into w.residualBehind w.behind)) fun _ =>
          .bind (action (K.addScaledInto result w.residualAhead w.residualBehind _)) fun _ =>
            .bind (action (Run.reciprocal _)) fun d => action (K.scaleInto result result d)

omit [Magnitude R] in
variable (M) in
def directionPassages : (directionProblem P M w x dx).Passages where
  new name := action (Run.keptAs P.backend.new name)
  operator result v :=
    .bind (action (Run.demand M.halfWidth)) fun e =>
      derivativePassage w x P.residual P.backend e result v

variable (T : M.Passages)

omit [Magnitude R] in
def updatePassage (k : Nat) (err : R) : Run.Passage (update P M w x dx k err) :=
  .bind (T.solver (directionPassages P M w x dx)) fun _ =>
    .bind (T.search (profilePassage P w x dx)) fun found =>
      .bind (action (Run.report (.update k err found.1 found.2))) fun _ =>
        action (P.backend.addScaledInto x x dx (-found.1))

def iterationsPassage :
    ∀ remaining done last, Run.Passage (iterations P M notify w x dx remaining done last)
  | 0, done, last => action (pure (Ending.exhausted done last))
  | remaining + 1, done, _ =>
    .bind (action (P.residual.into w.residual x)) fun _ =>
      .bind (action (normAt P w.residual)) fun err =>
        .bind (action (endsAt M notify (done + 1) err)) fun ended => match ended with
          | some ending => action (pure ending)
          | none => .bind (updatePassage P w x dx T (done + 1) err) fun _ =>
            iterationsPassage remaining (done + 1) (some err)

/-- A run once its vectors are there. -/
def onward (P : NonlinearProblem V S R σ) (M : Method V S R σ)
    (notify : Option (R → Nat → Run V S R σ Bool)) (w : Scratch) (x dx : Ref) :
    Run V S R σ (Ending R) := do
  let n ← Run.demand M.maxiter
  let ending ← iterations P M notify w x dx n 0 none
  Run.report (.ended ending)
  pure ending

def onwardPassage : Run.Passage (onward P M notify w x dx) :=
  .bind (action (Run.demand M.maxiter)) fun n =>
    .bind (iterationsPassage P notify w x dx T n 0 none) fun ending =>
      .bind (action (Run.report (.ended ending))) fun _ => action (pure ending)

omit [Magnitude R] in
def allocatePassage (K : Backend S V) :
    Run.Passage (Scratch.allocate K : Run V S R σ Scratch) :=
  .bind (action (K.new _)) fun _ => .bind (action (K.new _)) fun _ =>
    .bind (action (K.new _)) fun _ => .bind (action (K.new _)) fun _ =>
      .bind (action (K.new _)) fun _ => action (pure _)

omit [Magnitude R] in
def startPassage : ∀ given, Run.Passage (direction P x given)
  | some dx => action (pure dx)
  | none => .bind (action (P.backend.new "dx")) fun dx =>
    .bind (action (P.backend.scaleInto dx x _)) fun _ => action (pure dx)

omit [Magnitude R] in
def openingPassage (given : Option Ref) : Run.Passage (opening P x given) :=
  .bind (allocatePassage P.backend) fun _ =>
    .bind (startPassage P x given) fun _ => .bind (action (modify _)) fun _ => action (pure _)

/-- The passage of a whole run. -/
def passage (given : Option Ref) : Run.Passage (run P M notify x given) :=
  .of_eq (run_eq_opening P M notify x given).symm <|
    .bind (openingPassage P x given) fun v => onwardPassage P notify v.1 x v.2 T

end Passages

/-! ## Conduct of a run -/

/-- The conduct lets a run use its vectors, but for writing the iterate. -/
structure Allowed (C : Conduct V S R σ) (P : NonlinearProblem V S R σ) (w : Scratch) (x dx : Ref) :
    Prop where
  closed : C.Closed P.backend
  respects : C.Respects P.residual
  grants : ∀ {s name}, C.Holds s → C.MayAsk s name →
    (action (Run.keptAs P.backend.new name)).Obeys C (fun r s' => r ∈ C.writable ∧ C.Asked s' name) s
  iterate : x ∈ C.readable
  direction : dx ∈ C.writable
  residual : w.residual ∈ C.writable
  trial : w.trial ⊆ C.writable

section Conduct

variable {C : Conduct V S R σ} {P : NonlinearProblem V S R σ} {M : Method V S R σ}
variable {notify : Option (R → Nat → Run V S R σ Bool)} {w : Scratch} {x dx : Ref}
variable {s : Session V S R σ}

theorem normAt_obeys (P : NonlinearProblem V S R σ) (r : Ref) (hs : C.Holds s) :
    (action (normAt P r)).Obeys C (fun _ _ => True) s := by
  refine hs.other (Ends.skip (Run.contents_run r) ((Run.consult_follows _ s).ends.mono ?_ ?_))
  · rintro _ _ ⟨_, o, -, rfl⟩
    exact ⟨trivial, rfl, rfl⟩
  · rintro _ ⟨o, rfl⟩
    exact ⟨rfl, rfl⟩

theorem endsAt_obeys [Magnitude R] (M : Method V S R σ) (hquiet : Quiet notify) (k : Nat) (err : R)
    (hs : C.Holds s) : (action (endsAt M notify k err)).Obeys C (fun _ _ => True) s := by
  refine hs.other ?_
  cases hends : endsAt M notify k err s with
  | ok ending s' =>
    obtain ⟨-, stop, hanswer, -⟩ := endsAt_ok hends
    have halike := (hquiet err k s).run_ok hanswer
    exact Ends.of_ok hends ⟨trivial, halike.store_eq, halike.buffers_eq⟩
  | error e s' =>
    rcases endsAt_error hends with ⟨-, -, -, rfl⟩ | hanswer
    · exact Ends.of_error hends ⟨rfl, rfl⟩
    · have halike := (hquiet err k s).run_error hanswer
      exact Ends.of_error hends ⟨halike.store_eq, halike.buffers_eq⟩

variable [Scalar S] (h : Allowed C P w x dx)
include h

theorem profile_obeys (alpha : S) (hs : C.Holds s) :
    (profilePassage P w x dx alpha).Obeys C (fun _ _ => True) s := by
  have hahead : w.ahead ∈ C.writable := h.trial (by simp [Scratch.trial])
  have hresidual : w.residualAhead ∈ C.writable := h.trial (by simp [Scratch.trial])
  refine .bind (hs.addScaledInto h.closed hahead h.iterate (C.writable_subset h.direction) _) ?_
  refine fun _ s₁ _ hs₁ _ => .bind (hs₁.into h.respects hresidual (C.writable_subset hahead)) ?_
  exact fun _ s₂ _ hs₂ _ => normAt_obeys P _ hs₂

theorem derivative_obeys (e : S) {result v : Ref} (hresult : result ∈ C.writable)
    (hv : v ∈ C.readable) (hs : C.Holds s) :
    (derivativePassage w x P.residual P.backend e result v).Obeys C (fun _ _ => True) s := by
  have hahead : w.ahead ∈ C.writable := h.trial (by simp [Scratch.trial])
  have hbehind : w.behind ∈ C.writable := h.trial (by simp [Scratch.trial])
  have hra : w.residualAhead ∈ C.writable := h.trial (by simp [Scratch.trial])
  have hrb : w.residualBehind ∈ C.writable := h.trial (by simp [Scratch.trial])
  refine .bind (hs.addScaledInto h.closed hahead h.iterate hv _) fun _ s₁ _ hs₁ _ => ?_
  refine .bind (hs₁.addScaledInto h.closed hbehind h.iterate hv _) fun _ s₂ _ hs₂ _ => ?_
  refine .bind (hs₂.into h.respects hra (C.writable_subset hahead)) fun _ s₃ _ hs₃ _ => ?_
  refine .bind (hs₃.into h.respects hrb (C.writable_subset hbehind)) fun _ s₄ _ hs₄ _ => ?_
  have hread := C.writable_subset hra
  refine .bind (hs₄.addScaledInto h.closed hresult hread (C.writable_subset hrb) _) ?_
  refine fun _ s₅ _ hs₅ _ => .bind (hs₅.reciprocal _) fun d s₆ _ hs₆ _ => ?_
  exact hs₆.scaleInto h.closed hresult (C.writable_subset hresult) d

theorem directionProblem_obeys (M : Method V S R σ) :
    (directionPassages P M w x dx).Obey C where
  closed := h.closed
  rhs := h.residual
  unknown := h.direction
  new := h.grants
  operator hs hresult hv := .bind (hs.demand M.halfWidth) fun e _ _ hs₁ _ =>
    derivative_obeys h e hresult hv hs₁

variable {T : M.Passages} (hT : T.Obey C) (hx : x ∈ C.writable)
include hT

theorem solver_obeys (hs : C.Holds s) :
    (T.solver (directionPassages P M w x dx)).Obeys C (fun _ _ => True) s :=
  hT.solver (directionProblem_obeys h M) hs

theorem search_obeys (hs : C.Holds s) :
    (T.search (profilePassage P w x dx)).Obeys C (fun _ _ => True) s :=
  hT.search (fun alpha _ => profile_obeys h alpha) hs

include hx

theorem update_obeys (k : Nat) (err : R) (hs : C.Holds s) :
    (updatePassage P w x dx T k err).Obeys C (fun _ _ => True) s := by
  refine .bind (solver_obeys h hT hs) fun _ s₁ _ hs₁ _ => ?_
  refine .bind (search_obeys h hT hs₁) fun found s₂ _ hs₂ _ => ?_
  refine .bind (hs₂.report _) fun _ s₃ _ hs₃ _ => ?_
  exact hs₃.addScaledInto h.closed hx h.iterate (C.writable_subset h.direction) _

variable [Magnitude R] (hquiet : Quiet notify)
include hquiet

theorem iterations_obeys (remaining done : Nat) (last : Option R) (hs : C.Holds s) :
    (iterationsPassage P notify w x dx T remaining done last).Obeys C (fun _ _ => True) s := by
  induction remaining generalizing done last s with
  | zero => exact hs.still rfl trivial
  | succ remaining ih =>
    refine .bind (hs.into h.respects h.residual h.iterate) fun _ s₁ _ hs₁ _ => ?_
    refine .bind (normAt_obeys P w.residual hs₁) fun err s₂ _ hs₂ _ => ?_
    refine .bind (endsAt_obeys M hquiet _ err hs₂) fun ended s₃ _ hs₃ _ => ?_
    cases ended with
    | some ending => exact hs₃.still rfl trivial
    | none => exact .bind (update_obeys h hT hx _ err hs₃) fun _ s₄ _ hs₄ _ => ih _ _ hs₄

theorem onward_obeys (hs : C.Holds s) :
    (onwardPassage P notify w x dx T).Obeys C (fun _ _ => True) s := by
  refine .bind (hs.demand M.maxiter) fun n s₁ _ hs₁ _ => ?_
  refine .bind (iterations_obeys h hT hx hquiet n 0 none hs₁) fun ending s₂ _ hs₂ _ => ?_
  refine .bind (hs₂.report _) fun _ s₃ _ hs₃ _ => ?_
  exact hs₃.still rfl trivial

end Conduct

end Newton

end NewtonKrylov
