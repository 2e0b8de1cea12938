import NewtonKrylov.Config
import NewtonKrylov.Proofs.Newton.Workspace

/-!
# Working without telling

A run is discreet (`Run.Discreet`) if it loses no vector, reports and remembers nothing, and does the
same whatever has been remembered. Vector operations, requests for work vectors and what collaborators
do are discreet, and so is what is composed of them.

A solver is discreet if what it does with a discreet problem is, and a line search if what it does with
a discreet profile is (`Method.Discreet`). GMRES and every inquiry are (`Gmres.solve_discreet`,
`Inquiry.run_discreet`), and so is what a configuration describes (`Config.toMethod_discreet`). What
Newton's method asks of them is a discreet problem and a discreet profile.
-/

namespace NewtonKrylov

variable {V S R σ α β : Type}

/-- The same session with other things remembered. -/
def Session.withHistory (h : List (Nat × R)) (s : Session V S R σ) : Session V S R σ :=
  { s with history := h }

namespace Run

/-- From a session that remembers `h` instead, `act'` does what `act` does. -/
def Mirrors (h : List (Nat × R)) (act act' : Run V S R σ α) : Prop :=
  ∀ s, act' (s.withHistory h) = seenThrough (Session.withHistory h) (act s)

namespace Mirrors

variable {h : List (Nat × R)} {act act' : Run V S R σ α}

theorem bind {next next' : α → Run V S R σ β} (hact : Mirrors h act act')
    (hnext : ∀ a, Mirrors h (next a) (next' a)) : Mirrors h (act >>= next) (act' >>= next') := by
  intro s
  have hs := hact s
  cases hrun : act s with
  | ok a s' =>
    rw [hrun] at hs
    rw [bind_run_ok hs, bind_run_ok hrun]
    exact hnext a s'
  | error e s' =>
    rw [hrun] at hs
    rw [bind_run_error hs, bind_run_error hrun]
    rfl

end Mirrors

variable [Inhabited V]

/-- Loses no vector, reports and remembers nothing, and does not look at what has been remembered. -/
structure Discreet (act : Run V S R σ α) : Prop where
  keeps : ∀ s, Ends (fun _ => s.Keeps ∅) (s.Keeps ∅) act s
  blind : ∀ h, Mirrors h act act

namespace Discreet

theorem pure (a : α) : Discreet (Pure.pure a : Run V S R σ α) where
  keeps s := Ends.of_ok rfl (Session.Keeps.refl ∅ s)
  blind _ _ := rfl

theorem throw (e : Fault R) : Discreet (MonadExcept.throw e : Run V S R σ α) where
  keeps s := Ends.of_error rfl (Session.Keeps.refl ∅ s)
  blind _ _ := rfl

theorem bind {act : Run V S R σ α} {next : α → Run V S R σ β} (h : Discreet act)
    (hnext : ∀ a, Discreet (next a)) : Discreet (act >>= next) where
  keeps s := by
    refine (h.keeps s).bind fun a s' hs' => ?_
    exact ((hnext a).keeps s').mono (fun _ _ hs'' => hs'.trans hs'') fun _ hs'' => hs'.trans hs''
  blind hist := (h.blind hist).bind fun a => (hnext a).blind hist

theorem ite {c : Prop} [Decidable c] {act act' : Run V S R σ α} (h : Discreet act)
    (h' : Discreet act') : Discreet (if c then act else act') := by
  split
  · exact h
  · exact h'

theorem look (g : Store V → α) : Discreet (fun s => .ok (g s.store) s : Run V S R σ α) where
  keeps s := Ends.of_ok rfl (Session.Keeps.refl ∅ s)
  blind _ _ := rfl

theorem write (r : Ref) (g : Store V → V) :
    Discreet (fun s => .ok () (s.write r (g s.store)) : Run V S R σ Unit) where
  keeps _ := Ends.of_ok rfl (Session.Keeps.write id)
  blind _ _ := rfl

theorem allocate (name : String) (v : V) : Discreet (Run.allocate name v : Run V S R σ Ref) where
  keeps _ := Ends.of_ok rfl (Session.Keeps.push (fun _ => False.elim) name)
  blind _ _ := rfl

theorem onBuffers (g : Buffers → α) (change : Buffers → Buffers) :
    Discreet (fun s => .ok (g s.buffers) { s with buffers := change s.buffers } : Run V S R σ α) where
  keeps _ := Ends.of_ok rfl (Session.Keeps.of_store_eq rfl rfl rfl)
  blind _ _ := rfl

omit [Inhabited V] in
theorem keptAs_eq (new : String → Run V S R σ Ref) (name : String) :
    Run.keptAs new name =
      (fun s => .ok (s.buffers.find? name) { s with buffers := s.buffers } : Run V S R σ _) >>=
        fun found => match found with
          | some r => Pure.pure r
          | none => new name >>= fun r =>
            (fun s => .ok r { s with buffers := s.buffers.insert name r }) := rfl

theorem keptAs {new : String → Run V S R σ Ref} (h : ∀ name, Discreet (new name)) (name : String) :
    Discreet (Run.keptAs new name) := by
  rw [keptAs_eq]
  refine bind (onBuffers (fun b => b.find? name) fun b => b) fun found => ?_
  cases found with
  | some r => exact pure r
  | none => exact bind (h name) fun r => onBuffers (fun _ => r) fun b => b.insert name r

theorem consult (act : Collab R σ α) : Discreet (Run.consult act : Run V S R σ α) where
  keeps s := by
    refine (Run.consult_follows act s).ends.mono ?_ ?_
    · rintro _ _ ⟨_, o, -, rfl⟩
      exact Session.Keeps.of_store_eq rfl rfl rfl
    · rintro _ ⟨o, rfl⟩
      exact Session.Keeps.of_store_eq rfl rfl rfl
  blind h s := by
    simp only [Run.consult, Session.withHistory]
    cases act s.outside with
    | ok a o => rfl
    | error e o => rfl

theorem demand (x : Except (Fault R) α) : Discreet (Run.demand x : Run V S R σ α) := by
  cases x with
  | ok a => exact pure a
  | error e => exact throw e

variable [Scalar S]

theorem reciprocal (x : S) : Discreet (Run.reciprocal x : Run V S R σ S) :=
  Run.reciprocal_eq x ▸ demand _

end Discreet

end Run

variable [Inhabited V]

/-! ## Vector operations -/

namespace Backend

variable (K : Backend S V)

theorem new_discreet [Scalar S] (name : String) : (K.new name : Run V S R σ Ref).Discreet :=
  .allocate name _

theorem dotAt_discreet (a b : Ref) : (K.dotAt a b : Run V S R σ S).Discreet :=
  .look fun st => K.dot (st.read a) (st.read b)

theorem addScaledInto_discreet (dest a b : Ref) (c : S) :
    (K.addScaledInto dest a b c : Run V S R σ Unit).Discreet :=
  .write dest fun st => K.addScaled (st.read a) (st.read b) c

theorem addScaledWideInto_discreet (dest a b : Ref) (c : S) :
    (K.addScaledWideInto dest a b c : Run V S R σ Unit).Discreet :=
  .write dest fun st => K.addScaledWide (st.read a) (st.read b) c

theorem scaleInto_discreet (dest a : Ref) (c : S) :
    (K.scaleInto dest a c : Run V S R σ Unit).Discreet :=
  .write dest fun st => K.scale (st.read a) c

end Backend

theorem Residual.into_discreet (f : Residual V R σ) (out x : Ref) :
    (f.into out x : Run V S R σ Unit).Discreet :=
  .bind (.look fun st => st.read out) fun old =>
    .bind (.look fun st => st.read x) fun point =>
      .bind (.consult (f old point)) fun y => .write out fun _ => y

/-! ## Solvers -/

structure LinearProblem.Discreet (p : LinearProblem V S R σ) : Prop where
  new : ∀ name, (p.new name).Discreet
  operator : ∀ result v, (p.operator result v).Discreet

def KrylovSolver.Discreet (solver : KrylovSolver V S R σ) : Prop :=
  ∀ p : LinearProblem V S R σ, p.Discreet → (solver p).Discreet

variable [Scalar S]

theorem LinearProblem.lengthAt_discreet (p : LinearProblem V S R σ) (a : Ref) :
    (p.lengthAt a).Discreet :=
  .bind (p.backend.dotAt_discreet a a) fun _ => .pure _

namespace Gmres

variable (g : Gmres S R) (lsq : LeastSquares S) {p : LinearProblem V S R σ}

theorem orthogonalise_discreet (w : Ref) (vs : List Ref) : (orthogonalise p w vs).Discreet := by
  induction vs with
  | nil => exact .pure []
  | cons v vs ih =>
    refine .bind (p.backend.dotAt_discreet w v) fun h => ?_
    refine .bind (p.backend.addScaledWideInto_discreet w w v (-h)) fun _ => ?_
    exact .bind ih fun hs => .pure (h :: hs)

omit [Scalar S] in
theorem combine_discreet (vs : List Ref) (ys : List S) : (combine p vs ys).Discreet := by
  induction vs generalizing ys with
  | nil => exact .pure ()
  | cons v vs ih =>
    cases ys with
    | nil => exact .pure ()
    | cons y ys => exact .bind (p.backend.addScaledInto_discreet _ _ v y) fun _ => ih ys

variable (hp : p.Discreet)
include hp

theorem step_discreet (w : Ref) (beta target : S) (v : Ref) (c : Cycle Ref S) :
    (step g lsq p w beta target v c).Discreet := by
  unfold step
  refine .bind (hp.operator w v) fun _ => ?_
  refine .bind (p.lengthAt_discreet w) fun before => ?_
  refine .bind (orthogonalise_discreet w _) fun projections => ?_
  refine .bind (p.lengthAt_discreet w) fun h => ?_
  refine .ite (.pure _) ?_
  refine .bind (.demand g.breakdownTol) fun fraction => ?_
  refine .ite (.pure _) ?_
  refine .bind (hp.new _) fun next => ?_
  refine .bind (.reciprocal h) fun d => ?_
  exact .bind (p.backend.scaleInto_discreet next w d) fun _ => .pure _

theorem steps_discreet (w : Ref) (beta target : S) (count : Nat) (v : Ref) (c : Cycle Ref S) :
    (steps g lsq p w beta target count v c).Discreet := by
  induction count generalizing v c with
  | zero => exact .pure c
  | succ count ih =>
    unfold steps
    refine .ite (.bind (step_discreet g lsq hp w beta target v c) fun after => ?_) (.pure c)
    obtain ⟨c', _ | next⟩ := after
    · exact .pure c'
    · exact ih next c'

theorem residualInto_discreet (r : Ref) : (residualInto p r).Discreet :=
  .bind (hp.operator r p.unknown) fun _ => p.backend.addScaledInto_discreet r p.rhs r _

theorem cycle_discreet (r w : Ref) (beta target : S) (spent : Nat) :
    (cycle g lsq p r w beta target spent).Discreet := by
  unfold cycle
  refine .bind (hp.new _) fun v => ?_
  refine .bind (.reciprocal beta) fun d => ?_
  refine .bind (p.backend.scaleInto_discreet v r d) fun _ => ?_
  exact .bind (.demand g.restart) fun count => steps_discreet g lsq hp w beta target count v _

theorem cycles_discreet (r w : Ref) (target : S) (fuel spent begun : Nat) :
    (cycles g lsq p r w target fuel spent begun).Discreet := by
  induction fuel generalizing spent begun with
  | zero => exact .pure _
  | succ fuel ih =>
    unfold cycles
    refine .ite ?_ (.pure _)
    refine .bind (residualInto_discreet hp r) fun _ => ?_
    refine .bind (p.lengthAt_discreet r) fun beta => ?_
    refine .ite (.pure _) (.ite (.pure _) ?_)
    refine .bind (cycle_discreet g lsq hp r w beta target spent) fun c => ?_
    refine .ite (.pure _) ?_
    refine .bind (combine_discreet c.basis c.coefficients) fun _ => ?_
    exact .ite (.pure _) (.ite (.pure _) (ih c.spent (begun + 1)))

omit hp in
theorem solve_discreet : (g.solve lsq : KrylovSolver V S R σ).Discreet := by
  intro p hp
  refine .bind ?_ fun _ => .pure ()
  unfold call
  refine .bind (hp.new _) fun r => .bind (hp.new _) fun w => ?_
  refine .bind (p.lengthAt_discreet p.rhs) fun rhsLength => ?_
  refine .ite (.bind (p.backend.scaleInto_discreet _ _ _) fun _ => .pure _) ?_
  exact .bind (.demand g.tol) fun tol => cycles_discreet g lsq hp r w _ _ 0 0

end Gmres

/-! ## Line searches -/

omit [Scalar S] in
theorem Inquiry.run_discreet (q : Inquiry S R (Fault R) σ) {profile : S → Run V S R σ R}
    (hprofile : ∀ alpha, (profile alpha).Discreet) :
    Run.Discreet (q.run Run.turn profile) := by
  induction q with
  | choose alpha line => exact .pure (alpha, line)
  | fail e => exact .throw e
  | look alpha next ih => exact .bind (hprofile alpha) ih
  | turn change next ih => exact .bind (.consult _) ih

/-! ## Newton's method -/

/-- The solver and the line search are discreet. -/
structure Method.Discreet (M : Method V S R σ) : Prop where
  solver : M.solver.Discreet
  search : ∀ profile, (∀ alpha, (profile alpha).Discreet) → (M.search profile M.reach).Discreet

theorem Method.Discreet.of_gmres {M : Method V S R σ} {g : Gmres S R} {lsq : LeastSquares S}
    {q : Inquiry S R (Fault R) σ} (hsolver : M.solver = g.solve lsq)
    (hsearch : ∀ profile, M.search profile M.reach = q.run Run.turn profile) : M.Discreet where
  solver := hsolver ▸ g.solve_discreet lsq
  search profile hprofile := hsearch profile ▸ q.run_discreet hprofile

section Configured

variable {K N C : Type} [Numeral S] {custom : K → KrylovSolver V S Float σ}
variable (hcustom : ∀ solver, (custom solver).Discreet)
include hcustom

theorem SolverChoice.toSolver_discreet (choice : SolverChoice K) :
    (choice.toSolver custom).Discreet := by
  cases choice with
  | gmres parameters => exact Gmres.solve_discreet _ _
  | custom solver => exact hcustom solver
  | plain v => exact fun _ _ => .throw _

/-- Whatever its options, a configuration describes a discreet method. -/
theorem Config.toMethod_discreet (c : Config K N C) :
    (c.toMethod (c.options.linsolver.toSolver custom)).Discreet where
  solver := SolverChoice.toSolver_discreet hcustom c.options.linsolver
  search profile hprofile := by
    show Run.Discreet (c.search.toLineSearch.run profile _)
    rw [LineSearch.run_eq_inquiry]
    exact Inquiry.run_discreet _ hprofile

end Configured

namespace Newton

variable (P : NonlinearProblem V S R σ) {M : Method V S R σ} (w : Scratch) (x dx : Ref)

omit [Scalar S] in
theorem normAt_discreet (r : Ref) : (normAt P r : Run V S R σ R).Discreet :=
  .bind (.look fun st => st.read r) fun v => .consult (P.norm v)

theorem profile_discreet (alpha : S) : (profile P w x dx alpha).Discreet := by
  refine .bind (P.backend.addScaledInto_discreet w.ahead x dx (-alpha)) fun _ => ?_
  exact .bind (P.residual.into_discreet _ _) fun _ => normAt_discreet P _

theorem derivative_discreet (f : Residual V R σ) (K : Backend S V) (e : S) (result v : Ref) :
    (f.derivative K w x e result v).Discreet := by
  refine .bind (K.addScaledInto_discreet w.ahead x v e) fun _ => ?_
  refine .bind (K.addScaledInto_discreet w.behind x v (-e)) fun _ => ?_
  refine .bind (f.into_discreet w.residualAhead w.ahead) fun _ => ?_
  refine .bind (f.into_discreet w.residualBehind w.behind) fun _ => ?_
  refine .bind (K.addScaledInto_discreet result _ _ _) fun _ => ?_
  exact .bind (.reciprocal _) fun d => K.scaleInto_discreet result result d

theorem directionProblem_discreet : (directionProblem P M w x dx).Discreet where
  new := .keptAs P.backend.new_discreet
  operator result v :=
    .bind (.demand M.halfWidth) fun e => derivative_discreet w x P.residual P.backend e result v

theorem direction_discreet (given : Option Ref) : (direction P x given).Discreet := by
  cases given with
  | some dx => exact .pure dx
  | none =>
    refine .bind (P.backend.new_discreet "dx") fun dx => ?_
    exact .bind (P.backend.scaleInto_discreet dx x _) fun _ => .pure dx

theorem opening_discreet (given : Option Ref) : (opening P x given).Discreet := by
  refine .bind ?_ fun w => .bind (direction_discreet P x given) fun dx => ?_
  · unfold Scratch.allocate
    refine .bind (P.backend.new_discreet _) fun _ => ?_
    refine .bind (P.backend.new_discreet _) fun _ => ?_
    refine .bind (P.backend.new_discreet _) fun _ => ?_
    refine .bind (P.backend.new_discreet _) fun _ => ?_
    exact .bind (P.backend.new_discreet _) fun _ => .pure _
  · exact .bind (.onBuffers (fun _ => PUnit.unit) fun _ => {}) fun _ => .pure (w, dx)

end Newton

namespace Method.Discreet

variable {M : Method V S R σ} (hM : M.Discreet)
variable (P : NonlinearProblem V S R σ) (w : Scratch) (x dx : Ref) (s : Session V S R σ)
include hM

theorem solve_ends : Ends (fun _ => s.Keeps ∅) (s.Keeps ∅)
    (M.solver (Newton.directionProblem P M w x dx)) s :=
  (hM.solver _ (Newton.directionProblem_discreet P w x dx)).keeps s

theorem search_ends : Ends (fun _ => s.Keeps ∅) (s.Keeps ∅)
    (M.search (Newton.profile P w x dx) M.reach) s :=
  (hM.search _ (Newton.profile_discreet P w x dx)).keeps s

variable {P w x dx s}

theorem keeps_of_ok {s₁ s₂ : Session V S R σ} {found : S × Option R}
    (hsolver : M.solver (Newton.directionProblem P M w x dx) s = .ok () s₁)
    (hsearch : M.search (Newton.profile P w x dx) M.reach s₁ = .ok found s₂) : s.Keeps ∅ s₂ :=
  ((hM.solve_ends P w x dx s).run_ok hsolver).trans ((hM.search_ends P w x dx s₁).run_ok hsearch)

end Method.Discreet

end NewtonKrylov
