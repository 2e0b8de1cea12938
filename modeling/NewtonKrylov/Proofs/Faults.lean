import NewtonKrylov.Krylov.Gmres
import NewtonKrylov.Proofs.Newton.Rounds

/-!
# The faults that a run can end in

`FailsIn E act`: wherever `act` starts, it returns or fails for a cause in `E`. Where `E` holds the
faults of arithmetic, a run of Newton's method adds no fault to those of its collaborators
(`Newton.run_failsIn`), the built-in searches add none to those of the profile, the reach and the budget
(`LineSearch.run_failsIn`), and GMRES adds none to those of its parameters and of the problem that it is
handed (`Gmres.solve_failsIn`).
-/

namespace NewtonKrylov

variable {ε s α β : Type}

/-- Wherever it starts, it returns or fails for a cause in `E`. -/
def FailsIn (E : Set ε) (act : EStateM ε s α) : Prop :=
  ∀ a e a', act a = .error e a' → e ∈ E

/-- Where there is no value, the cause is in `E`. -/
def MissingIn (E : Set ε) (x : Except ε α) : Prop :=
  ∀ e, x = .error e → e ∈ E

theorem MissingIn.ok (E : Set ε) (u : α) : MissingIn E (.ok u) := fun _ h => nomatch h

theorem MissingIn.error {E : Set ε} {e : ε} (he : e ∈ E) : MissingIn E (.error e : Except ε α) := by
  rintro _ ⟨⟩
  exact he

theorem MissingIn.bind {E : Set ε} {x : Except ε α} {f : α → Except ε β} (hx : MissingIn E x)
    (hf : ∀ u, MissingIn E (f u)) : MissingIn E (x >>= f) := by
  cases x with
  | ok u => exact hf u
  | error e => exact .error (hx e rfl)

namespace FailsIn

variable {E F : Set ε} {act act' : EStateM ε s α}

theorem mono (h : FailsIn E act) (hEF : E ⊆ F) : FailsIn F act := fun a e a' hact => hEF (h a e a' hact)

theorem of_ok (h : ∀ a, ∃ u a', act a = .ok u a') : FailsIn E act := by
  intro a e a' hact
  obtain ⟨u, a₁, hok⟩ := h a
  rw [hok] at hact
  exact nomatch hact

theorem pure (u : α) : FailsIn E (Pure.pure u : EStateM ε s α) := of_ok fun _ => ⟨_, _, rfl⟩

theorem throw {e : ε} (he : e ∈ E) : FailsIn E (MonadExcept.throw e : EStateM ε s α) := by
  rintro a _ a' ⟨⟩
  exact he

theorem bind {f : α → EStateM ε s β} (h : FailsIn E act) (hf : ∀ u, FailsIn E (f u)) :
    FailsIn E (act >>= f) := by
  intro a e a' hbind
  rcases bind_eq_error hbind with hact | ⟨u, a₁, -, hnext⟩
  · exact h a e a' hact
  · exact hf u a₁ e a' hnext

theorem ite {c : Prop} [Decidable c] (h : FailsIn E act) (h' : FailsIn E act') :
    FailsIn E (if c then act else act') := by
  split
  · exact h
  · exact h'

theorem orFail {x : Except ε α} (hx : MissingIn E x) :
    FailsIn E (LineSearch.orFail x : EStateM ε s α) := by
  cases x with
  | ok u => exact pure u
  | error e => exact throw (hx e rfl)

end FailsIn

/-! ## Line searches -/

namespace LineSearch

variable {S R : Type} [Scalar S] [Magnitude R] {E : Set ε} {profile : S → EStateM ε s R}
variable {reach : Reach ε S} (hprofile : ∀ alpha, FailsIn E (profile alpha))
include hprofile

omit [Scalar S] in
theorem gridFrom_failsIn (hpart : ∀ i n, MissingIn E (reach.part i n)) (n count i : Nat)
    (best : S × R) : FailsIn E (gridFrom profile reach n count i best) := by
  induction count generalizing i best with
  | zero => exact .pure best
  | succ count ih =>
    exact .bind (.orFail (hpart i n)) fun alpha => .bind (hprofile alpha) fun norm => ih (i + 1) _

theorem bisectFrom_failsIn (n : Nat) (b : Bracket S R) : FailsIn E (bisectFrom profile n b) := by
  induction n generalizing b with
  | zero => exact .pure b
  | succ n ih =>
    refine .bind (hprofile b.middle) fun norm => ?_
    cases b.narrow b.middle norm with
    | none => exact .pure b
    | some b' => exact ih b'

omit [Magnitude R] in
theorem openBracket_failsIn (hlargest : MissingIn E reach.largest) :
    FailsIn E (openBracket profile reach) :=
  .bind (hprofile _) fun _ => .bind (.orFail hlargest) fun right => .bind (hprofile right) fun _ =>
    .pure _

theorem run_failsIn (search : LineSearch ε) (hlargest : MissingIn E reach.largest)
    (hpart : ∀ i n, MissingIn E (reach.part i n))
    (hbudget : search.policy ≠ .full → MissingIn E search.budget) :
    FailsIn E (search.run profile reach) := by
  obtain ⟨policy, budget⟩ := search
  cases policy with
  | full => exact .bind (.orFail hlargest) fun alpha => .pure _
  | grid =>
    refine .bind (.orFail (hbudget nofun)) fun n => ?_
    exact .bind (gridFrom_failsIn hprofile hpart n _ _ _) fun best => .pure _
  | bisection =>
    refine .bind (openBracket_failsIn hprofile hlargest) fun b => ?_
    refine .bind (.orFail (hbudget nofun)) fun n => ?_
    exact .bind (bisectFrom_failsIn hprofile n b) fun b => .pure _

omit hprofile in
/-- A search that has a use for its budget never returns without one. -/
theorem run_ne_ok {search : LineSearch ε} (hpolicy : search.policy ≠ .full) {e : ε}
    (hbudget : search.budget = .error e) (a : s) (found : S × Option R) (a' : s) :
    search.run profile reach a ≠ .ok found a' := by
  obtain ⟨policy, budget⟩ := search
  obtain rfl : budget = .error e := hbudget
  intro hrun
  cases policy with
  | full => exact hpolicy rfl
  | grid =>
    obtain ⟨_, _, hn, -⟩ := bind_eq_ok hrun
    exact nomatch hn
  | bisection =>
    obtain ⟨_, _, -, hrun⟩ := bind_eq_ok hrun
    obtain ⟨_, _, hn, -⟩ := bind_eq_ok hrun
    exact nomatch hn

end LineSearch

/-! ## Runs -/

variable {V S R σ : Type}

namespace FailsIn

variable {E : Set (Fault R)}

theorem demand {x : Except (Fault R) α} (hx : MissingIn E x) :
    FailsIn E (Run.demand x : Run V S R σ α) := by
  cases x with
  | ok u => exact .pure u
  | error e => exact .throw (hx e rfl)

theorem consult {act : Collab R σ α} (h : FailsIn E act) :
    FailsIn E (Run.consult act : Run V S R σ α) := by
  intro s e s' hact
  have hfollows := Run.consult_follows act s
  rw [Follows, hact] at hfollows
  cases hout : act s.outside with
  | ok u o => simp only [hout] at hfollows
  | error e' o =>
    simp only [hout] at hfollows
    exact hfollows.1 ▸ h _ _ _ hout

theorem reciprocal [Scalar S] (hdivision : Fault.divisionByZero ∈ E) (x : S) :
    FailsIn E (Run.reciprocal x : Run V S R σ S) :=
  .ite (.throw hdivision) (.pure _)

theorem keptAs {new : String → Run V S R σ Ref} (h : ∀ name, FailsIn E (new name)) (name : String) :
    FailsIn E (Run.keptAs new name) := by
  refine .bind (.of_ok fun _ => ⟨_, _, rfl⟩) fun s => ?_
  cases s.buffers.find? name with
  | some r => exact .pure r
  | none => exact .bind (h name) fun r => .bind (.of_ok fun _ => ⟨_, _, rfl⟩) fun _ => .pure r

end FailsIn

variable [Inhabited V]

/-- The residual function and the norm fail for causes in `E` only. -/
structure NonlinearProblem.FaultsIn (P : NonlinearProblem V S R σ) (E : Set (Fault R)) : Prop where
  residual : ∀ old x, FailsIn E (P.residual old x)
  norm : ∀ v, FailsIn E (P.norm v)

/-- The solver adds faults in `E` only to those of the problem that it is handed. -/
def KrylovSolver.FaultsIn (solver : KrylovSolver V S R σ) (E : Set (Fault R)) : Prop :=
  ∀ F, E ⊆ F → ∀ p : LinearProblem V S R σ, (∀ name, FailsIn F (p.new name)) →
    (∀ result v, FailsIn F (p.operator result v)) → FailsIn F (solver p)

omit [Inhabited V] in
theorem KrylovSolver.FaultsIn.mono {solver : KrylovSolver V S R σ} {E F : Set (Fault R)}
    (h : KrylovSolver.FaultsIn solver E) (hEF : E ⊆ F) : KrylovSolver.FaultsIn solver F :=
  fun G hFG => h G (hEF.trans hFG)

/-- What a method is made of fails for causes in `E` only. -/
structure Method.FaultsIn (M : Method V S R σ) (E : Set (Fault R)) : Prop where
  maxiter : MissingIn E M.maxiter
  halfWidth : MissingIn E M.halfWidth
  solver : KrylovSolver.FaultsIn M.solver E
  search : ∀ profile, (∀ alpha, FailsIn E (profile alpha)) →
    FailsIn E (M.search profile M.reach)

/-- The callback, if there is one, fails for causes in `E` only. -/
def NotifyIn (E : Set (Fault R)) (notify : Option (R → Nat → Run V S R σ Bool)) : Prop :=
  ∀ tell ∈ notify, ∀ err k, FailsIn E (tell err k)

variable [Scalar S] {E : Set (Fault R)}

namespace Newton

variable {P : NonlinearProblem V S R σ} {M : Method V S R σ} {w : Scratch} {x dx : Ref}

section Problem

variable (hP : P.FaultsIn E)
include hP

omit [Scalar S] in
theorem into_failsIn (out x : Ref) : FailsIn E (P.residual.into out x : Run V S R σ Unit) :=
  .bind (.of_ok fun _ => ⟨_, _, rfl⟩) fun old => .bind (.of_ok fun _ => ⟨_, _, rfl⟩) fun point =>
    .bind (.consult (hP.residual old point)) fun _ => .of_ok fun _ => ⟨_, _, rfl⟩

omit [Scalar S] in
theorem normAt_failsIn (r : Ref) : FailsIn E (normAt P r : Run V S R σ R) :=
  .bind (.of_ok fun _ => ⟨_, _, rfl⟩) fun v => .consult (hP.norm v)

omit [Scalar S] in
theorem measure_failsIn : FailsIn E (measure P w x) :=
  .bind (into_failsIn hP w.residual x) fun _ => normAt_failsIn hP w.residual

theorem profile_failsIn (alpha : S) : FailsIn E (profile P w x dx alpha) :=
  .bind (.of_ok fun _ => ⟨_, _, rfl⟩) fun _ => .bind (into_failsIn hP _ _) fun _ => normAt_failsIn hP _

variable (hdivision : Fault.divisionByZero ∈ E)
include hdivision

theorem derivative_failsIn (e : S) (result v : Ref) :
    FailsIn E (P.residual.derivative P.backend w x e result v) :=
  .bind (.of_ok fun _ => ⟨_, _, rfl⟩) fun _ => .bind (.of_ok fun _ => ⟨_, _, rfl⟩) fun _ =>
    .bind (into_failsIn hP _ _) fun _ => .bind (into_failsIn hP _ _) fun _ =>
      .bind (.of_ok fun _ => ⟨_, _, rfl⟩) fun _ => .bind (.reciprocal hdivision _) fun _ =>
        .of_ok fun _ => ⟨_, _, rfl⟩

theorem solver_failsIn (hM : M.FaultsIn E) : FailsIn E (M.solver (directionProblem P M w x dx)) := by
  have hnew : ∀ name, FailsIn E (P.backend.new name : Run V S R σ Ref) :=
    fun _ => .of_ok fun _ => ⟨_, _, rfl⟩
  refine hM.solver E subset_rfl _ (fun name => .keptAs hnew name) ?_
  exact fun result v => .bind (.demand hM.halfWidth) fun e => derivative_failsIn hP hdivision e result v

end Problem

variable [Magnitude R] {notify : Option (R → Nat → Run V S R σ Bool)} {s s' : Session V S R σ}
variable {k : Nat} {e : Fault R}
variable (hP : P.FaultsIn E) (hM : M.FaultsIn E) (hnotify : NotifyIn E notify)
variable (hdivision : Fault.divisionByZero ∈ E)
include hP hM hnotify hdivision

theorem Raises.mem (h : Raises P M notify w x dx k s e s') : e ∈ E := by
  cases h with
  | measure hmeasure => exact measure_failsIn hP _ _ _ hmeasure
  | callback hmeasure hfinite hanswer =>
    cases notify with
    | none => exact nomatch hanswer
    | some tell => exact hnotify tell rfl _ _ _ _ _ hanswer
  | solver hheard haccepts hsolver => exact solver_failsIn hP hdivision hM _ _ _ hsolver
  | search hheard haccepts hsolver hsearch =>
    exact hM.search _ (profile_failsIn hP) _ _ _ hsearch

variable (hfinite : ∀ k err, Fault.nonFinite k err ∈ E)
include hfinite

theorem iterations_failsIn (n : Nat) : FailsIn E (iterations P M notify w x dx n 0 none) := by
  intro s₀ e s' herror
  obtain ⟨rs, s, -, hexits | ⟨-, e', s₁, hiter, hraises⟩⟩ :=
    iterations_rounds P M notify w x dx n s₀
  · rw [herror] at hexits
    cases hexits with
    | nonFinite hlt hmeasure hcheck hinfinite => exact hfinite _ _
  · rw [herror] at hiter
    obtain ⟨rfl, rfl⟩ := EStateM.Result.error.inj hiter
    exact hraises.mem hP hM hnotify hdivision

omit hP hM hnotify hdivision hfinite [Magnitude R] in
theorem opening_ok (P : NonlinearProblem V S R σ) (x : Ref) (given : Option Ref)
    (s : Session V S R σ) : ∃ w dx s', opening P x given s = .ok (w, dx) s' := by
  cases given with
  | none => exact ⟨_, _, _, rfl⟩
  | some dx => exact ⟨_, _, _, rfl⟩

/-- Apart from what arithmetic refuses, a run fails only as its collaborators do. -/
theorem run_failsIn (given : Option Ref) : FailsIn E (run P M notify x given) := by
  rw [run_eq_opening]
  refine .bind (.of_ok fun s => ?_) fun v => ?_
  · obtain ⟨w, dx, s', hopening⟩ := opening_ok P x given s
    exact ⟨_, _, hopening⟩
  · exact .bind (.demand hM.maxiter) fun n =>
      .bind (iterations_failsIn hP hM hnotify hdivision hfinite n) fun ending =>
        .bind (.of_ok fun _ => ⟨_, _, rfl⟩) fun _ => .pure ending

omit hP hM hnotify hdivision hfinite in
/-- A run whose search never returns completes no iteration, so it returns in its first one or not at
all. -/
theorem run_of_search_ne_ok {n : Nat} {given : Option Ref} {ending : Ending R}
    (hsearch : ∀ profile s found s', M.search profile M.reach s ≠ .ok found s')
    (hmax : M.maxiter = .ok (n + 1)) (hrun : run P M notify x given s = .ok ending s') :
    ∃ err, ending = .stopped 1 err ∨ ending = .converged 1 err := by
  obtain ⟨w, dx, s₀, hopening⟩ := opening_ok P x given s
  rw [run_of_opening P M notify hopening, hmax] at hrun
  obtain ⟨_, _, ⟨⟩, hrun⟩ := bind_eq_ok hrun
  obtain ⟨_, s₁, hiter, hrun⟩ := bind_eq_ok hrun
  obtain ⟨rfl, -⟩ := EStateM.Result.ok.inj hrun
  obtain ⟨rs, s₂, hrounds, hexits | ⟨-, e, s₃, herror, -⟩⟩ :=
    iterations_rounds P M notify w x dx (n + 1) s₀
  · cases hrounds with
    | next _ _ _ _ hfound => exact absurd hfound (hsearch _ _ _ _)
    | start =>
      rw [hiter] at hexits
      cases hexits with
      | stopped hlt hheard => exact ⟨_, .inl rfl⟩
      | converged hlt hheard haccepts => exact ⟨_, .inr rfl⟩
      | exhausted hlength => exact absurd hlength n.succ_ne_zero.symm
  · rw [hiter] at herror
    exact nomatch herror

omit hP hM hnotify hdivision hfinite in
/-- A run whose norm always fails does so in its first iteration, unless the residual function fails
there. -/
theorem run_of_norm_error {n : Nat} {given : Option Ref} {cause : Fault R}
    (hnorm : ∀ v t, P.norm v t = .error cause t) (hmax : M.maxiter = .ok (n + 1)) :
    ∃ e s', run P M notify x given s = .error e s' ∧
      (e = cause ∨ ∃ old point t t', P.residual old point t = .error e t') := by
  obtain ⟨w, dx, s₀, hopening⟩ := opening_ok P x given s
  rw [run_of_opening P M notify hopening, hmax]
  have hfaults : P.FaultsIn {e | e = cause ∨ ∃ old point t t', P.residual old point t = .error e t'} :=
    { residual := fun old point t e t' h => .inr ⟨old, point, t, t', h⟩
      norm := fun v t e t' h => .inl (EStateM.Result.error.inj ((hnorm v t).symm.trans h)).1.symm }
  cases hmeasure : measure P w x s₀ with
  | ok err s₁ =>
    obtain ⟨_, s₂, -, hat⟩ := bind_eq_ok hmeasure
    obtain ⟨v, s₃, -, hconsult⟩ := bind_eq_ok hat
    simp only [Run.consult, hnorm, reduceCtorEq] at hconsult
  | error e s₁ =>
    refine ⟨e, s₁, ?_, measure_failsIn hfaults s₀ e s₁ hmeasure⟩
    have hassess : assess P M notify w x 1 s₀ = .error e s₁ := by
      rw [assess_eq, bind_run_error hmeasure]
    exact bind_run_error (iterations_of_refused hassess) _

end Newton

/-! ## GMRES -/

namespace Gmres

variable {g : Gmres S R} {lsq : LeastSquares S} {p : LinearProblem V S R σ}

theorem orthogonalise_failsIn (w : Ref) (vs : List Ref) : FailsIn E (orthogonalise p w vs) := by
  induction vs with
  | nil => exact .pure []
  | cons v vs ih =>
    exact .bind (.of_ok fun _ => ⟨_, _, rfl⟩) fun h => .bind (.of_ok fun _ => ⟨_, _, rfl⟩) fun _ =>
      .bind ih fun hs => .pure (h :: hs)

omit [Scalar S] in
theorem combine_failsIn (vs : List Ref) (ys : List S) : FailsIn E (combine p vs ys) := by
  induction vs generalizing ys with
  | nil => exact .pure ()
  | cons v vs ih =>
    cases ys with
    | nil => exact .pure ()
    | cons y ys => exact .bind (.of_ok fun _ => ⟨_, _, rfl⟩) fun _ => ih ys

/-- The parameters fail for causes in `E` only. -/
structure FaultsIn (g : Gmres S R) (E : Set (Fault R)) : Prop where
  tol : MissingIn E g.tol
  restart : MissingIn E g.restart
  breakdownTol : MissingIn E g.breakdownTol

variable (hoperator : ∀ result v, FailsIn E (p.operator result v))
include hoperator

theorem residualInto_failsIn (r : Ref) : FailsIn E (residualInto p r) :=
  .bind (hoperator r p.unknown) fun _ => .of_ok fun _ => ⟨_, _, rfl⟩

variable (hnew : ∀ name, FailsIn E (p.new name)) (hg : g.FaultsIn E)
variable (hdivision : Fault.divisionByZero ∈ E)
include hnew hg hdivision

theorem step_failsIn (w : Ref) (beta target : S) (v : Ref) (c : Cycle Ref S) :
    FailsIn E (step g lsq p w beta target v c) := by
  refine .bind (hoperator w v) fun _ => .bind (.of_ok fun _ => ⟨_, _, rfl⟩) fun before => ?_
  refine .bind (orthogonalise_failsIn w c.basis) fun projections => ?_
  refine .bind (.of_ok fun _ => ⟨_, _, rfl⟩) fun h => .ite (.pure _) ?_
  refine .bind (.demand hg.breakdownTol) fun fraction => .ite (.pure _) ?_
  refine .bind (hnew _) fun next => .bind (.reciprocal hdivision h) fun d => ?_
  exact .bind (.of_ok fun _ => ⟨_, _, rfl⟩) fun _ => .pure _

theorem steps_failsIn (w : Ref) (beta target : S) (count : Nat) (v : Ref) (c : Cycle Ref S) :
    FailsIn E (steps g lsq p w beta target count v c) := by
  induction count generalizing v c with
  | zero => exact .pure c
  | succ count ih =>
    refine .ite (.bind (step_failsIn hoperator hnew hg hdivision w beta target v c) ?_) (.pure c)
    rintro ⟨c', _ | next⟩
    · exact .pure c'
    · exact ih next c'

theorem cycle_failsIn (r w : Ref) (beta target : S) (spent : Nat) :
    FailsIn E (cycle g lsq p r w beta target spent) := by
  refine .bind (hnew _) fun v => .bind (.reciprocal hdivision beta) fun d => ?_
  refine .bind (.of_ok fun _ => ⟨_, _, rfl⟩) fun _ => .bind (.demand hg.restart) fun count => ?_
  exact steps_failsIn hoperator hnew hg hdivision w beta target count v _

theorem cycles_failsIn (r w : Ref) (target : S) (fuel spent begun : Nat) :
    FailsIn E (cycles g lsq p r w target fuel spent begun) := by
  induction fuel generalizing spent begun with
  | zero => exact .pure _
  | succ fuel ih =>
    refine .ite (.bind (residualInto_failsIn hoperator r) fun _ => ?_) (.pure _)
    refine .bind (.of_ok fun _ => ⟨_, _, rfl⟩) fun beta => .ite (.pure _) (.ite (.pure _) ?_)
    refine .bind (cycle_failsIn hoperator hnew hg hdivision r w beta target spent) fun c => ?_
    refine .ite (.pure _) (.bind (combine_failsIn c.basis c.coefficients) fun _ => ?_)
    exact .ite (.pure _) (.ite (.pure _) (ih c.spent (begun + 1)))

theorem call_failsIn : FailsIn E (g.call lsq p) := by
  refine .bind (hnew _) fun r => .bind (hnew _) fun w => .bind (.of_ok fun _ => ⟨_, _, rfl⟩) fun _ => ?_
  refine .ite (.bind (.of_ok fun _ => ⟨_, _, rfl⟩) fun _ => .pure _) ?_
  exact .bind (.demand hg.tol) fun tol => cycles_failsIn hoperator hnew hg hdivision r w _ _ _ _

omit hoperator hnew in
theorem solve_failsIn (lsq : LeastSquares S) :
    KrylovSolver.FaultsIn (g.solve lsq : KrylovSolver V S R σ) E := by
  intro F hEF p hnew hoperator
  have hgF : g.FaultsIn F :=
    ⟨fun e h => hEF (hg.tol e h), fun e h => hEF (hg.restart e h), fun e h => hEF (hg.breakdownTol e h)⟩
  exact .bind (call_failsIn hoperator hnew hgF (hEF hdivision)) fun _ => .pure ()

end Gmres

end NewtonKrylov
