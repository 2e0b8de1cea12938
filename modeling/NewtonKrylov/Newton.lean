import NewtonKrylov.Jacobian
import NewtonKrylov.Krylov.Problem
import NewtonKrylov.LineSearch

/-!
# Newton's method with Krylov directions

One iteration takes the residual and its norm at the iterate `x`; unless that ends the run, a Krylov
solver refines the direction `dx` so that the Jacobian maps it to the residual, a line search
chooses a step scale along it, and `x` becomes `x - alpha * dx`. The direction of one iteration is
where the solver starts in the next. `x` and the direction are vectors of the caller and are updated
in place.

Before the convergence test the callback is told the norm and may stop the run.
-/

namespace NewtonKrylov

structure NonlinearProblem (V S R σ : Type) where
  backend : Backend S V
  residual : Residual V R σ
  norm : V → Collab R σ R

structure Method (V S R σ : Type) where
  accepts : R → Bool
  maxiter : Except (Fault R) Nat
  reach : Reach (Fault R) S
  /-- The half-width of the central differences; one that is unusable says why when it is needed. -/
  halfWidth : Except (Fault R) S
  solver : KrylovSolver V S R σ
  search : (profile : S → Run V S R σ R) → Reach (Fault R) S → Run V S R σ (S × Option R)
  checkFinite : Bool

/-- Is told the residual norm and the iteration, and says whether to stop. -/
abbrev Callback (R σ : Type) := R → Nat → Collab R σ Bool

namespace Newton

variable {V S R σ : Type} [Inhabited V] [Scalar S] [Magnitude R]
variable (P : NonlinearProblem V S R σ) (M : Method V S R σ)
variable (notify : Option (R → Nat → Run V S R σ Bool))
variable (w : Scratch) (x dx : Ref)

def normAt (r : Ref) : Run V S R σ R := do
  let v ← Run.contents r
  Run.consult (P.norm v)

def profile (alpha : S) : Run V S R σ R := do
  P.backend.addScaledInto w.ahead x dx (-alpha)
  P.residual.into w.residualAhead w.ahead
  normAt P w.residualAhead

def directionProblem : LinearProblem V S R σ where
  backend := P.backend
  new := Run.keptAs P.backend.new
  operator result v := do
    let e ← Run.demand M.halfWidth
    P.residual.derivative P.backend w x e result v
  rhs := w.residual
  unknown := dx

/-- Whether the run ends in iteration `k`, seeing this residual norm. Nothing is done to the state
`s` but by `notify`. -/
def endsAt {s : Type} (notify : Option (R → Nat → EStateM (Fault R) s Bool)) (k : Nat) (err : R) :
    EStateM (Fault R) s (Option (Ending R)) := do
  if M.checkFinite && !Magnitude.isFinite err then
    throw (.nonFinite k err)
  let stop ← match notify with
    | none => pure false
    | some tell => tell err k
  if stop then
    return some (.stopped k err)
  if M.accepts err then
    return some (.converged k err)
  return none

def update (k : Nat) (err : R) : Run V S R σ Unit := do
  M.solver (directionProblem P M w x dx)
  let (alpha, line) ← M.search (profile P w x dx) M.reach
  Run.report (.update k err alpha line)
  P.backend.addScaledInto x x dx (-alpha)

def iterations : (remaining done : Nat) → (last : Option R) → Run V S R σ (Ending R)
  | 0, done, last => pure (.exhausted done last)
  | remaining + 1, done, _ => do
    P.residual.into w.residual x
    let err ← normAt P w.residual
    match ← endsAt M notify (done + 1) err with
    | some ending => pure ending
    | none =>
      update P M w x dx (done + 1) err
      iterations remaining (done + 1) (some err)

/-- The direction to start with: the caller's vector, else a copy of `x`. -/
def direction (given : Option Ref) : Run V S R σ Ref :=
  match given with
  | some dx => pure dx
  | none => do
    let dx ← P.backend.new "dx"
    P.backend.scaleInto dx x (Scalar.ofNat 1)
    pure dx

/-- A whole run, telling `notify` every residual norm. -/
def run (given : Option Ref) : Run V S R σ (Ending R) := do
  let w ← Scratch.allocate P.backend
  let dx ← direction P x given
  modify fun s => { s with buffers := {} }
  let n ← Run.demand M.maxiter
  let ending ← iterations P M notify w x dx n 0 none
  Run.report (.ended ending)
  pure ending

def solve (callback : Option (Callback R σ)) (x : Ref) (dx : Option Ref) :
    Run V S R σ (Ending R) :=
  run P M (callback.map fun tell err k => Run.consult (tell err k)) x dx

/-- A callback that first remembers what it is told. -/
def recording (callback : Option (Callback R σ)) (err : R) (k : Nat) : Run V S R σ Bool := do
  Run.remember k err
  match callback with
  | none => pure false
  | some tell => Run.consult (tell err k)

/-- Solves for a root and records the residual norm of every iteration that was started. -/
def solveWithHistory (callback : Option (Callback R σ)) (x : Ref) (dx : Option Ref) :
    Run V S R σ (List (Nat × R)) := do
  modify fun s => { s with history := [] }
  let _ ← run P M (some (recording callback)) x dx
  pure (← get).history

end Newton

end NewtonKrylov
