import NewtonKrylov.Krylov.GmresOptions
import NewtonKrylov.LineSearch.Setting
import NewtonKrylov.Newton

/-!
# Configuration

Options are checked once, when a configuration is made, in a fixed order; the first one that fails
is the fault. The norm is not checked: a value that is none shows when a run takes its first norm. A
configuration keeps the option values as they were given and the line search built from them. `K`, `N`
and `C` are the solvers, norms and callbacks that the caller brings along.
-/

namespace NewtonKrylov

inductive SolverChoice (K : Type) where
  | gmres (parameters : GmresOptions)
  | custom (solver : K)
  | plain (v : Value)

inductive NormChoice (N : Type) where
  | absent
  | given (norm : N)
  /-- A value that cannot be called with a vector. -/
  | uncallable (v : Value)

inductive CallbackChoice (C : Type) where
  | absent
  | given (callback : C)
  | plain (v : Value)

namespace Value

/-- Line searches can be called. -/
def callable : Value → Bool
  | search .. => true
  | _ => false

/-- The fault of a call with this many arguments. A line search takes two, and itself. -/
def miscalled {R : Type} (arguments : Nat) : Value → Fault R
  | search p _ =>
    if arguments < 2 then .missingArgument p.title "max_alpha"
    else .tooManyArguments p.title 3 (arguments + 1)
  | v => .notCallable v.kind

/-- A line search that is told a residual norm looks at it as if it were a profile. Its answer is a pair,
which counts as true. -/
def told {R σ : Type} [Magnitude R] (iteration : Nat) : Value → Collab R σ Bool
  | search p maxiter => do
    let profile : Float → Collab R σ R := fun _ => throw (.notCallable "float")
    let _ ← (SearchSetting.toLineSearch ⟨p, maxiter⟩).run profile (int iteration).reach
    pure true
  | v => throw (.notCallable v.kind)

end Value

def SolverChoice.callable {K : Type} : SolverChoice K → Bool
  | plain v => v.callable
  | _ => true

def CallbackChoice.callable {C : Type} : CallbackChoice C → Bool
  | plain v => v.callable
  | _ => true

/-- The chosen solver, which is called with four arguments. -/
def SolverChoice.toSolver {K V S R σ : Type} [Inhabited V] [Scalar S] [Numeral S]
    (custom : K → KrylovSolver V S R σ) : SolverChoice K → KrylovSolver V S R σ
  | gmres parameters => parameters.solver
  | SolverChoice.custom solver => custom solver
  | plain v => fun _ => throw (v.miscalled 4)

/-- Nothing stands for no callback. -/
def CallbackChoice.ofValue {C : Type} : Value → CallbackChoice C
  | .none => absent
  | v => plain v

/-- Nothing stands for no norm. -/
def NormChoice.ofValue {N : Type} : Value → NormChoice N
  | .none => absent
  | v => uncallable v

/-- The chosen norm, else the own one of the vectors. -/
def NormChoice.toNorm {N V R σ : Type} (given : N → V → Collab R σ R) (own : V → Collab R σ R) :
    NormChoice N → V → Collab R σ R
  | absent => own
  | NormChoice.given norm => given norm
  | uncallable v => fun _ => throw (v.miscalled 1)

def CallbackChoice.toCallback {C R σ : Type} [Magnitude R] (given : C → Callback R σ) :
    CallbackChoice C → Option (Callback R σ)
  | absent => none
  | CallbackChoice.given callback => some (given callback)
  | plain v => some fun _ k => v.told k

structure Options (K N C : Type) where
  epsilon : Value := .float 1e-10
  maxiter : Value := .int 100
  alpha : Value := .float 1.0
  halfWidth : Value := .float 1e-6
  lineSearch : Value := .str "bisect"
  lineSearchMaxiter : Value := SearchSetting.defaultMaxiter
  linsolver : SolverChoice K := .gmres {}
  norm : NormChoice N := .absent
  checkFinite : Value := .bool false
  errorCallback : CallbackChoice C := .absent

structure Config (K N C : Type) where
  options : Options K N C
  search : SearchSetting

namespace Options

variable {K N C R : Type}

def set (o : Options K N C) (keyword : String) (v : Value) : Except (Fault R) (Options K N C) :=
  match keyword with
  | "epsilon" => .ok { o with epsilon := v }
  | "maxiter" => .ok { o with maxiter := v }
  | "alpha" => .ok { o with alpha := v }
  | "jfnk_epsilon" => .ok { o with halfWidth := v }
  | "line_search" => .ok { o with lineSearch := v }
  | "line_search_maxiter" => .ok { o with lineSearchMaxiter := v }
  | "linsolver" => .ok { o with linsolver := .plain v }
  | "norm" => .ok { o with norm := .ofValue v }
  | "check_finite" => .ok { o with checkFinite := v }
  | "error_callback" => .ok { o with errorCallback := .ofValue v }
  | _ => .error (Taker.configuration.refusal keyword)

def checkSolver (o : Options K N C) : Except (Fault R) Unit :=
  if o.linsolver.callable then .ok () else .error .solverNotCallable

def checkCallback (o : Options K N C) : Except (Fault R) Unit :=
  if o.errorCallback.callable then .ok () else .error .callbackNotCallable

def toConfig (o : Options K N C) : Except (Fault R) (Config K N C) := do
  o.epsilon.positive "epsilon"
  o.maxiter.atLeastOne "maxiter"
  o.alpha.positive "alpha"
  o.halfWidth.positive "jfnk_epsilon"
  o.checkSolver
  o.checkCallback
  let search ← SearchSetting.choose o.lineSearch o.lineSearchMaxiter
  .ok ⟨o, search⟩

end Options

namespace Config

variable {K N C R S V σ : Type}

def problem [Scalar S] [Numeral S] (c : Config K N C) (space : Backend S V)
    (residual : Residual V Float σ) (given : N → V → Collab Float σ Float) :
    NonlinearProblem V S Float σ where
  backend := space
  residual := residual
  norm := c.options.norm.toNorm given fun v => pure (Numeral.toFloat (space.meanSquare v))

/-- The callback that a run tells: its own one, else the one of the configuration. -/
def callbackFor [Magnitude R] (c : Config K N C) (configured : C → Callback R σ)
    (own : Option (Callback R σ)) : Option (Callback R σ) :=
  own <|> c.options.errorCallback.toCallback configured

/-- The method that a configuration describes, with its solver ready to run. -/
def toMethod [Scalar S] [Numeral S] (c : Config K N C) (solver : KrylovSolver V S Float σ) :
    Method V S Float σ where
  accepts := c.options.epsilon.exceeds
  maxiter := c.options.maxiter.repetitions
  reach := c.options.alpha.reach
  halfWidth := c.options.halfWidth.factor
  solver := solver
  search := c.search.toLineSearch.run
  checkFinite := c.options.checkFinite.truth

end Config

end NewtonKrylov
