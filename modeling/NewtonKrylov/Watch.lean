import NewtonKrylov.Config.Keywords
import NewtonKrylov.Program
import NewtonKrylov.Rule

/-!
# Watched runs

Collaborators given by rules that keep a record of how they were called: the points at which a field
was evaluated, what callbacks were told, what linear problems were solved. The record is the
collaborators' own state, so keeping it changes nothing in a run.
-/

namespace NewtonKrylov

structure Told where
  iteration : Nat
  residual : Float
  point : List Float
  fieldCalls : Nat

/-- A linear solve: right-hand side, unknown before and after, field calls in between. -/
structure Solved where
  rhs : List Float
  before : List Float
  after : List Float
  fieldCalls : Nat

structure Watch where
  fieldCalls : Nat := 0
  points : List (List Float) := []
  normCalls : Nat := 0
  /-- How often the callback of a run and the one of the configuration were called. -/
  runCalls : Nat := 0
  configCalls : Nat := 0
  told : List Told := []
  solved : List Solved := []

namespace Watch

variable {S V : Type} [Inhabited V] [Scalar S] [Numeral S]

/-- A watched field as a residual function. Its numbers are written over the old contents. -/
def field (K : Space S V) (f : Field) : Residual V Float Watch := fun old x => do
  let xs := K.toFloats x
  let seen ← get
  set { seen with fieldCalls := seen.fieldCalls + 1, points := xs :: seen.points }
  let ys := (f.eval seen.fieldCalls xs).map Numeral.ofFloat
  match Program.written K old (.list (ys.map .number)) with
  | (y, none) => pure y
  | (_, some e) => throw e

def norm (K : Space S V) (rule : NormRule) (x : V) : Collab Float Watch Float := fun seen =>
  let seen' := { seen with normCalls := seen.normCalls + 1 }
  match rule.eval seen.normCalls (K.toFloats x) with
  | .ok r => .ok r seen'
  | .error e => .error e seen'

/-- The residual was last evaluated at the iterate when a callback is told its norm. -/
def note (residual : Float) (iteration : Nat) (seen : Watch) : Watch :=
  { seen with told := ⟨iteration, residual, seen.points.headD [], seen.fieldCalls⟩ :: seen.told }

def runCallback (rule : CallbackRule) : Callback Float Watch := fun residual iteration => do
  let seen ← get
  set { seen.note residual iteration with runCalls := seen.runCalls + 1 }
  pure (rule.eval seen.runCalls residual iteration)

def configCallback (rule : CallbackRule) : Callback Float Watch := fun residual iteration => do
  let seen ← get
  set { seen.note residual iteration with configCalls := seen.configCalls + 1 }
  pure (rule.eval seen.configCalls residual iteration)

def solver (K : Space S V) (solve : KrylovSolver V S Float Watch) :
    KrylovSolver V S Float Watch := fun p => do
  let rhs ← Run.contents p.rhs
  let before ← Run.contents p.unknown
  let calls := (← get).outside.fieldCalls
  solve p
  let after ← Run.contents p.unknown
  Run.consult do
    let seen ← get
    set { seen with solved :=
      ⟨K.toFloats rhs, K.toFloats before, K.toFloats after, seen.fieldCalls - calls⟩ :: seen.solved }

end Watch

end NewtonKrylov
