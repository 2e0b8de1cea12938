import NewtonKrylov.Config
import NewtonKrylov.Decimal.Aligned

/-!
# Reports of worked problems

A worked problem is solved once from a fixed start. Its report shows the residual norm of every
iteration and, unless the run failed, the results.
-/

namespace NewtonKrylov

abbrev PlainConfig := Config Empty Empty Empty

structure Report where
  iterations : List (Nat × String)
  log : List (Record Float Float)
  /-- Results by label, each a list of number texts, or why there are none. -/
  results : Except (Fault Float) (List (String × List String))

namespace Report

def failed (e : Fault Float) : Report := ⟨[], [], .error e⟩

/-- The residual norms that a run told its callback, the latest first. -/
abbrev Norms := List (Nat × Float)

def note : Callback Float Norms := fun err k => do
  modify ((k, err) :: ·)
  pure false

def ofRun {V : Type} [Inhabited V] (K : Backend Float V) (f : V → V) (start : V) (c : PlainConfig)
    (normText : Float → String) (results : V → List (String × List String)) : Report :=
  let P : NonlinearProblem V Float Float Norms := c.problem K (fun _ x => pure (f x)) Empty.elim
  let M := c.toMethod (c.options.linsolver.toSolver Empty.elim)
  let act : Run V Float Float Norms V := do
    let x ← Run.allocate "x" start
    let _ ← Newton.solve P M (some note) x none
    Run.contents x
  let iterations (s : Session V Float Float Norms) :=
    s.outside.reverse.map fun (k, err) => (k, normText err)
  match act { outside := [] } with
  | .ok x s => ⟨iterations s, s.log, .ok (results x)⟩
  | .error e s => ⟨iterations s, s.log, .error e⟩

def lines (r : Report) (iterationLine : Nat → String → String) : List String :=
  let shown := r.iterations.map fun (k, err) => iterationLine k err
  match r.results with
  | .ok results => shown ++ results.map fun (label, numbers) =>
    label ++ " = " ++ " ".intercalate numbers
  | .error _ => shown

end Report

end NewtonKrylov
