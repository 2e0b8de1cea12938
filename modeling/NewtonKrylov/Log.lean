import NewtonKrylov.Decimal.Shortest
import NewtonKrylov.Number

/-!
# How a run ends and what it reports

A run that fails has no ending. A run that ends has stopped at its callback's wish, has converged,
or has used up its iterations. It reports every update of the iterate and then its ending.
-/

namespace NewtonKrylov

/-- The ways to end without a failure, each with the residual norm seen last; a run that was allowed
no iteration has seen none. -/
inductive Ending (R : Type) where
  | stopped (iteration : Nat) (residual : R)
  | converged (iteration : Nat) (residual : R)
  | exhausted (iterations : Nat) (residual : Option R)

inductive Record (S R : Type) where
  /-- An update of the iterate: its residual norm before, the step scale, and the residual norm that
  the line search found there, if it looked. -/
  | update (iteration : Nat) (residual : R) (alpha : S) (line : Option R)
  | ended (ending : Ending R)

inductive Level where
  | debug
  | info
  | warning
deriving DecidableEq, Repr

def Level.name : Level → String
  | debug => "DEBUG"
  | info => "INFO"
  | warning => "WARNING"

namespace Record

def level {S R : Type} : Record S R → Level
  | update .. => .debug
  | ended (.stopped ..) => .info
  | ended (.converged ..) => .info
  | ended (.exhausted ..) => .warning

def text {S : Type} [Numeral S] : Record S Float → String
  | update k err alpha line =>
    "iteration " ++ toString k ++ ": err=" ++ Decimal.scientific 4 err
      ++ " alpha=" ++ Decimal.general 6 (Numeral.toFloat alpha)
      ++ " line search residual=" ++ (line.map Decimal.shortest).getD "None"
  | ended (.stopped k err) =>
    "JFNK stopped by error callback at iteration " ++ toString k
      ++ " (residual norm " ++ Decimal.scientific 3 err ++ ")"
  | ended (.converged k err) =>
    "JFNK converged at iteration " ++ toString k
      ++ " (residual norm " ++ Decimal.scientific 3 err ++ ")"
  | ended (.exhausted n err) =>
    "JFNK did not converge within " ++ toString n ++ " iterations. Last residual norm: "
      ++ (err.map (Decimal.scientific 3)).getD "nan"

end Record

end NewtonKrylov
