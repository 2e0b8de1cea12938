import NewtonKrylov.Decimal.Binary

/-!
# Scalar expressions

Real functions of a point given as data, evaluated in binary64 without exceptions. Of the two sides
of a case distinction only the taken one is evaluated.
-/

namespace NewtonKrylov

inductive Expr where
  | const (x : Float)
  | var (i : Nat)
  | add (a b : Expr)
  | sub (a b : Expr)
  | mul (a b : Expr)
  | div (a b : Expr)
  | neg (a : Expr)
  | abs (a : Expr)
  | sqrt (a : Expr)
  | sin (a : Expr)
  | cos (a : Expr)
  | exp (a : Expr)
  | log (a : Expr)
  /-- The third expression if the first is less than the second, else the fourth. -/
  | ifLess (a b t e : Expr)
deriving Inhabited

namespace Expr

/-- The value at a point; coordinates that it lacks are zero. -/
def eval (x : Array Float) : Expr → Float
  | const c => c
  | var i => x.getD i 0.0
  | add a b => a.eval x + b.eval x
  | sub a b => a.eval x - b.eval x
  | mul a b => a.eval x * b.eval x
  | div a b => a.eval x / b.eval x
  | neg a => -a.eval x
  | abs a => (a.eval x).abs
  | sqrt a => (a.eval x).sqrt
  | sin a => (a.eval x).sin
  | cos a => (a.eval x).cos
  | exp a => (a.eval x).exp
  | log a => (a.eval x).log
  | ifLess a b t e => if a.eval x < b.eval x then t.eval x else e.eval x

end Expr

end NewtonKrylov
