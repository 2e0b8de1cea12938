import NewtonKrylov.Expr
import NewtonKrylov.Value.Check

/-!
# Collaborators given as data

Vector fields, residual norms and callbacks described by rules. A scripted one answers its calls
from a list, one entry after the other, and repeats the last entry for ever; so a rule is a function
of the number of earlier calls and of its argument.
-/

namespace NewtonKrylov

/-- The entry for call `k`, counted from zero. -/
def scripted? {α : Type} (entries : List α) (k : Nat) : Option α :=
  entries[min k (entries.length - 1)]?

inductive Field where
  | exprs (es : List Expr)
  /-- Rows times the vector, less a shift. -/
  | affine (rows : List (List Float)) (shift : Option (List Float))
  | table (rows : List (List Float))

namespace Field

def rowTimes (row x : List Float) : Float := (row.zipWith (· * ·) x).foldl (· + ·) 0.0

def eval (f : Field) (call : Nat) (x : List Float) : List Float :=
  match f with
  | exprs es => es.map (Expr.eval x.toArray)
  | affine rows none => rows.map fun row => rowTimes row x
  | affine rows (some shift) => (rows.map fun row => rowTimes row x).zipWith (· - ·) shift
  | table rows => (scripted? rows call).getD []

end Field

inductive NormRule where
  | largest
  | total
  | squares
  | returns (values : List Value)

namespace NormRule

def eval {R : Type} (n : NormRule) (call : Nat) (x : List Float) : Except (Fault R) Float :=
  match n with
  | largest => .ok (x.foldl (fun m v => if m < v.abs then v.abs else m) 0.0)
  | total => .ok (x.foldl (fun m v => m + v.abs) 0.0)
  | squares => .ok (x.foldl (fun m v => m + v.abs * v.abs) 0.0)
  | returns values => ((scripted? values call).getD .none).measure

end NormRule

inductive CallbackRule where
  | never
  | returns (values : List Value)
  | below (bound : Float)
  | fromIteration (bound : Float)

namespace CallbackRule

def eval (c : CallbackRule) (call : Nat) (residual : Float) (iteration : Nat) : Bool :=
  match c with
  | never => false
  | returns values => ((scripted? values call).getD .none).truth
  | below bound => residual < bound
  | fromIteration bound => bound ≤ Float.ofNat iteration

end CallbackRule

end NewtonKrylov
