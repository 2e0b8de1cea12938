import NewtonKrylov.Decimal.Shortest
import NewtonKrylov.LineSearch.Policy
import NewtonKrylov.Text.Quoted

/-!
# Option values

Options arrive unchecked: whole numbers of any size, binary64 numbers, truth values, texts, nothing,
lists of these, or a line search that was built before. This module gives their text, their truth
and their reading as numbers; what an option accepts is decided where it is checked.
-/

namespace NewtonKrylov

inductive Value where
  | int (n : Int)
  | float (x : Float)
  | bool (b : Bool)
  | str (s : String)
  | none
  | list (items : List Value)
  | search (policy : Policy) (maxiter : Value)
deriving Inhabited

namespace Value

def kind : Value → String
  | int _ => "int"
  | float _ => "float"
  | bool _ => "bool"
  | str _ => "str"
  | none => "NoneType"
  | list _ => "list"
  | search p _ => p.title

/-! ## Text -/

mutual

/-- The text of a value inside a message that shows it unambiguously: texts are quoted. -/
def shown : Value → String
  | int n => toString n
  | float x => Decimal.shortest x
  | bool b => if b then "True" else "False"
  | str s => Text.quoted s
  | none => "None"
  | list items => "[" ++ shownItems items ++ "]"
  | search p maxiter => p.title ++ "(maxiter=" ++ shown maxiter ++ ")"

def shownItems : List Value → String
  | [] => ""
  | [v] => shown v
  | v :: vs => shown v ++ ", " ++ shownItems vs

end

/-- The text of a value where it stands by itself: a text is itself. -/
def text : Value → String
  | str s => s
  | v => v.shown

/-! ## Truth and numbers -/

/-- Zero, the empty text, the empty list and nothing are false; not-a-number is true. -/
def truth : Value → Bool
  | int n => n ≠ 0
  | float x => x != 0.0
  | bool b => b
  | str s => s ≠ ""
  | none => false
  | list items => !items.isEmpty
  | search _ _ => true

/-- The whole number that a value can count with; a truth value counts as one or zero. -/
def count? : Value → Option Int
  | int n => some n
  | bool b => some (if b then 1 else 0)
  | _ => Option.none

/-- Whether a number is less than a value, as real numbers; what is no number exceeds nothing. -/
def exceeds (v : Value) (x : Float) : Bool :=
  match v.count?, v with
  | some n, _ => (Binary.ofFloat x).lessThanInt n
  | Option.none, float y => x < y
  | Option.none, _ => false

/-- Whether two numbers are the same real number; nothing equals not-a-number. -/
def sameNumber (a b : Value) : Bool :=
  match a.count?, b.count? with
  | some m, some n => m == n
  | some m, Option.none => match b with
    | float y => (Binary.ofFloat y).equalsInt m
    | _ => false
  | Option.none, some n => match a with
    | float x => (Binary.ofFloat x).equalsInt n
    | _ => false
  | Option.none, Option.none => match a, b with
    | float x, float y => x == y
    | _, _ => false

end Value

end NewtonKrylov
