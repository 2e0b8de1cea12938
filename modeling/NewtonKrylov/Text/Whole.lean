import NewtonKrylov.Text.Digit

/-!
# Reading whole numbers

The accepted form is: blanks, an optional sign, decimal digits with single underscores between them,
blanks. There is a limit to the count of digits, whatever their value; a run of digits that is too
long is refused for its length even if something follows it.
-/

namespace NewtonKrylov.Text

/-- The characters that may stand around a number. -/
def isBlank (c : Char) : Bool :=
  [0x20, 0x85, 0xa0, 0x1680, 0x2028, 0x2029, 0x202f, 0x205f, 0x3000].contains c.toNat
    || (0x9 ≤ c.toNat && c.toNat ≤ 0xd) || (0x2000 ≤ c.toNat && c.toNat ≤ 0x200a)

def trimBlanks (cs : List Char) : List Char :=
  ((cs.dropWhile isBlank).reverse.dropWhile isBlank).reverse

inductive Misreading where
  | malformed
  | tooLong (digits : Nat)
deriving DecidableEq, Repr

def digitLimit : Nat := 4300

def readNatural (cs : List Char) : Except Misreading Nat :=
  match digitRun 0 0 cs with
  | (_, _, '_' :: _) => .error .malformed
  | (n, count, rest) =>
    if digitLimit < count then .error (.tooLong count)
    else if count = 0 ∨ rest ≠ [] then .error .malformed
    else .ok n

def readWhole (s : String) : Except Misreading Int :=
  match trimBlanks s.toList with
  | '-' :: cs => (readNatural cs).map fun n => -(n : Int)
  | '+' :: cs => (readNatural cs).map fun n => (n : Int)
  | cs => (readNatural cs).map fun n => (n : Int)

def whole? (s : String) : Option Int := (readWhole s).toOption

end NewtonKrylov.Text
