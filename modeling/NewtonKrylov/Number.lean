import NewtonKrylov.Decimal.Nearest
import NewtonKrylov.Scalar
import NewtonKrylov.Word

/-!
# Numbers as scalars

Vectors in binary64 or binary32 take binary64 numbers as scalars. With vectors of words integers are
told apart from binary64 numbers, because an integer is a factor without rounding.
-/

namespace NewtonKrylov

/-- Scalars that binary64 numbers and integers are made into. -/
class Numeral (S : Type) where
  ofFloat : Float → S
  toFloat : S → Float
  /-- The scalar that an integer is, or why there is none. -/
  ofInt : Int → Except Unfit S

instance : Numeral Float where
  ofFloat := id
  toFloat := id
  ofInt n := match Decimal.ofInt? n with
    | some x => .ok x
    | none => .error .beyondFloat

/-- A number beside words that go from `least` to `-least`: an integer that they hold, or a binary64
number. -/
inductive Number (least : Int) where
  | int (n : Int) (fits : Word.Fits least n)
  | float (x : Float)

abbrev Number32 := Number (-2147483648)

abbrev Number64 := Number (-9223372036854775808)

namespace Number

variable {least : Int}

def isInt : Number least → Bool
  | int .. => true
  | float _ => false

def elim {β : Type} (onInt : Int → β) (onFloat : Float → β) : Number least → β
  | int n _ => onInt n
  | float x => onFloat x

def toFloat : Number least → Float := elim Word.number id

def exact : Number least → Except Unfit Int := elim .ok Word.exact

def whole (n : Int) (otherwise : Float) : Number least :=
  if fits : Word.Fits least n then .int n fits else .float otherwise

def neg : Number least → Number least
  | int n _ => whole (-n) (-Word.number n)
  | float x => .float (-x)

/-- An operation that is made on integers as such, and in binary64 where one operand is none. -/
def combine (onInts : Int → Int → Int) (onFloats : Float → Float → Float) :
    Number least → Number least → Number least
  | int m _, int n _ => whole (onInts m n) (onFloats (Word.number m) (Word.number n))
  | a, b => .float (onFloats a.toFloat b.toFloat)

instance : Scalar (Number least) where
  add := combine (· + ·) (· + ·)
  sub := combine (· - ·) (· - ·)
  mul := combine (· * ·) (· * ·)
  div a b := .float (a.toFloat / b.toFloat)
  neg := neg
  ofNat n := .float (Float.ofNat n)
  sqrt a := .float a.toFloat.sqrt
  lt a b := a.toFloat < b.toFloat
  le a b := a.toFloat ≤ b.toFloat
  isZero a := a.toFloat == 0.0
  isFinite a := a.toFloat.isFinite

instance : Numeral (Number least) where
  ofFloat := .float
  toFloat := toFloat
  ofInt n :=
    if fits : Word.Fits least n then .ok (.int n fits)
    else if Word.Fits (-9223372036854775808) n then .error (.tooWide n)
    else .error .tooLarge

/-- The numbers of an array that is made from numbers: they stay integers only if all of them are. -/
def gather (xs : List (Number least)) : List (Number least) :=
  if xs.all isInt then xs else xs.map fun x => .float x.toFloat

end Number

end NewtonKrylov
