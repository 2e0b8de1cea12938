import NewtonKrylov.Decimal.Binary

/-!
# Numbers in words

There are two ways from a binary64 number to a machine word. A whole array is cut: what does not fit
becomes the least word. A single number is taken exactly, as the integer next to it on the side of
zero; it is refused when a 64-bit word has no room for that, and a narrower word keeps its low bits.
-/

namespace NewtonKrylov

inductive Unfit where
  | nan
  | infinite
  | tooLarge
  /-- Beyond words of 32 bits, but not of 64 bits. -/
  | tooWide (n : Int)
  | beyondFloat
deriving DecidableEq, Repr

namespace Word

abbrev Fits (least n : Int) : Prop := least ≤ n ∧ n < -least

/-- The integer next to a number on the side of zero, if a 64-bit word holds it. -/
def exact (x : Float) : Except Unfit Int :=
  match Binary.ofFloat x with
  | .nan => .error .nan
  | .infinite _ => .error .infinite
  | .finite negative m q =>
    let n := Binary.truncated negative m q
    if -9223372036854775808 ≤ n ∧ n < 9223372036854775808 then .ok n else .error .tooLarge

/-- The integer that a number is cut to, the least one of those from `least` to `-least` where it does
not fit in there. -/
def cut (least : Int) (x : Float) : Int :=
  match exact x with
  | .ok n => if least ≤ n ∧ n < -least then n else least
  | .error _ => least

/-- The number next to the integer that a word holds. -/
def number (n : Int) : Float :=
  let magnitude := n.natAbs.toUInt64.toFloat
  if n < 0 then -magnitude else magnitude

end Word

end NewtonKrylov
