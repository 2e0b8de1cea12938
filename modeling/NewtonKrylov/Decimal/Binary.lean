/-!
# The exact value of a binary64 number

A finite number is `± significand * 2 ^ exponent`. Everything that writes a number as text starts
from this value, as a fraction of natural numbers.
-/

namespace NewtonKrylov

def pow2 (k : Nat) : Nat := Nat.pow 2 k

def pow10 (k : Nat) : Nat := Nat.pow 10 k

/-- The value that the bits of a binary64 number stand for. -/
inductive Binary where
  | nan
  | infinite (negative : Bool)
  | finite (negative : Bool) (significand : Nat) (exponent : Int)
deriving DecidableEq, Repr

namespace Binary

def leastExponent : Int := -1074

def ofFloat (x : Float) : Binary :=
  let bits : Nat := x.toBits.toNat
  let negative := bits / pow2 63 == 1
  let biased : Nat := bits / pow2 52 % pow2 11
  let fraction : Nat := bits % pow2 52
  if biased = 2047 then
    if fraction = 0 then .infinite negative else .nan
  else if biased = 0 then
    .finite negative fraction leastExponent
  else
    .finite negative (pow2 52 + fraction) ((biased : Int) - 1075)

/-- The number `m * 2 ^ q` as numerator and denominator. -/
def ratio (m : Nat) (q : Int) : Nat × Nat := (m * pow2 q.toNat, pow2 (-q).toNat)

/-- The integer next to a finite number on the side of zero. -/
def truncated (negative : Bool) (m : Nat) (q : Int) : Int :=
  let (num, den) := ratio m q
  if negative then -(num / den : Nat) else (num / den : Nat)

/-- Whether a number and an integer are the same real number. -/
def equalsInt (n : Int) : Binary → Bool
  | finite negative m q =>
    let (num, den) := ratio m q
    num % den == 0 && truncated negative m q == n
  | _ => false

def lessThanInt (n : Int) : Binary → Bool
  | nan => false
  | infinite negative => negative
  | finite negative m q =>
    let (num, den) := ratio m q
    (if negative then -(num : Int) else num) < n * den

end Binary

end NewtonKrylov
