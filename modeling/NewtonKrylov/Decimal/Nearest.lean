import NewtonKrylov.Decimal.Rounded

/-!
# The nearest binary64 number

A quotient of natural numbers is rounded to the nearest binary64 number, a tie going to the even
significand. A quotient that would round beyond the largest finite number has no nearest one.
-/

namespace NewtonKrylov.Decimal

/-- The `q` with `2 ^ q ≤ num / den < 2 ^ (q + 1)` for a positive quotient. -/
def binaryExponent (num den : Nat) : Int :=
  let q : Int := (num.log2 : Int) - den.log2
  if num * pow2 (-q).toNat < den * pow2 q.toNat then q - 1 else q

/-- The bits of a non-negative number with at most 53 significant bits, `m * 2 ^ q`: below `2 ^ 52`
only the least exponent is used, and a significand of `2 ^ 53` carries into the exponent. -/
def wordOf (m : Nat) (q : Int) : Nat :=
  if m < pow2 52 then m else (q + 1075).toNat * pow2 52 + (m - pow2 52)

def nearestQuotient? (num den : Nat) : Option Float :=
  if num = 0 then some 0.0
  else
    let q := max (binaryExponent num den - 52) Binary.leastExponent
    let word := wordOf (roundDiv (num * pow2 (-q).toNat) (den * pow2 q.toNat)) q
    if word < 2047 * pow2 52 then some (Float.ofBits (UInt64.ofNat word)) else none

def quotient? (n : Int) (d : Nat) : Option Float :=
  (nearestQuotient? n.natAbs d).map fun x => if n < 0 then -x else x

def ofInt? (n : Int) : Option Float := quotient? n 1

end NewtonKrylov.Decimal
