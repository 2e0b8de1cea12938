import NewtonKrylov.Decimal.Rounded

/-!
# The shortest decimal that reads back

A decimal reads back to `m * 2 ^ q` when it lies in the interval of the reals that round to it; the
ends belong to it when `m` is even. For one, two, … digits the two neighbours of the value on that
decimal grid are tried: the first grid with a hit wins, and of two hits the nearer, or the even one
where both are equally near.
-/

namespace NewtonKrylov.Decimal

/-- The reals that round to a number, as multiples of a quarter of its last place. -/
structure Rounding where
  low : Nat
  value : Nat
  high : Nat
  closed : Bool

/-- The gap below a power of two is half the gap above it. -/
def Rounding.around (m : Nat) (q : Int) : Rounding where
  low := if m = pow2 52 ∧ Binary.leastExponent < q then 4 * m - 1 else 4 * m - 2
  value := 4 * m
  high := 4 * m + 2
  closed := m % 2 = 0

def Rounding.contains (r : Rounding) (u c d : Nat) : Bool :=
  if r.closed then r.low * u ≤ c * d ∧ c * d ≤ r.high * u
  else r.low * u < c * d ∧ c * d < r.high * u

/-- The decimal `n * 10 ^ g` nearest to the value among its neighbours on that grid, if it reads
back. -/
def Rounding.onGrid (r : Rounding) (q g : Int) : Option Nat :=
  -- `value / 4 * 2 ^ q` against `n * 10 ^ g`, both brought to whole numbers
  let u := pow2 q.toNat * pow10 (-g).toNat
  let d := 4 * pow2 (-q).toNat * pow10 g.toNat
  let below := r.value * u / d
  let above := below + 1
  let middle := (below + above) * d
  let nearBelow := 2 * (r.value * u) < middle ∨ (2 * (r.value * u) = middle ∧ below % 2 = 0)
  match r.contains u below d && below ≠ 0, r.contains u above d with
  | true, true => some (if nearBelow then below else above)
  | true, false => some below
  | false, true => some above
  | false, false => none

def Rounding.search (r : Rounding) (q : Int) : Nat → Int → Nat × Int
  | 0, g => (r.value * pow2 q.toNat / (4 * pow2 (-q).toNat), g)
  | fuel + 1, g =>
    match r.onGrid q g with
    | some n => (n, g)
    | none => r.search q fuel (g - 1)

def shortestDigits (m : Nat) (q : Int) : List Char × Int :=
  let (num, den) := Binary.ratio m q
  let e := leadingExponent num den
  let (n, g) := (Rounding.around m q).search q 19 (e + 1)
  let digits := Nat.toDigits 10 n
  (dropZeros digits, g + (digits.length : Int) - 1)

/-- The text of a number in messages: positional from `1e-4` to below `1e16`, and a number without
fraction ends in `.0`. -/
def shortest (x : Float) : String :=
  match Binary.ofFloat x with
  | .nan => "nan"
  | .infinite negative => special negative
  | .finite negative 0 _ => signed negative "0.0"
  | .finite negative m q =>
    let (digits, e) := shortestDigits m q
    signed negative <|
      if -4 ≤ e ∧ e < 16 then
        positional digits e ++ (if e < 0 ∨ e.toNat + 1 < digits.length then "" else ".0")
      else
        pointed digits ++ exponentText e

end NewtonKrylov.Decimal
