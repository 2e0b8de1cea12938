import NewtonKrylov.Decimal.Binary

/-!
# Numbers with a given count of significant digits

`roundTo k num den` is the decimal with `k` significant digits that is nearest to `num / den`, a tie
going to the even digit. `scientific` writes it with one digit before the point and an exponent of
at least two digits; `general` writes small exponents positionally and drops trailing zeros. `fixed`
counts the digits after the point instead.
-/

namespace NewtonKrylov.Decimal

def roundDiv (num den : Nat) : Nat :=
  let q := num / den
  let r := num % den
  if den < 2 * r ∨ (2 * r = den ∧ q % 2 = 1) then q + 1 else q

/-- How many decimal digits `n` has; zero has one. -/
def digitCount (n : Nat) : Nat := (Nat.toDigits 10 n).length

def leadingExponent (num den : Nat) : Int :=
  let e : Int := (digitCount num : Int) - digitCount den
  if num * pow10 (-e).toNat < den * pow10 e.toNat then e - 1 else e

/-- A pair `(n, e)` with `n` of `k` digits, standing for `n * 10 ^ (e - k + 1)`. -/
def roundTo (k num den : Nat) : Nat × Int :=
  let e := leadingExponent num den
  let shift := (k : Int) - 1 - e
  let n := roundDiv (num * pow10 shift.toNat) (den * pow10 (-shift).toNat)
  if n = pow10 k then (pow10 (k - 1), e + 1) else (n, e)

/-! ## Text -/

/-- Exponents carry a sign and at least two digits. -/
def exponentText (e : Int) : String :=
  let digits := Nat.repr e.natAbs
  (if e < 0 then "e-" else "e+") ++ (if digits.length < 2 then "0" else "") ++ digits

def pointed (digits : List Char) : String :=
  match digits with
  | [] => ""
  | [d] => String.ofList [d]
  | d :: ds => String.ofList (d :: '.' :: ds)

def positional (digits : List Char) (e : Int) : String :=
  if e < 0 then
    String.ofList ('0' :: '.' :: (List.replicate (-e - 1).toNat '0' ++ digits))
  else
    let whole := e.toNat + 1
    let filled := digits ++ List.replicate (whole - digits.length) '0'
    let fraction := filled.drop whole
    String.ofList (filled.take whole ++ (if fraction.isEmpty then [] else '.' :: fraction))

def dropZeros (digits : List Char) : List Char :=
  match (digits.reverse.dropWhile (· == '0')).reverse with
  | [] => ['0']
  | ds => ds

def special (negative : Bool) : String := if negative then "-inf" else "inf"

def signed (negative : Bool) (text : String) : String := if negative then "-" ++ text else text

/-- The text with `k` significant digits in exponent form, the sign of zero kept. -/
def scientific (k : Nat) (x : Float) : String :=
  match Binary.ofFloat x with
  | .nan => "nan"
  | .infinite negative => special negative
  | .finite negative 0 _ =>
    signed negative (pointed (List.replicate k '0') ++ exponentText 0)
  | .finite negative m q =>
    let (num, den) := Binary.ratio m q
    let (n, e) := roundTo k num den
    signed negative (pointed (Nat.toDigits 10 n) ++ exponentText e)

/-- The text with `k` significant digits and no trailing zeros, positional for exponents from `-4`
to `k - 1`. -/
def general (k : Nat) (x : Float) : String :=
  match Binary.ofFloat x with
  | .nan => "nan"
  | .infinite negative => special negative
  | .finite negative 0 _ => signed negative "0"
  | .finite negative m q =>
    let (num, den) := Binary.ratio m q
    let (n, e) := roundTo k num den
    let digits := dropZeros (Nat.toDigits 10 n)
    signed negative <|
      if -4 ≤ e ∧ e < k then positional digits e else pointed digits ++ exponentText e

/-- The text with `k` digits after the point, the sign of zero kept. -/
def fixed (k : Nat) (x : Float) : String :=
  match Binary.ofFloat x with
  | .nan => "nan"
  | .infinite negative => special negative
  | .finite negative m q =>
    let (num, den) := Binary.ratio m q
    let digits := Nat.toDigits 10 (roundDiv (num * pow10 k) den)
    let filled := List.replicate (k + 1 - digits.length) '0' ++ digits
    let whole := filled.length - k
    let fraction := if k = 0 then [] else '.' :: filled.drop whole
    signed negative (String.ofList (filled.take whole ++ fraction))

end NewtonKrylov.Decimal
