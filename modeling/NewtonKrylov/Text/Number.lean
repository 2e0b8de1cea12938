import NewtonKrylov.Text.Whole

/-!
# Reading numbers

The accepted form is: blanks, an optional sign, then decimal digits with at most one point and an
optional exponent, or a word for infinity or not-a-number in any case, then blanks. Single
underscores may stand between digits. The nearest binary64 number is read.
-/

namespace NewtonKrylov.Text

/-- A signed run of digits that is all of the text. -/
def exponent? (cs : List Char) : Option Int :=
  match cs with
  | '-' :: ds => match digitRun 0 0 ds with
    | (n, _ + 1, []) => some (-(n : Int))
    | _ => none
  | '+' :: ds => match digitRun 0 0 ds with
    | (n, _ + 1, []) => some n
    | _ => none
  | ds => match digitRun 0 0 ds with
    | (n, _ + 1, []) => some n
    | _ => none

/-- The binary64 number nearest to `m * 10 ^ e`. Far from the range of these numbers the power of
ten is not worked out. -/
def decimalFloat (m : Nat) (e : Int) : Float :=
  let bits : Int := m.log2
  if m = 0 ∨ e + bits / 3 < -400 then 0.0
  else if 400 < e + bits / 4 then 1.0 / 0.0
  else Float.ofScientific m (e < 0) e.natAbs

def magnitude? (cs : List Char) : Option Float :=
  let word := String.ofList (cs.map Char.toLower)
  if word = "inf" ∨ word = "infinity" then some (1.0 / 0.0)
  else if word = "nan" then some (0.0 / 0.0)
  else
    let (whole, n, rest) := digitRun 0 0 cs
    let (m, k, rest) :=
      match rest with
      | '.' :: ds => digitRun whole 0 ds
      | _ => (whole, 0, rest)
    if n + k = 0 then none
    else match rest with
      | [] => some (decimalFloat m (-k))
      | 'e' :: ds => (exponent? ds).map fun e => decimalFloat m (e - k)
      | 'E' :: ds => (exponent? ds).map fun e => decimalFloat m (e - k)
      | _ => none

def number? (s : String) : Option Float :=
  match trimBlanks s.toList with
  | '-' :: cs => (magnitude? cs).map fun x => -x
  | '+' :: cs => magnitude? cs
  | cs => magnitude? cs

end NewtonKrylov.Text
