import NewtonKrylov.Number
import NewtonKrylov.Storage
import NewtonKrylov.Text.Number

/-!
# What an option value is accepted as

Tests and readings of option values, each with the fault that it ends in. A truth value passes for
one or zero everywhere; a binary64 number passes where it is only compared, not where it counts.
-/

namespace NewtonKrylov.Value

variable {R : Type}

/-! ## Tests -/

def positive (what : String) (v : Value) : Except (Fault R) Unit :=
  let test (b : Bool) := if b then .ok () else .error (.notPositive what v)
  match v.count?, v with
  | some n, _ => test (0 < n)
  | Option.none, float x => test (0.0 < x)
  | Option.none, _ => .error (.unordered ">" v.kind)

/-- The value must not be below one; not-a-number is not. -/
def atLeastOne (what : String) (v : Value) : Except (Fault R) Unit :=
  let test (b : Bool) := if b then .error (.belowOne what v) else .ok ()
  match v.count?, v with
  | some n, _ => test (n < 1)
  | Option.none, float x => test (x < 1.0)
  | Option.none, _ => .error (.unordered "<" v.kind)

/-! ## Readings -/

/-- How often to repeat: only whole numbers and truth values say so. -/
def repetitions (v : Value) : Except (Fault R) Nat :=
  match v.count? with
  | some n => .ok n.toNat
  | Option.none => .error (.notCount v.kind)

/-- The number of columns of a table with one more row than columns. -/
def columns (v : Value) : Except (Fault R) Nat := do
  let n ← v.repetitions
  match v with
  | bool _ => .error .notExtent
  | _ => Storage.allow [n + 1, n] 8
  .ok n

def scalarOfInt {S : Type} [Numeral S] (n : Int) : Except (Fault R) S :=
  (Numeral.ofInt n).mapError Unfit.fault

def real {S : Type} [Numeral S] (other : Fault R) (v : Value) : Except (Fault R) S :=
  match v.count?, v with
  | some n, _ => scalarOfInt n
  | Option.none, float x => .ok (Numeral.ofFloat x)
  | Option.none, _ => .error other

def factor {S : Type} [Numeral S] : Value → Except (Fault R) S
  | str _ | list _ => .error .sequenceScaled
  | v => v.real (.unscalable v.kind)

def measure : Value → Except (Fault R) Float
  | str s => match Text.number? s with
    | some x => .ok x
    | Option.none => .error (.notNumberText s)
  | v => v.real (.notNumberKind v.kind)

/-- Exceeds every whole number that a binary64 number reaches. -/
def unboundedBudget : Nat := pow2 1024

/-- The number of `n : Nat` with `n < v`: how many steps pass a test against the value. -/
def budget : Value → Nat
  | float x => match Binary.ofFloat x with
    | .finite false m q => ((Binary.ratio m q).1 + (Binary.ratio m q).2 - 1) / (Binary.ratio m q).2
    | .infinite false => unboundedBudget
    | _ => 0
  | v => (v.count?.getD 0).toNat

/-- The whole number that a value is rounded to toward zero, or that a text spells. -/
def whole (v : Value) : Except (Fault R) Int :=
  match v.count?, v with
  | some n, _ => .ok n
  | Option.none, float x => match Binary.ofFloat x with
    | .nan => .error .nanNotWhole
    | .infinite _ => .error .infinityNotWhole
    | .finite negative m q => .ok (Binary.truncated negative m q)
  | Option.none, str s => match Text.readWhole s with
    | .ok n => .ok n
    | .error .malformed => .error (.notWholeText s)
    | .error (.tooLong digits) => .error (.tooManyDigits digits)
  | Option.none, _ => .error (.notWholeKind v.kind)

def size (v : Value) : Except (Fault R) Nat := do
  let n ← v.whole
  if n < 1 then .error (.badSize v) else .ok n.toNat

end NewtonKrylov.Value
