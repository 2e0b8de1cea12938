import NewtonKrylov.LineSearch
import NewtonKrylov.Value.Check

/-!
# Line searches from option values

A search is asked for by name or by policy, with a budget of iterations that must not be below one.
The budget is only compared when a search is built; whether it can count iterations shows when the
search runs.
-/

namespace NewtonKrylov

/-- A step is made with the negative of its scale, so a refusal is about that. -/
def Fault.negated {R : Type} : Fault R → Fault R
  | .integerTooWide n => .integerTooWide (-n)
  | e => e

/-- How far a search goes. A whole number is a scale as it is, and its parts are rounded once, as
quotients; a binary64 number is multiplied and divided. -/
def Value.reach {R S : Type} [Numeral S] (v : Value) : Reach (Fault R) S where
  largest := v.factor.mapError Fault.negated
  part i n := match v.count? with
    | some m => match Decimal.quotient? (m * i) n with
      | some x => .ok (Numeral.ofFloat x)
      | Option.none => .error .quotientBeyondFloat
    | Option.none => do
      let x : Float ← v.factor
      let parts : Float ← Value.scalarOfInt n
      .ok (Numeral.ofFloat (x * Float.ofNat i / parts))

structure SearchSetting where
  policy : Policy
  maxiter : Value

namespace SearchSetting

variable {R : Type}

def defaultMaxiter : Value := .int 100

def build (policy : Policy) (maxiter : Value) : Except (Fault R) SearchSetting := do
  maxiter.atLeastOne "Line search maxiter"
  .ok ⟨policy, maxiter⟩

/-- The search with the given name; only texts name one. -/
def named (name maxiter : Value) : Except (Fault R) SearchSetting :=
  match name with
  | .str s => match Policy.ofName? s with
    | some policy => build policy maxiter
    | none => .error (.unknownSearch name Policy.names)
  | _ => .error (.unknownSearch name Policy.names)

def choose (choice maxiter : Value) : Except (Fault R) SearchSetting :=
  match choice with
  | .search policy own => .ok ⟨policy, own⟩
  | name => named name maxiter

def toValue (s : SearchSetting) : Value := .search s.policy s.maxiter

def same (a b : SearchSetting) : Bool :=
  a.policy == b.policy && a.maxiter.sameNumber b.maxiter

def toLineSearch (s : SearchSetting) : LineSearch (Fault R) := ⟨s.policy, s.maxiter.repetitions⟩

end SearchSetting

end NewtonKrylov
