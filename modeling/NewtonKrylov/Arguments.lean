/-!
# Command line options

Options are written `--name value` or `--name=value`, flags `--name`. A name may be cut short as
long as it fits one option only, and the last value given for an option counts.
-/

namespace NewtonKrylov

structure Switch where
  name : String
  /-- A flag takes no value. -/
  isFlag : Bool := false

/-- Options by name with their values, in the order given; flags have the empty value. -/
abbrev Arguments := List (String × String)

namespace Arguments

def find (known : List Switch) (name : String) : Except String Switch :=
  match known.find? fun o => o.name = name with
  | some o => .ok o
  | none => match known.filter fun o => o.name.startsWith name with
    | [o] => .ok o
    | [] => .error ("unknown option: --" ++ name)
    | _ => .error ("ambiguous option: --" ++ name)

/-- The name in an option, and the value that follows it after an equals sign. -/
def split (word : String) : Except String (String × Option String) :=
  match word.toList with
  | '-' :: '-' :: cs =>
    let name := String.ofList (cs.takeWhile (· != '='))
    match cs.dropWhile (· != '=') with
    | [] => .ok (name, none)
    | _ :: value => .ok (name, some (String.ofList value))
  | _ => .error ("not an option: " ++ word)

def read (known : List Switch) : List String → Except String Arguments
  | [] => .ok []
  | word :: rest => do
    let (name, inline) ← split word
    let o ← find known name
    match o.isFlag, inline, rest with
    | true, none, rest => .ok ((o.name, "") :: (← read known rest))
    | true, some _, _ => .error ("no value wanted: --" ++ o.name)
    | false, some value, rest => .ok ((o.name, value) :: (← read known rest))
    | false, none, value :: rest => .ok ((o.name, value) :: (← read known rest))
    | false, none, [] => .error ("value missing: --" ++ o.name)

/-- The last value of an option, read by `parse`; `absent` if it is not given. -/
def value {α : Type} (a : Arguments) (name : String) (parse : String → Option α) (absent : α) :
    Except String α :=
  match a.reverse.lookup name with
  | none => .ok absent
  | some s => match parse s with
    | some v => .ok v
    | none => .error ("bad value for --" ++ name ++ ": " ++ s)

def has (a : Arguments) (name : String) : Bool := (a.lookup name).isSome

end Arguments

end NewtonKrylov
