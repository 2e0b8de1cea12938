import NewtonKrylov.Krylov.Problem
import NewtonKrylov.Storage

/-!
# Vector programs

A program is a list of instructions over registers, each register holding a reference. Instructions
may share operands in any pattern. New vectors come either straight from the backend or from the
buffers kept by name; an instruction says which. An instruction that fails binds no register, and
the program goes on with the next one.

A program can also be run as a Krylov solver, on the right-hand side, the unknown and the operator
of a linear problem.
-/

namespace NewtonKrylov

/-- Numbers in nested lists of equal lengths. -/
inductive Nested (S : Type) where
  | number (x : S)
  | list (items : List (Nested S))

namespace Nested

variable {S : Type}

/-- The extents, outermost first. -/
def shape : Nested S → List Nat
  | number _ => []
  | list [] => [0]
  | list (item :: items) => (items.length + 1) :: item.shape

def number? : Nested S → Option S
  | number x => some x
  | list _ => none

def numbers : Nested S → List S
  | number x => [x]
  | list items => items.filterMap number?

end Nested

inductive Answer (S : Type) where
  | contents (entries : List S)
  | number (x : S)
  | flag (b : Bool)
  | count (n : Nat)
  | names (ns : List String)

inductive Instruction (S : Type) where
  | new (dest name : String)
  | fromValues (dest name : String) (values : Nested S)
  | assign (dest : String) (values : Nested S)
  /-- Overwrites a vector with as many numbers as it has entries. -/
  | set (dest : String) (values : List S)
  | dot (a b : String)
  | norm (a : String)
  | addScaled (dest a b : String) (s : S)
  | scale (dest a : String) (s : S)
  | copy (dest a : String)
  | same (a b : String)
  | contents (a : String)
  | size
  | keep (dest name : String)
  | kept (name : String)
  | keptCount
  | keptNames
  | apply (dest v : String)

structure Step (S : Type) where
  instruction : Instruction S
  throughBuffers : Bool

abbrev Registers := List (String × Ref)

def Registers.ref (regs : Registers) (name : String) : Ref := (regs.lookup name).getD default

structure Bench (V S R σ : Type) where
  space : Space S V
  new : String → Run V S R σ Ref
  keep : String → Run V S R σ Ref
  operator : (result v : Ref) → Run V S R σ Unit

namespace Program

variable {V S R σ : Type} [Inhabited V] [Scalar S]

/-- What filling a vector of `n` entries writes: one number goes everywhere. -/
def filling (n : Nat) (values : Nested S) : Except (Fault R) (List S) :=
  match values.shape with
  | [] => .ok (values.numbers.flatMap (List.replicate n))
  | [k] =>
    if k = n then .ok values.numbers
    else if k = 1 then .ok (values.numbers.flatMap (List.replicate n))
    else .error (.noBroadcast [k] n)
  | _ => .error (.tooDeep 1)

/-- A vector after values were written over it, and the fault that ended this, if one did. Numbers
that do not fit are refused even where there are too many or too few of them. -/
def written (K : Space S V) (v : V) (values : Nested S) : V × Option (Fault R) :=
  match filling K.backend.size values with
  | .ok xs => let (v', flaw) := K.putAll v xs; (v', flaw.map Unfit.fault)
  | .error (.noBroadcast shape n) =>
    (v, some ((values.numbers.findSome? K.flaw).elim (.noBroadcast shape n) Unfit.fault))
  | .error e => (v, some e)

def mostExtents : Nat := 64

def exactly (n : Nat) (values : Nested S) : Except (Fault R) (List S) :=
  if values.shape = [n] then .ok values.numbers
  else if mostExtents < values.shape.length then .error (.tooDeep mostExtents)
  else .error (.wrongShape n values.shape)

def entriesAt (B : Bench V S R σ) (r : Ref) : Run V S R σ (Answer S) := do
  let v ← Run.contents r
  pure (.contents (B.space.toList v))

def writeTo (K : Space S V) (r : Ref) (values : Nested S) : Run V S R σ Unit := do
  let (v, fault) := written K (← Run.contents r) values
  Run.overwrite r v
  fault.forM throw

def usable (K : Space S V) (s : S) : Except (Fault R) Unit :=
  match K.factorFlaw s with
  | none => .ok ()
  | some flaw => .error flaw.fault

/-- A new vector holding the given numbers; nothing is allocated unless they fit. -/
def vectorOf (K : Space S V) (name : String) (values : Nested S) : Run V S R σ Ref := do
  let xs ← Run.demand (exactly K.backend.size values)
  let r ← K.backend.new name
  Run.overwrite r (K.ofList xs)
  pure r

def exec (B : Bench V S R σ) (step : Step S) (regs : Registers) :
    Run V S R σ (Registers × Answer S) := do
  let K := B.space.backend
  let bind (dest : String) (r : Ref) : Run V S R σ (Registers × Answer S) := do
    pure ((dest, r) :: regs, ← entriesAt B r)
  match step.instruction with
  | .new dest name => bind dest (← (if step.throughBuffers then B.keep else B.new) name)
  | .fromValues dest name values => bind dest (← vectorOf B.space name values)
  | .assign dest values =>
    writeTo B.space (regs.ref dest) values
    pure (regs, ← entriesAt B (regs.ref dest))
  | .set dest xs =>
    writeTo B.space (regs.ref dest) (.list (xs.map .number))
    pure (regs, ← entriesAt B (regs.ref dest))
  | .dot a b => pure (regs, .number (← K.dotAt (regs.ref a) (regs.ref b)))
  | .norm a => pure (regs, .number (← K.meanSquareAt (regs.ref a)))
  | .addScaled dest a b s =>
    Run.demand (usable B.space s)
    K.addScaledInto (regs.ref dest) (regs.ref a) (regs.ref b) s
    pure (regs, ← entriesAt B (regs.ref dest))
  | .scale dest a s =>
    Run.demand (usable B.space s)
    K.scaleInto (regs.ref dest) (regs.ref a) s
    pure (regs, ← entriesAt B (regs.ref dest))
  | .copy dest a =>
    K.scaleInto (regs.ref dest) (regs.ref a) (Scalar.ofNat 1)
    pure (regs, ← entriesAt B (regs.ref dest))
  | .same a b => pure (regs, .flag (regs.ref a = regs.ref b))
  | .contents a => pure (regs, ← entriesAt B (regs.ref a))
  | .size => pure (regs, .count K.size)
  | .keep dest name => bind dest (← B.keep name)
  | .kept name => pure (regs, .flag ((← get).buffers.contains name))
  | .keptCount => pure (regs, .count (← get).buffers.size)
  | .keptNames => pure (regs, .names (← get).buffers.names)
  | .apply dest v =>
    B.operator (regs.ref dest) (regs.ref v)
    pure (regs, ← entriesAt B (regs.ref dest))

def run (B : Bench V S R σ) :
    List (Step S) → Registers → Run V S R σ (List (Except (Fault R) (Answer S)))
  | [], _ => pure []
  | step :: steps, regs => fun s =>
    match exec B step regs s with
    | .ok (regs', answer) s' => ((.ok answer :: ·) <$> run B steps regs') s'
    | .error e s' => ((.error e :: ·) <$> run B steps regs) s'

/-- Runs a program up to its first fault. -/
def execAll (B : Bench V S R σ) : List (Step S) → Registers → Run V S R σ Unit
  | [], _ => pure ()
  | step :: steps, regs => do
    let (regs', _) ← exec B step regs
    execAll B steps regs'

def roomy (K : Space S V) (name : String) : Run V S R σ Ref := do
  Run.demand (Storage.allow [K.backend.size] K.width)
  K.backend.new name

/-- The bench of a backend: new vectors are fresh, kept ones come from the session's buffers. -/
def bench (K : Space S V) : Bench V S R σ where
  space := K
  new := roomy K
  keep := Run.keptAs (roomy K)
  operator _ _ := pure ()

/-- A program as a solver: register `b` holds the right-hand side and `x` the unknown. -/
def solver (K : Space S V) (steps : List (Step S)) : KrylovSolver V S R σ := fun p =>
  execAll ⟨K, p.new, p.new, p.operator⟩ steps [("b", p.rhs), ("x", p.unknown)]

end Program

end NewtonKrylov
