import NewtonKrylov.Backend
import NewtonKrylov.Fault
import NewtonKrylov.Log
import NewtonKrylov.Store

/-!
# Sessions

A session is everything that a run threads through its calls: the vector store, the named buffers of
the current run, what has been reported, the recorded residual norms, and the state `σ` of the
collaborators, which no solver looks into. A `Run` keeps the session also when it fails, so it can
be asked what a failed run left behind.
-/

namespace NewtonKrylov

structure Buffers where
  entries : List (String × Ref) := []

namespace Buffers

def names (b : Buffers) : List String := b.entries.map Prod.fst

def size (b : Buffers) : Nat := b.entries.length

def find? (b : Buffers) (name : String) : Option Ref := b.entries.lookup name

def contains (b : Buffers) (name : String) : Bool := (b.find? name).isSome

def insert (b : Buffers) (name : String) (r : Ref) : Buffers := ⟨b.entries ++ [(name, r)]⟩

end Buffers

structure Session (V S R σ : Type) where
  store : Store V := {}
  buffers : Buffers := {}
  log : List (Record S R) := []
  history : List (Nat × R) := []
  outside : σ

/-- What a collaborator does: it sees and changes its own state only, and may fail. -/
abbrev Collab (R σ α : Type) := EStateM (Fault R) σ α

abbrev Run (V S R σ α : Type) := EStateM (Fault R) (Session V S R σ) α

namespace Run

variable {V S R σ α : Type}

def consult (act : Collab R σ α) : Run V S R σ α := fun ⟨store, buffers, log, history, o⟩ =>
  match act o with
  | .ok a o' => .ok a ⟨store, buffers, log, history, o'⟩
  | .error e o' => .error e ⟨store, buffers, log, history, o'⟩

/-- Fails for a cause that was found earlier but matters only now. -/
def demand (x : Except (Fault R) α) : Run V S R σ α := fun s =>
  match x with
  | .ok a => .ok a s
  | .error e => .error e s

def report (r : Record S R) : Run V S R σ Unit := fun s =>
  .ok () { s with log := s.log ++ [r] }

def remember (iteration : Nat) (residual : R) : Run V S R σ Unit := fun s =>
  .ok () { s with history := s.history ++ [(iteration, residual)] }

def contents [Inhabited V] (r : Ref) : Run V S R σ V := fun s => .ok (s.store.read r) s

def overwrite (r : Ref) (v : V) : Run V S R σ Unit := fun s =>
  .ok () { s with store := s.store.write r v }

/-- One over a scalar; zero has no reciprocal. -/
def reciprocal [Scalar S] (x : S) : Run V S R σ S :=
  if Scalar.isZero x then throw .divisionByZero else pure (Scalar.ofNat 1 / x)

def allocate (name : String) (v : V) : Run V S R σ Ref := fun s =>
  .ok s.store.next { s with store := s.store.push name v }

end Run

/-! ## Vector operations on references -/

namespace Backend

variable {V S R σ : Type} [Inhabited V] [Scalar S]

def new (K : Backend S V) (name : String) : Run V S R σ Ref := Run.allocate name (K.zero ())

def dotAt (K : Backend S V) (a b : Ref) : Run V S R σ S := fun s =>
  .ok (K.dot (s.store.read a) (s.store.read b)) s

def meanSquareAt (K : Backend S V) (a : Ref) : Run V S R σ S := fun s =>
  .ok (K.meanSquare (s.store.read a)) s

/-- Sets `dest = a + c * b`, all three possibly the same vector. -/
def addScaledInto (K : Backend S V) (dest a b : Ref) (c : S) : Run V S R σ Unit := fun s =>
  let v := K.addScaled (s.store.read a) (s.store.read b) c
  .ok () { s with store := s.store.write dest v }

def addScaledWideInto (K : Backend S V) (dest a b : Ref) (c : S) : Run V S R σ Unit := fun s =>
  let v := K.addScaledWide (s.store.read a) (s.store.read b) c
  .ok () { s with store := s.store.write dest v }

/-- Sets `dest = c * a`, both possibly the same vector. -/
def scaleInto (K : Backend S V) (dest a : Ref) (c : S) : Run V S R σ Unit := fun s =>
  let v := K.scale (s.store.read a) c
  .ok () { s with store := s.store.write dest v }

end Backend

/-- The vector kept under a name: made by `new` on the first request, the same one afterwards. A
request whose `new` fails keeps nothing, so the next one tries again. -/
def Run.keptAs {V S R σ : Type} (new : String → Run V S R σ Ref) (name : String) :
    Run V S R σ Ref := do
  match (← get).buffers.find? name with
  | some r => pure r
  | none =>
    let r ← new name
    modify fun s => { s with buffers := s.buffers.insert name r }
    pure r

end NewtonKrylov
