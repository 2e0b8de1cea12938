import Mathlib.Data.Set.Insert
import NewtonKrylov.Krylov.Problem
import NewtonKrylov.Proofs.Simulation

/-!
# What a run leaves alone

`s.Keeps G s'`: from session `s` to session `s'` no vector of `G` has changed, none has gone, and
nothing was reported or remembered. It is reflexive and transitive, a write keeps everything but its
target, and a new vector keeps everything there was. The run equations of the vector operations say
that each returns at once and writes one vector.
-/

namespace NewtonKrylov

variable {V S R σ : Type}

namespace Store

variable {s : Store V} {r : Ref} {u v : V}

theorem write_write : (s.write r u).write r v = s.write r v := by
  simp only [write, Store.mk.injEq]
  apply Array.ext_getElem?
  intro i
  simp only [Array.getElem?_modify]
  split
  · cases s.cells[i]? <;> rfl
  · rfl

theorem write_read [Inhabited V] : s.write r (s.read r) = s := by
  obtain ⟨cells⟩ := s
  simp only [write, read, Store.mk.injEq]
  apply Array.ext_getElem?
  intro i
  simp only [Array.getElem?_modify]
  split
  · rename_i h
    subst h
    cases cells[r.index]? <;> rfl
  · rfl

theorem Valid.write (h : s.Valid r) (r' : Ref) : (s.write r' v).Valid r := by
  rw [Valid, size_write]
  exact h

theorem Valid.push (h : s.Valid r) (name : String) : (s.push name v).Valid r := by
  rw [Valid, size_push]
  exact Nat.lt_succ_of_lt h

theorem valid_next (name : String) : (s.push name v).Valid s.next := by
  rw [Valid, size_push]
  exact Nat.lt_succ_self _

theorem not_valid_next : ¬ s.Valid s.next := Nat.lt_irrefl _

theorem Valid.ne_next (h : s.Valid r) : r ≠ s.next := fun e => not_valid_next (e ▸ h)

end Store

namespace Session

def write (s : Session V S R σ) (r : Ref) (v : V) : Session V S R σ :=
  { s with store := s.store.write r v }

def push (s : Session V S R σ) (name : String) (v : V) : Session V S R σ :=
  { s with store := s.store.push name v }

variable {s s' s'' : Session V S R σ} {r r' : Ref} {u v : V}

@[simp] theorem store_write : (s.write r v).store = s.store.write r v := rfl

@[simp] theorem outside_write : (s.write r v).outside = s.outside := rfl

theorem write_write : (s.write r u).write r v = s.write r v := by
  simp only [write, Store.write_write]

theorem write_read [Inhabited V] : s.write r (s.store.read r) = s := by
  simp only [write, Store.write_read]

/-- No vector of `G` has changed, no vector has gone, nothing was reported or remembered. -/
structure Keeps [Inhabited V] (G : Set Ref) (s s' : Session V S R σ) : Prop where
  size_le : s.store.size ≤ s'.store.size
  read_eq : ∀ r ∈ G, s'.store.read r = s.store.read r
  log_eq : s'.log = s.log
  history_eq : s'.history = s.history

namespace Keeps

variable [Inhabited V] {G G' : Set Ref}

theorem refl (G : Set Ref) (s : Session V S R σ) : s.Keeps G s :=
  ⟨Nat.le_refl _, fun _ _ => rfl, rfl, rfl⟩

theorem trans (h : s.Keeps G s') (h' : s'.Keeps G s'') : s.Keeps G s'' :=
  ⟨Nat.le_trans h.size_le h'.size_le,
    fun r hr => (h'.read_eq r hr).trans (h.read_eq r hr),
    h'.log_eq.trans h.log_eq, h'.history_eq.trans h.history_eq⟩

theorem mono (h : s.Keeps G s') (hG : G' ⊆ G) : s.Keeps G' s' :=
  ⟨h.size_le, fun r hr => h.read_eq r (hG hr), h.log_eq, h.history_eq⟩

theorem valid (h : s.Keeps G s') (hr : s.store.Valid r) : s'.store.Valid r :=
  Nat.lt_of_lt_of_le hr h.size_le

theorem write (hr : r ∉ G) : s.Keeps G (s.write r v) where
  size_le := Nat.le_of_eq Store.size_write.symm
  read_eq := fun _ hr' => Store.read_write_of_ne fun e => hr (e ▸ hr')
  log_eq := rfl
  history_eq := rfl

theorem push (hG : ∀ r ∈ G, s.store.Valid r) (name : String) : s.Keeps G (s.push name v) where
  size_le := Nat.le_trans (Nat.le_succ _) (Nat.le_of_eq Store.size_push.symm)
  read_eq := fun r hr => Store.read_push_of_valid (hG r hr)
  log_eq := rfl
  history_eq := rfl

theorem of_store_eq (hstore : s'.store = s.store) (hlog : s'.log = s.log)
    (hhistory : s'.history = s.history) : s.Keeps G s' where
  size_le := Nat.le_of_eq (congrArg Store.size hstore.symm)
  read_eq := fun r _ => by rw [hstore]
  log_eq := hlog
  history_eq := hhistory

end Keeps

/-- Only vectors of `W` were written; the collaborators ended with `o`. -/
structure Wrote [Inhabited V] (W : Set Ref) (s s' : Session V S R σ) (o : σ) : Prop where
  outside_eq : s'.outside = o
  buffers_eq : s'.buffers = s.buffers
  keeps : s.Keeps {r | s.store.Valid r ∧ r ∉ W} s'

namespace Wrote

variable [Inhabited V] {W : Set Ref} {o : σ}

theorem refl (W : Set Ref) (s : Session V S R σ) : s.Wrote W s s.outside :=
  ⟨rfl, rfl, Keeps.refl _ s⟩

theorem write (h : s.Wrote W s' o) (hr : r ∈ W) (v : V) : s.Wrote W (s'.write r v) o where
  outside_eq := h.outside_eq
  buffers_eq := h.buffers_eq
  keeps := h.keeps.trans (Keeps.write fun h => h.2 hr)

theorem consult (h : s.Wrote W s' o) (o' : σ) : s.Wrote W { s' with outside := o' } o' where
  outside_eq := rfl
  buffers_eq := h.buffers_eq
  keeps := h.keeps.trans (Keeps.of_store_eq rfl rfl rfl)

theorem read_eq (h : s.Wrote W s' o) (hvalid : s.store.Valid r) (hr : r ∉ W) :
    s'.store.read r = s.store.read r := h.keeps.read_eq r ⟨hvalid, hr⟩

theorem valid (h : s.Wrote W s' o) (hr : s.store.Valid r) : s'.store.Valid r := h.keeps.valid hr

end Wrote

end Session

/-! ## Run equations -/

namespace Run

variable {α : Type} {s : Session V S R σ}

theorem contents_run [Inhabited V] (r : Ref) :
    (Run.contents r : Run V S R σ V) s = .ok (s.store.read r) s := rfl

theorem overwrite_run (r : Ref) (v : V) :
    (Run.overwrite r v : Run V S R σ Unit) s = .ok () (s.write r v) := rfl

/-- A collaborator acts as it does by itself, and changes its own state only. -/
theorem consult_follows (act : Collab R σ α) (s : Session V S R σ) :
    Follows (fun u s' v o => u = v ∧ s' = { s with outside := o })
      (fun s' o => s' = { s with outside := o }) (Run.consult act) s act s.outside := by
  cases h : act s.outside with
  | ok u o =>
    have hact : Run.consult act s = .ok u { s with outside := o } := by
      simp only [Run.consult, h]
    exact Follows.of_ok hact h ⟨rfl, rfl⟩
  | error e o =>
    have hact : Run.consult act s = .error e { s with outside := o } := by
      simp only [Run.consult, h]
    exact Follows.of_error hact h rfl

end Run

namespace Backend

variable (K : Backend S V) {s : Session V S R σ}

/-- The length of a vector. -/
def length [Scalar S] (v : V) : S := Scalar.sqrt (Scalar.nonneg (K.dot v v))

theorem new_run (name : String) :
    (K.new name : Run V S R σ Ref) s = .ok s.store.next (s.push name (K.zero ())) := rfl

variable [Inhabited V]

theorem addScaledInto_run (dest a b : Ref) (c : S) :
    (K.addScaledInto dest a b c : Run V S R σ Unit) s =
      .ok () (s.write dest (K.addScaled (s.store.read a) (s.store.read b) c)) := rfl

theorem addScaledWideInto_run (dest a b : Ref) (c : S) :
    (K.addScaledWideInto dest a b c : Run V S R σ Unit) s =
      .ok () (s.write dest (K.addScaledWide (s.store.read a) (s.store.read b) c)) := rfl

theorem scaleInto_run (dest a : Ref) (c : S) :
    (K.scaleInto dest a c : Run V S R σ Unit) s =
      .ok () (s.write dest (K.scale (s.store.read a) c)) := rfl

theorem dotAt_run (a b : Ref) :
    (K.dotAt a b : Run V S R σ S) s = .ok (K.dot (s.store.read a) (s.store.read b)) s := rfl

end Backend

theorem LinearProblem.lengthAt_run [Inhabited V] [Scalar S] (p : LinearProblem V S R σ) (a : Ref)
    (s : Session V S R σ) : p.lengthAt a s = .ok (p.backend.length (s.store.read a)) s := rfl

end NewtonKrylov
