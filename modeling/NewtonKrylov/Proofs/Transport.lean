import NewtonKrylov.Proofs.Krylov.WorkVectors
import NewtonKrylov.Proofs.Passage

/-!
# Runs on transformed vectors

`Session.map h` is a session with `h` applied to the contents of all its vectors and nothing else changed.
A passage transports to another one (`Run.Passage.Transports`) if from the transformed session the other
run does the same and passes through the transformed sessions. It answers with the same values, so what
is made of them is transported as well.

A transformation is a symmetry of a backend (`Backend.Symmetry`) if it commutes with the operations and
leaves dot products alone; then the vector operations are transported to themselves.
-/

namespace NewtonKrylov

variable {V S R σ α β : Type} {h : V → V}

open Run.Passage (action)

/-! ## Transformed sessions -/

namespace Store

variable {s : Store V} {r : Ref} {v : V}

/-- The store with `h` applied to all contents. -/
def map (h : V → V) (s : Store V) : Store V := ⟨s.cells.map fun c => ⟨c.name, h c.contents⟩⟩

theorem next_map : (s.map h).next = s.next := by
  simp [next, size, map]

theorem push_map (name : String) : (s.map h).push name (h v) = (s.push name v).map h := by
  simp [push, map]

theorem write_map : (s.map h).write r (h v) = (s.write r v).map h := by
  simp only [write, map, Store.mk.injEq]
  apply Array.ext_getElem?
  intro i
  simp only [Array.getElem?_modify, Array.getElem?_map]
  split
  · cases s.cells[i]? <;> rfl
  · rfl

theorem read_map [Inhabited V] (hdefault : h default = default) :
    (s.map h).read r = h (s.read r) := by
  simp only [read, map, Array.getElem?_map]
  cases s.cells[r.index]? with
  | none => exact hdefault.symm
  | some c => rfl

end Store

/-- The session with `h` applied to the contents of all its vectors. -/
def Session.map (h : V → V) (s : Session V S R σ) : Session V S R σ :=
  { s with store := s.store.map h }

/-! ## Transported passages -/

/-- From a transformed session the run of `t'` does what the run of `t` does, and passes through the
transformed sessions. -/
structure Run.Passage.Transports (h : V → V) {x x' : Run V S R σ α} (t : x.Passage)
    (t' : x'.Passage) : Prop where
  run_eq : ∀ s, x' (s.map h) = seenThrough (Session.map h) (x s)
  sessions_eq : ∀ s, t'.sessions (s.map h) = (t.sessions s).map (Session.map h)

namespace Run.Passage.Transports

variable {x x' y y' : Run V S R σ α} {f f' : α → Run V S R σ β} {t : x.Passage} {t' : x'.Passage}

theorem action (hx : ∀ s, x' (s.map h) = seenThrough (Session.map h) (x s)) :
    Transports h (Passage.action x) (Passage.action x') := by
  refine ⟨hx, fun s => ?_⟩
  have hs := hx s
  cases hrun : x s with
  | ok a s' =>
    rw [hrun] at hs
    rw [sessions_action_ok hrun, sessions_action_ok hs]
    rfl
  | error e s' =>
    rw [hrun] at hs
    rw [sessions_action_error hrun, sessions_action_error hs]
    rfl

theorem bind {next : ∀ a, Passage (f a)} {next' : ∀ a, Passage (f' a)} (ht : Transports h t t')
    (hnext : ∀ a, Transports h (next a) (next' a)) : Transports h (t.bind next) (t'.bind next') := by
  refine ⟨fun s => ?_, fun s => ?_⟩
  · have hs := ht.run_eq s
    cases hrun : x s with
    | ok a s' =>
      rw [hrun] at hs
      rw [bind_run_ok hs, bind_run_ok hrun, (hnext a).run_eq]
    | error e s' =>
      rw [hrun] at hs
      rw [bind_run_error hs, bind_run_error hrun]
      rfl
  · have hs := ht.run_eq s
    cases hrun : x s with
    | ok a s' =>
      rw [hrun] at hs
      rw [sessions_bind_ok hs, sessions_bind_ok hrun, ht.sessions_eq, (hnext a).sessions_eq,
        List.map_append]
    | error e s' =>
      rw [hrun] at hs
      rw [sessions_bind_error hs, sessions_bind_error hrun, ht.sessions_eq]

theorem ite {c : Prop} [Decidable c] {t₁ : y.Passage} {t₁' : y'.Passage} (ht : Transports h t t')
    (ht₁ : Transports h t₁ t₁') :
    Transports h (t.ite t₁ : Passage (if c then x else y))
      (t'.ite t₁' : Passage (if c then x' else y')) := by
  by_cases hc : c
  · refine ⟨fun s => ?_, fun s => ?_⟩
    · rw [if_pos hc, if_pos hc]
      exact ht.run_eq s
    · simpa only [Passage.ite, if_pos hc] using ht.sessions_eq s
  · refine ⟨fun s => ?_, fun s => ?_⟩
    · rw [if_neg hc, if_neg hc]
      exact ht₁.run_eq s
    · simpa only [Passage.ite, if_neg hc] using ht₁.sessions_eq s

theorem of_eq (ht : Transports h t t') (hx : x = y) (hx' : x' = y') :
    Transports h (t.of_eq hx) (t'.of_eq hx') := by
  subst hx hx'
  exact ht

/-! ## Single actions -/

theorem pure (a : α) :
    Transports h (Passage.action (Pure.pure a : Run V S R σ α)) (Passage.action (Pure.pure a)) :=
  action fun _ => rfl

theorem demand (x : Except (Fault R) α) :
    Transports h (Passage.action (Run.demand x : Run V S R σ α)) (Passage.action (Run.demand x)) := by
  cases x with
  | ok a => exact pure a
  | error e => exact action fun _ => rfl

theorem consult (act : Collab R σ α) :
    Transports h (Passage.action (Run.consult act : Run V S R σ α))
      (Passage.action (Run.consult act)) := by
  refine action fun s => ?_
  simp only [Run.consult, Session.map]
  cases act s.outside with
  | ok a o => rfl
  | error e o => rfl

theorem reciprocal [Scalar S] (x : S) :
    Transports h (Passage.action (Run.reciprocal x : Run V S R σ S))
      (Passage.action (Run.reciprocal x)) := by
  refine action fun s => ?_
  unfold Run.reciprocal
  split
  · rfl
  · rfl

theorem overwrites {x x' : Run V S R σ Unit} {r : Ref} (v : Session V S R σ → V)
    (hx : ∀ s, x s = .ok () (s.write r (v s)))
    (hx' : ∀ s : Session V S R σ, x' (s.map h) = .ok () ((s.map h).write r (h (v s)))) :
    Transports h (Passage.action x) (Passage.action x') := by
  refine action fun s => ?_
  rw [hx, hx']
  simp only [seenThrough, Session.write, Session.map, Store.write_map]

theorem keptAs {K : Backend S V} (hzero : h (K.zero ()) = K.zero ()) (name : String) :
    Transports h (Passage.action (Run.keptAs K.new name : Run V S R σ Ref))
      (Passage.action (Run.keptAs K.new name)) := by
  refine action fun s => ?_
  cases hfind : s.buffers.find? name with
  | some r =>
    rw [Run.keptAs_run_of_some hfind]
    exact Run.keptAs_run_of_some hfind
  | none =>
    have hpush : (s.map h).store.push name (K.zero ()) = (s.store.push name (K.zero ())).map h := by
      rw [← Store.push_map, hzero]
      rfl
    rw [Run.keptAs_run_of_none hfind, Run.keptAs_run_of_none (s := s.map h) hfind]
    simp only [Session.push, hpush]
    rw [show (s.map h).store.next = s.store.next from Store.next_map]
    rfl

end Run.Passage.Transports

/-! ## Symmetries -/

variable [Inhabited V]

/-- The transformation commutes with the operations and leaves dot products alone. -/
structure Backend.Symmetry (K : Backend S V) (h : V → V) : Prop where
  zero_eq : h (K.zero ()) = K.zero ()
  default_eq : h default = default
  dot_eq : ∀ u v, K.dot (h u) (h v) = K.dot u v
  addScaled_eq : ∀ u v c, K.addScaled (h u) (h v) c = h (K.addScaled u v c)
  addScaledWide_eq : ∀ u v c, K.addScaledWide (h u) (h v) c = h (K.addScaledWide u v c)
  scale_eq : ∀ v c, K.scale (h v) c = h (K.scale v c)

theorem Residual.into_run (f : Residual V R σ) (out x : Ref) (s : Session V S R σ) :
    f.into out x s = match f (s.store.read out) (s.store.read x) s.outside with
      | .ok y o => .ok () (Session.write { s with outside := o } out y)
      | .error e o => .error e { s with outside := o } := by
  unfold Residual.into
  rw [bind_run_ok (Run.contents_run out), bind_run_ok (Run.contents_run x), bind_run]
  simp only [Run.consult]
  cases f (s.store.read out) (s.store.read x) s.outside with
  | ok y o => rfl
  | error e o => rfl

/-- The second function does with transformed contents what the first does with the contents. -/
def Residual.Transports (h : V → V) (f f' : Residual V R σ) : Prop :=
  ∀ old v, f' (h old) (h v) = h <$> f old v

namespace Backend.Symmetry

open Run.Passage (Transports)

variable {K : Backend S V} (hK : K.Symmetry h)
include hK

theorem read_map (s : Session V S R σ) (r : Ref) : (s.map h).store.read r = h (s.store.read r) :=
  Store.read_map hK.default_eq

theorem new (name : String) :
    Transports h (action (K.new name : Run V S R σ Ref)) (action (K.new name)) := by
  refine .action fun s => ?_
  rw [K.new_run, K.new_run]
  simp only [seenThrough, Session.push, Session.map, Store.next_map, ← Store.push_map, hK.zero_eq]

theorem dotAt (a b : Ref) :
    Transports h (action (K.dotAt a b : Run V S R σ S)) (action (K.dotAt a b)) := by
  refine .action fun s => ?_
  rw [K.dotAt_run, K.dotAt_run, hK.read_map, hK.read_map, hK.dot_eq]
  rfl

theorem lengthAt [Scalar S] {p p' : LinearProblem V S R σ} (hp : p.backend = K)
    (hp' : p'.backend = K) (a : Ref) :
    Transports h (action (p.lengthAt a)) (action (p'.lengthAt a)) := by
  refine .action fun s => ?_
  rw [p.lengthAt_run, p'.lengthAt_run, hp, hp', hK.read_map, length, length, hK.dot_eq]
  rfl

theorem addScaledInto (dest a b : Ref) (c : S) :
    Transports h (action (K.addScaledInto dest a b c : Run V S R σ Unit))
      (action (K.addScaledInto dest a b c)) := by
  refine .overwrites (fun s => K.addScaled (s.store.read a) (s.store.read b) c) (fun _ => rfl) ?_
  intro s
  rw [K.addScaledInto_run, hK.read_map, hK.read_map, hK.addScaled_eq]

theorem addScaledWideInto (dest a b : Ref) (c : S) :
    Transports h (action (K.addScaledWideInto dest a b c : Run V S R σ Unit))
      (action (K.addScaledWideInto dest a b c)) := by
  refine .overwrites (fun s => K.addScaledWide (s.store.read a) (s.store.read b) c)
    (fun _ => rfl) ?_
  intro s
  rw [K.addScaledWideInto_run, hK.read_map, hK.read_map, hK.addScaledWide_eq]

theorem scaleInto (dest a : Ref) (c : S) :
    Transports h (action (K.scaleInto dest a c : Run V S R σ Unit))
      (action (K.scaleInto dest a c)) := by
  refine .overwrites (fun s => K.scale (s.store.read a) c) (fun _ => rfl) ?_
  intro s
  rw [K.scaleInto_run, hK.read_map, hK.scale_eq]

theorem into {f f' : Residual V R σ} (hf : f.Transports h f') (out x : Ref) :
    Transports h (action (f.into out x : Run V S R σ Unit)) (action (f'.into out x)) := by
  refine .action fun s => ?_
  have hmap : ∀ act : Collab R σ V, (h <$> act) s.outside = match act s.outside with
      | .ok y o => .ok (h y) o
      | .error e o => .error e o := by
    intro act
    simp only [Functor.map, EStateM.map]
    cases act s.outside with
    | ok y o => rfl
    | error e o => rfl
  rw [f.into_run, f'.into_run, hK.read_map, hK.read_map, hf,
    show (s.map h).outside = s.outside from rfl, hmap]
  cases f (s.store.read out) (s.store.read x) s.outside with
  | ok y o => simp only [seenThrough, Session.write, Session.map, Store.write_map]
  | error e o => rfl

end Backend.Symmetry

end NewtonKrylov
