import NewtonKrylov.Proofs.Frame

/-!
# Work vectors

A Krylov solver asks for work vectors by name. They come fresh from the backend, or from the buffers
that a run keeps by name, with whatever they held before. `Supply` states what both ways have in
common and all a solver may rely on: a vector that is handed out is no vector of the caller, it
differs from those held under other names, and asking for one changes no contents. Nothing is
promised about what a vector holds when it is handed out.
-/

namespace NewtonKrylov

variable {V S R σ : Type}

/-! ## Kept vectors -/

/-- The kept vectors exist, are not the caller's own, and differ from one another. -/
structure Session.Apart (own : Set Ref) (s : Session V S R σ) : Prop where
  own_valid : ∀ r ∈ own, s.store.Valid r
  valid : ∀ e ∈ s.buffers.entries, s.store.Valid e.2
  not_mem : ∀ e ∈ s.buffers.entries, e.2 ∉ own
  injective : ∀ e ∈ s.buffers.entries, ∀ e' ∈ s.buffers.entries, e.2 = e'.2 → e.1 = e'.1

theorem Session.Apart.of_buffers_eq {own : Set Ref} {s s' : Session V S R σ} (h : s.Apart own)
    (hbuffers : s'.buffers = s.buffers) (hsize : s.store.size ≤ s'.store.size) : s'.Apart own where
  own_valid := fun r hr => Nat.lt_of_lt_of_le (h.own_valid r hr) hsize
  valid := fun e he => Nat.lt_of_lt_of_le (h.valid e (hbuffers ▸ he)) hsize
  not_mem := fun e he => h.not_mem e (hbuffers ▸ he)
  injective := fun e he e' he' => h.injective e (hbuffers ▸ he) e' (hbuffers ▸ he')

theorem Session.Apart.of_no_buffers {own : Set Ref} {s : Session V S R σ}
    (hown : ∀ r ∈ own, s.store.Valid r) (hbuffers : s.buffers = {}) : s.Apart own where
  own_valid := hown
  valid := by simp [hbuffers]
  not_mem := by simp [hbuffers]
  injective := by simp [hbuffers]

theorem Buffers.mem_of_find? {b : Buffers} {name : String} {r : Ref} (h : b.find? name = some r) :
    (name, r) ∈ b.entries := by
  obtain ⟨before, after, hentries, -⟩ := List.lookup_eq_some_iff.mp h
  rw [hentries]
  simp

theorem Buffers.not_mem_names {b : Buffers} {name : String} (h : b.find? name = none) :
    name ∉ b.names := by
  intro hmem
  obtain ⟨e, he, rfl⟩ := List.mem_map.mp hmem
  have hne := List.lookup_eq_none_iff.mp h e he
  simp at hne

theorem Buffers.names_insert (b : Buffers) (name : String) (r : Ref) :
    (b.insert name r).names = b.names ++ [name] := by
  simp [names, insert]

theorem Buffers.names_insert_nodup {b : Buffers} {name : String} (h : b.names.Nodup)
    (hname : name ∉ b.names) (r : Ref) : (b.insert name r).names.Nodup := by
  rw [names_insert, List.nodup_append]
  refine ⟨h, by simp, ?_⟩
  rintro other hother _ hmem rfl
  exact hname (List.mem_singleton.mp hmem ▸ hother)

theorem Buffers.find?_insert_self {b : Buffers} {name : String} (h : b.find? name = none) (r : Ref) :
    (b.insert name r).find? name = some r := by
  simp only [find?] at h
  simp [find?, insert, List.lookup_append, h]

theorem Buffers.find?_insert_of_some {b : Buffers} {name name' : String} {r r' : Ref}
    (h : b.find? name' = some r') : (b.insert name r).find? name' = some r' := by
  simp only [find?] at h
  simp [find?, insert, List.lookup_append, h]

namespace Run

variable {K : Backend S V} {s : Session V S R σ} {name : String}

theorem keptAs_run_of_some {new : String → Run V S R σ Ref} {r : Ref}
    (h : s.buffers.find? name = some r) : Run.keptAs new name s = .ok r s := by
  have hget : (get : Run V S R σ (Session V S R σ)) s = .ok s s := rfl
  unfold Run.keptAs
  rw [bind_run_ok hget, h]
  rfl

theorem keptAs_run_of_made {new : String → Run V S R σ Ref} {r : Ref} {s' : Session V S R σ}
    (h : s.buffers.find? name = none) (hnew : new name s = .ok r s') :
    Run.keptAs new name s = .ok r { s' with buffers := s'.buffers.insert name r } := by
  have hget : (get : Run V S R σ (Session V S R σ)) s = .ok s s := rfl
  unfold Run.keptAs
  rw [bind_run_ok hget, h]
  exact bind_run_ok hnew _

theorem keptAs_run_of_error {new : String → Run V S R σ Ref} {e : Fault R} {s' : Session V S R σ}
    (h : s.buffers.find? name = none) (hnew : new name s = .error e s') :
    Run.keptAs new name s = .error e s' := by
  have hget : (get : Run V S R σ (Session V S R σ)) s = .ok s s := rfl
  unfold Run.keptAs
  rw [bind_run_ok hget, h]
  exact bind_run_error hnew _

theorem keptAs_run_of_none (h : s.buffers.find? name = none) :
    Run.keptAs K.new name s = .ok s.store.next
      { s.push name (K.zero ()) with buffers := s.buffers.insert name s.store.next } :=
  keptAs_run_of_made h (K.new_run name)

end Run

theorem Session.Apart.insert {own : Set Ref} {s : Session V S R σ} {r : Ref} (h : s.Apart own)
    (name : String) (hvalid : s.store.Valid r) (hown : r ∉ own)
    (hne : ∀ e ∈ s.buffers.entries, e.2 ≠ r) :
    Session.Apart own { s with buffers := s.buffers.insert name r } := by
  have hentries : ∀ e ∈ (s.buffers.insert name r).entries, e ∈ s.buffers.entries ∨ e = (name, r) := by
    intro e he
    simpa [Buffers.insert] using he
  refine ⟨h.own_valid, ?_, ?_, ?_⟩
  · intro e he
    rcases hentries e he with he | rfl
    · exact h.valid e he
    · exact hvalid
  · intro e he
    rcases hentries e he with he | rfl
    · exact h.not_mem e he
    · exact hown
  · intro e he e' he' heq
    rcases hentries e he with he | rfl
    · rcases hentries e' he' with he' | rfl
      · exact h.injective e he e' he' heq
      · exact absurd heq (hne e he)
    · rcases hentries e' he' with he' | rfl
      · exact absurd heq.symm (hne e' he')
      · rfl

/-- A first request makes a vector that is kept apart from the caller's and from the others. -/
theorem Session.Apart.keep {own : Set Ref} {s : Session V S R σ} (h : s.Apart own) (name : String)
    (v : V) : Session.Apart own
      { s.push name v with buffers := s.buffers.insert name s.store.next } := by
  have hpush : (s.push name v).Apart own :=
    h.of_buffers_eq rfl (Nat.le_trans (Nat.le_succ _) (Nat.le_of_eq Store.size_push.symm))
  exact hpush.insert name (Store.valid_next name) (fun hmem => Store.not_valid_next (h.own_valid _ hmem))
    fun e he => (h.valid e he).ne_next

/-! ## The two supplies -/

variable [Inhabited V]

/-- Vectors handed out by `new`, none of them among the caller's own. -/
structure Supply (new : String → Run V S R σ Ref) (own : Set Ref) where
  /-- Vectors can be asked for. -/
  Ready : Session V S R σ → Prop
  /-- A vector is held under a name. -/
  Has : Session V S R σ → String → Ref → Prop
  valid : ∀ {s name r}, Has s name r → s.store.Valid r
  not_mem : ∀ {s name r}, Has s name r → r ∉ own
  ready_of : ∀ {s s'}, Ready s → s'.buffers = s.buffers → s.store.size ≤ s'.store.size → Ready s'
  has_of : ∀ {s s' name r}, Has s name r → s'.buffers = s.buffers →
    s.store.size ≤ s'.store.size → Has s' name r
  lends : ∀ {s}, Ready s → ∀ name, ∃ r s', new name s = .ok r s' ∧ Ready s' ∧ Has s' name r ∧
    s'.outside = s.outside ∧ (∀ G : Set Ref, (∀ r ∈ G, s.store.Valid r) → s.Keeps G s') ∧
    ∀ name' r', Has s name' r' → Has s' name' r' ∧ (name' ≠ name → r' ≠ r)

/-- The backend's own vectors are new on every request. -/
def Supply.fresh (K : Backend S V) (own : Set Ref) :
    Supply (V := V) (S := S) (R := R) (σ := σ) K.new own where
  Ready s := ∀ r ∈ own, s.store.Valid r
  Has s _ r := s.store.Valid r ∧ r ∉ own
  valid h := h.1
  not_mem h := h.2
  ready_of h _ hsize r hr := Nat.lt_of_lt_of_le (h r hr) hsize
  has_of h _ hsize := ⟨Nat.lt_of_lt_of_le h.1 hsize, h.2⟩
  lends := by
    intro s hready name
    refine ⟨s.store.next, s.push name (K.zero ()), K.new_run name, fun r hr => (hready r hr).push name,
      ⟨Store.valid_next name, fun h => Store.not_valid_next (hready _ h)⟩, rfl,
      fun G hG => Session.Keeps.push hG name, ?_⟩
    intro name' r' h
    exact ⟨⟨h.1.push name, h.2⟩, fun _ => h.1.ne_next⟩

/-- Kept vectors are made on the first request and the same ones afterwards. -/
def Supply.kept (K : Backend S V) (own : Set Ref) :
    Supply (V := V) (S := S) (R := R) (σ := σ) (Run.keptAs K.new) own where
  Ready s := s.Apart own
  Has s name r := s.Apart own ∧ s.buffers.find? name = some r
  valid h := h.1.valid _ (Buffers.mem_of_find? h.2)
  not_mem h := h.1.not_mem _ (Buffers.mem_of_find? h.2)
  ready_of h hbuffers hsize := h.of_buffers_eq hbuffers hsize
  has_of h hbuffers hsize := ⟨h.1.of_buffers_eq hbuffers hsize, by rw [hbuffers]; exact h.2⟩
  lends := by
    intro s hready name
    cases hfind : s.buffers.find? name with
    | some r =>
      refine ⟨r, s, Run.keptAs_run_of_some hfind, hready, ⟨hready, hfind⟩, rfl,
        fun G _ => Session.Keeps.refl G s, ?_⟩
      intro name' r' h
      refine ⟨h, fun hne heq => hne ?_⟩
      exact hready.injective _ (Buffers.mem_of_find? h.2) _ (Buffers.mem_of_find? hfind) heq
    | none =>
      have hapart := hready.keep name (K.zero ())
      refine ⟨s.store.next, _, Run.keptAs_run_of_none hfind, hapart,
        ⟨hapart, Buffers.find?_insert_self hfind _⟩, rfl, fun G hG => ?_, ?_⟩
      · exact (Session.Keeps.push hG name).trans (Session.Keeps.of_store_eq rfl rfl rfl)
      · intro name' r' h
        exact ⟨⟨hapart, Buffers.find?_insert_of_some h.2⟩,
          fun _ => (hready.valid _ (Buffers.mem_of_find? h.2)).ne_next⟩

end NewtonKrylov
