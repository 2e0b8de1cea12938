import NewtonKrylov.Jacobian
import NewtonKrylov.Proofs.Krylov.WorkVectors

/-!
# The sessions that a run passes through

A run by itself tells only where it ends. A `Run.Passage` of it tells also which sessions it passes
through: one after each of its actions, in order, up to the one that it leaves when it returns or fails.
Passages are composed as runs are, so the passage of a program is written along the program.

A `Conduct` is a rule for such sessions: what each of them fulfils, how later ones relate to earlier
ones, which vectors may be read and written and with what contents, and which work vectors may be asked
for. A run obeys it if every session it passes through does (`Run.Passage.Obeys`). One lemma for each
program says that it obeys every conduct that allows what it does by itself.
-/

namespace NewtonKrylov

variable {V S R σ α β : Type}

/-! ## Passages -/

/-- The sessions that a run passes through, from each session that it may start in. -/
structure Run.Passage (x : Run V S R σ α) where
  sessions : Session V S R σ → List (Session V S R σ)
  ends : ∀ s, Ends (fun _ s' => (sessions s).getLast? = some s')
    (fun s' => (sessions s).getLast? = some s') x s

namespace Run.Passage

variable {x y : Run V S R σ α} {f : α → Run V S R σ β}

/-- The passage of a single action. -/
def action (x : Run V S R σ α) : Passage x where
  sessions s := match x s with
    | .ok _ s' => [s']
    | .error _ s' => [s']
  ends s := by
    unfold Ends
    cases x s with
    | ok a s' => rfl
    | error e s' => rfl

/-- The passage of one run and then another one. It is sealed, so that passages are taken apart as their
runs are and not by their sessions. -/
@[irreducible] def bind (t : Passage x) (next : ∀ a, Passage (f a)) : Passage (x >>= f) where
  sessions s := t.sessions s ++ match x s with
    | .ok a s' => (next a).sessions s'
    | .error _ _ => []
  ends s := by
    have hx := t.ends s
    cases hrun : x s with
    | ok a s' =>
      refine Ends.skip hrun (((next a).ends s').mono ?_ ?_)
      · intro b s'' h
        rw [List.getLast?_append, h]
        rfl
      · intro s'' h
        rw [List.getLast?_append, h]
        rfl
    | error e s' =>
      refine Ends.of_error (bind_run_error hrun f) ?_
      rw [List.append_nil]
      exact hx.run_error hrun

def ite {c : Prop} [Decidable c] (t : Passage x) (t' : Passage y) :
    Passage (if c then x else y) where
  sessions s := if c then t.sessions s else t'.sessions s
  ends s := by
    split
    · exact t.ends s
    · exact t'.ends s

/-- The passage of a run is one of any run that is the same. -/
def of_eq (h : x = y) (t : Passage x) : Passage y where
  sessions := t.sessions
  ends := h ▸ t.ends

theorem sessions_action_ok {s s' : Session V S R σ} {a : α} (h : x s = .ok a s') :
    (action x).sessions s = [s'] := by
  simp only [action, h]

theorem sessions_action_error {s s' : Session V S R σ} {e : Fault R} (h : x s = .error e s') :
    (action x).sessions s = [s'] := by
  simp only [action, h]

theorem sessions_bind_ok {t : Passage x} {next : ∀ a, Passage (f a)} {s s' : Session V S R σ} {a : α}
    (h : x s = .ok a s') :
    (t.bind next).sessions s = t.sessions s ++ (next a).sessions s' := by
  simp only [bind, h]

theorem sessions_bind_error {t : Passage x} {next : ∀ a, Passage (f a)} {s s' : Session V S R σ}
    {e : Fault R} (h : x s = .error e s') : (t.bind next).sessions s = t.sessions s := by
  simp only [bind, h, List.append_nil]

end Run.Passage

/-! ## Conduct -/

variable [Inhabited V]

/-- A rule for the sessions that a run passes through. -/
structure Conduct (V S R σ : Type) [Inhabited V] where
  /-- What each session fulfils. -/
  Holds : Session V S R σ → Prop
  /-- What an earlier session has to do with a later one. -/
  Later : Session V S R σ → Session V S R σ → Prop := fun _ _ => True
  readable : Set Ref := Set.univ
  writable : Set Ref := Set.univ
  /-- What may be written. -/
  contents : Set V := Set.univ
  /-- The name may be asked for. -/
  MayAsk : Session V S R σ → String → Prop := fun _ _ => True
  /-- The name has been asked for. -/
  Asked : Session V S R σ → String → Prop := fun _ _ => True
  refl : ∀ s, Later s s := by intros; trivial
  trans : ∀ {s s' s''}, Later s s' → Later s' s'' → Later s s'' := by intros; trivial
  asked_later : ∀ {s s' name}, Asked s name → Later s s' → Asked s' name := by intros; trivial
  writable_subset : writable ⊆ readable := by intros r _; trivial
  read_mem : ∀ {s r}, Holds s → r ∈ readable → s.store.read r ∈ contents := by intros; trivial
  write : ∀ {s r v}, Holds s → r ∈ writable → v ∈ contents →
    Holds (s.write r v) ∧ Later s (s.write r v)
  /-- Neither the vectors nor the kept ones have changed. -/
  other : ∀ {s s'}, Holds s → s'.store = s.store → s'.buffers = s.buffers → Holds s' ∧ Later s s'

namespace Conduct

/-- Everything may be read, any contents may be written, and any name may be asked for. -/
structure Free (C : Conduct V S R σ) : Prop where
  readable_eq : C.readable = Set.univ
  contents_eq : C.contents = Set.univ
  may_ask : ∀ s name, C.MayAsk s name

/-- What a backend makes of contents that may be written may be written. -/
structure Closed (C : Conduct V S R σ) (K : Backend S V) : Prop where
  addScaled : ∀ {u v} c, u ∈ C.contents → v ∈ C.contents → K.addScaled u v c ∈ C.contents
  addScaledWide : ∀ {u v} c, u ∈ C.contents → v ∈ C.contents → K.addScaledWide u v c ∈ C.contents
  scale : ∀ {v} c, v ∈ C.contents → K.scale v c ∈ C.contents

/-- What a residual function makes of contents that may be written may be written. -/
def Respects (C : Conduct V S R σ) (f : Residual V R σ) : Prop :=
  ∀ old v o, old ∈ C.contents → v ∈ C.contents →
    Ends (fun y _ => y ∈ C.contents) (fun _ => True) (f old v) o

variable {C : Conduct V S R σ}

theorem mem_of_univ (h : C.contents = Set.univ) (v : V) : v ∈ C.contents := by
  rw [h]
  trivial

theorem closed_of_univ (h : C.contents = Set.univ) (K : Backend S V) : C.Closed K :=
  ⟨fun _ _ _ => mem_of_univ h _, fun _ _ _ => mem_of_univ h _, fun _ _ => mem_of_univ h _⟩

theorem respects_of_univ (h : C.contents = Set.univ) (f : Residual V R σ) : C.Respects f := by
  intro old v o _ _
  unfold Ends
  cases f old v o with
  | ok y o' => exact mem_of_univ h y
  | error e o' => trivial

theorem Free.can_read (h : C.Free) (r : Ref) : r ∈ C.readable := by
  rw [h.readable_eq]
  trivial

end Conduct

/-- Every session that a run from `s` passes through keeps to the conduct, and where the run returns it
ends with `Q`. -/
structure Run.Passage.Obeys {x : Run V S R σ α} (t : x.Passage) (C : Conduct V S R σ)
    (Q : α → Session V S R σ → Prop) (s : Session V S R σ) : Prop where
  holds : ∀ s' ∈ t.sessions s, C.Holds s' ∧ C.Later s s'
  ordered : (t.sessions s).Pairwise C.Later
  ends : Ends Q (fun _ => True) x s

namespace Run.Passage.Obeys

variable {C : Conduct V S R σ} {x y : Run V S R σ α} {f : α → Run V S R σ β} {s : Session V S R σ}
variable {t : x.Passage} {Q : α → Session V S R σ → Prop} {Q₁ : β → Session V S R σ → Prop}

/-- What a run that obeys leaves keeps to the conduct. -/
theorem leaves (h : t.Obeys C Q s) :
    Ends (fun a s' => Q a s' ∧ C.Holds s' ∧ C.Later s s') (fun s' => C.Holds s' ∧ C.Later s s') x s := by
  have hlast := t.ends s
  cases hrun : x s with
  | ok a s' =>
    exact Ends.of_ok hrun
      ⟨h.ends.run_ok hrun, h.holds s' (List.mem_of_getLast? (hlast.run_ok hrun))⟩
  | error e s' =>
    exact Ends.of_error hrun (h.holds s' (List.mem_of_getLast? (hlast.run_error hrun)))

theorem weaken {C' : Conduct V S R σ} (h : t.Obeys C Q s) (hholds : ∀ s', C.Holds s' → C'.Holds s')
    (hlater : ∀ s' s'', C.Later s' s'' → C'.Later s' s'') : t.Obeys C' Q s where
  holds s' hs' := ⟨hholds s' (h.holds s' hs').1, hlater s s' (h.holds s' hs').2⟩
  ordered := h.ordered.imp fun hlater' => hlater _ _ hlater'
  ends := h.ends

theorem action (h : Ends (fun a s' => Q a s' ∧ C.Holds s' ∧ C.Later s s')
    (fun s' => C.Holds s' ∧ C.Later s s') x s) : (Passage.action x).Obeys C Q s := by
  cases hrun : x s with
  | ok a s' =>
    obtain ⟨hQ, hs'⟩ := h.run_ok hrun
    refine ⟨?_, ?_, Ends.of_ok hrun hQ⟩
    · rw [sessions_action_ok hrun]
      simpa using hs'
    · rw [sessions_action_ok hrun]
      exact List.pairwise_singleton _ _
  | error e s' =>
    refine ⟨?_, ?_, Ends.of_error hrun trivial⟩
    · rw [sessions_action_error hrun]
      simpa using h.run_error hrun
    · rw [sessions_action_error hrun]
      exact List.pairwise_singleton _ _

theorem later_last (h : t.Obeys C Q s) {s' : Session V S R σ}
    (hlast : (t.sessions s).getLast? = some s') : ∀ s₁ ∈ t.sessions s, C.Later s₁ s' := by
  obtain ⟨before, hsessions⟩ := List.getLast?_eq_some_iff.mp hlast
  have hordered := h.ordered
  rw [hsessions, List.pairwise_append] at hordered
  intro s₁ hs₁
  rw [hsessions, List.mem_append, List.mem_singleton] at hs₁
  rcases hs₁ with hs₁ | rfl
  · exact hordered.2.2 s₁ hs₁ s' (List.mem_singleton_self s')
  · exact C.refl s₁

theorem bind {next : ∀ a, Passage (f a)} (h : t.Obeys C Q s)
    (hnext : ∀ a s', Q a s' → C.Holds s' → C.Later s s' → (next a).Obeys C Q₁ s') :
    (t.bind next).Obeys C Q₁ s := by
  cases hrun : x s with
  | ok a s' =>
    obtain ⟨hQ, hs', hlater⟩ := h.leaves.run_ok hrun
    have h' := hnext a s' hQ hs' hlater
    refine ⟨?_, ?_, Ends.skip hrun h'.ends⟩
    · rw [sessions_bind_ok hrun]
      intro s₁ hs₁
      rcases List.mem_append.mp hs₁ with hs₁ | hs₁
      · exact h.holds s₁ hs₁
      · exact ⟨(h'.holds s₁ hs₁).1, C.trans hlater (h'.holds s₁ hs₁).2⟩
    · rw [sessions_bind_ok hrun, List.pairwise_append]
      refine ⟨h.ordered, h'.ordered, fun s₁ hs₁ s₂ hs₂ => ?_⟩
      exact C.trans (h.later_last ((t.ends s).run_ok hrun) s₁ hs₁) (h'.holds s₂ hs₂).2
  | error e s' =>
    refine ⟨?_, ?_, Ends.of_error (bind_run_error hrun f) trivial⟩
    · rw [sessions_bind_error hrun]
      exact h.holds
    · rw [sessions_bind_error hrun]
      exact h.ordered

theorem ite {c : Prop} [Decidable c] {t' : y.Passage} (h : c → t.Obeys C Q s)
    (h' : ¬c → t'.Obeys C Q s) : (t.ite t' : Passage (if c then x else y)).Obeys C Q s := by
  by_cases hc : c
  · obtain ⟨hholds, hordered, hends⟩ := h hc
    refine ⟨?_, ?_, Ends.ite (fun _ => hends) fun hn => absurd hc hn⟩
    · simpa only [Passage.ite, if_pos hc] using hholds
    · simpa only [Passage.ite, if_pos hc] using hordered
  · obtain ⟨hholds, hordered, hends⟩ := h' hc
    refine ⟨?_, ?_, Ends.ite (fun hp => absurd hp hc) fun _ => hends⟩
    · simpa only [Passage.ite, if_neg hc] using hholds
    · simpa only [Passage.ite, if_neg hc] using hordered

theorem of_eq (h : t.Obeys C Q s) (hxy : x = y) : (t.of_eq hxy).Obeys C Q s :=
  ⟨h.holds, h.ordered, hxy ▸ h.ends⟩

end Run.Passage.Obeys

/-! ## Single actions -/

omit [Inhabited V] in
/-- The session with a new vector that is kept under the name. -/
def Session.keep (s : Session V S R σ) (name : String) (v : V) : Session V S R σ :=
  { s.push name v with buffers := s.buffers.insert name s.store.next }

namespace Conduct.Holds

open Run.Passage (action)

variable {C : Conduct V S R σ} {s : Session V S R σ} {Q : α → Session V S R σ → Prop}

theorem other {x : Run V S R σ α} (hs : C.Holds s)
    (hx : Ends (fun a s' => Q a s' ∧ s'.store = s.store ∧ s'.buffers = s.buffers)
      (fun s' => s'.store = s.store ∧ s'.buffers = s.buffers) x s) : (action x).Obeys C Q s :=
  .action (hx.mono (fun _ _ h => ⟨h.1, C.other hs h.2.1 h.2.2⟩) fun _ h => C.other hs h.1 h.2)

theorem still {x : Run V S R σ α} {a : α} (hs : C.Holds s) (hx : x s = .ok a s) (hQ : Q a s) :
    (action x).Obeys C Q s :=
  hs.other (Ends.of_ok hx ⟨hQ, rfl, rfl⟩)

theorem fails {x : Run V S R σ α} {e : Fault R} (hs : C.Holds s) (hx : x s = .error e s) :
    (action x).Obeys C Q s :=
  hs.other (Ends.of_error hx ⟨rfl, rfl⟩)

theorem overwrites {x : Run V S R σ Unit} {r : Ref} {v : V} (hs : C.Holds s)
    (hx : x s = .ok () (s.write r v)) (hr : r ∈ C.writable) (hv : v ∈ C.contents) :
    (action x).Obeys C (fun _ _ => True) s :=
  .action (Ends.of_ok hx ⟨trivial, C.write hs hr hv⟩)

theorem demand (hs : C.Holds s) (x : Except (Fault R) α) :
    (action (Run.demand x)).Obeys C (fun a _ => x = .ok a) s := by
  cases x with
  | ok a => exact hs.still rfl rfl
  | error e => exact hs.fails rfl

theorem report (hs : C.Holds s) (record : Record S R) :
    (action (Run.report record)).Obeys C (fun _ _ => True) s :=
  hs.other (Ends.of_ok rfl ⟨trivial, rfl, rfl⟩)

theorem consult (hs : C.Holds s) (act : Collab R σ α) :
    (action (Run.consult act)).Obeys C (fun _ _ => True) s := by
  refine hs.other ((Run.consult_follows act s).ends.mono ?_ ?_)
  · rintro _ _ ⟨_, o, -, rfl⟩
    exact ⟨trivial, rfl, rfl⟩
  · rintro _ ⟨o, rfl⟩
    exact ⟨rfl, rfl⟩

theorem reciprocal [Scalar S] (hs : C.Holds s) (x : S) :
    (action (Run.reciprocal x)).Obeys C (fun _ _ => True) s := by
  by_cases hx : Scalar.isZero x = true
  · exact hs.fails (e := .divisionByZero) (by rw [Run.reciprocal, if_pos hx]; rfl)
  · exact hs.still (by rw [Run.reciprocal, if_neg hx]; rfl) trivial

theorem into (hs : C.Holds s) {f : Residual V R σ} (hf : C.Respects f) {out x : Ref}
    (hout : out ∈ C.writable) (hx : x ∈ C.readable) :
    (action (f.into out x)).Obeys C (fun _ _ => True) s := by
  have hold := C.read_mem hs (C.writable_subset hout)
  have hcontents := hf _ _ s.outside hold (C.read_mem hs hx)
  have hconsult := Run.consult_follows (f (s.store.read out) (s.store.read x)) s
  refine .action (Ends.skip (Run.contents_run out) (Ends.skip (Run.contents_run x) ?_))
  rcases hconsult.cases with ⟨y, _, _, o, hrun, hact, rfl, rfl⟩ | ⟨e, _, o, hrun, -, rfl⟩
  · obtain ⟨hs', hlater⟩ : C.Holds { s with outside := o } ∧ C.Later s { s with outside := o } :=
      C.other hs rfl rfl
    obtain ⟨hs'', hlater'⟩ := C.write hs' hout (hcontents.run_ok hact)
    exact Ends.skip hrun (Ends.of_ok (Run.overwrite_run out y) ⟨trivial, hs'', C.trans hlater hlater'⟩)
  · exact Ends.of_error (bind_run_error hrun _) (C.other hs rfl rfl)

variable {K : Backend S V} {dest a b : Ref}

theorem dotAt (hs : C.Holds s) (K : Backend S V) (a b : Ref) :
    (action (K.dotAt a b)).Obeys C (fun _ _ => True) s := hs.still rfl trivial

theorem lengthAt [Scalar S] (hs : C.Holds s) (p : LinearProblem V S R σ) (a : Ref) :
    (action (p.lengthAt a)).Obeys C (fun _ _ => True) s := hs.still rfl trivial

theorem addScaledInto (hs : C.Holds s) (hK : C.Closed K) (hdest : dest ∈ C.writable)
    (ha : a ∈ C.readable) (hb : b ∈ C.readable) (c : S) :
    (action (K.addScaledInto dest a b c)).Obeys C (fun _ _ => True) s :=
  hs.overwrites rfl hdest (hK.addScaled c (C.read_mem hs ha) (C.read_mem hs hb))

theorem addScaledWideInto (hs : C.Holds s) (hK : C.Closed K) (hdest : dest ∈ C.writable)
    (ha : a ∈ C.readable) (hb : b ∈ C.readable) (c : S) :
    (action (K.addScaledWideInto dest a b c)).Obeys C (fun _ _ => True) s :=
  hs.overwrites rfl hdest (hK.addScaledWide c (C.read_mem hs ha) (C.read_mem hs hb))

theorem scaleInto (hs : C.Holds s) (hK : C.Closed K) (hdest : dest ∈ C.writable)
    (ha : a ∈ C.readable) (c : S) : (action (K.scaleInto dest a c)).Obeys C (fun _ _ => True) s :=
  hs.overwrites rfl hdest (hK.scale c (C.read_mem hs ha))

theorem keptAs (hs : C.Holds s) {name : String} {Q : Ref → Session V S R σ → Prop}
    (hfound : ∀ r, s.buffers.find? name = some r → Q r s)
    (hmade : s.buffers.find? name = none → Q s.store.next (s.keep name (K.zero ())) ∧
      C.Holds (s.keep name (K.zero ())) ∧ C.Later s (s.keep name (K.zero ()))) :
    (action (Run.keptAs K.new name)).Obeys C Q s := by
  cases hfind : s.buffers.find? name with
  | some r => exact hs.still (Run.keptAs_run_of_some hfind) (hfound r hfind)
  | none => exact .action (Ends.of_ok (Run.keptAs_run_of_none hfind) (hmade hfind))

end Conduct.Holds

end NewtonKrylov
