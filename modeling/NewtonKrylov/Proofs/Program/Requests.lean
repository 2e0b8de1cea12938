import Mathlib.Data.List.Nodup
import NewtonKrylov.Proofs.Program.Course

/-!
# Requests for buffers

A program may make its vectors through the buffers only. It requests them by name, and for a name that
is not kept yet the buffers request one of a supply, which may fail. `Program.requests_served`: after
every such program the buffers keep the names that were answered, in the order of their first answers,
each with the vector that all its requests were answered with; the supply has made these vectors and no
others; and it was called for every request of a name that had got no answer before.

The requests of a program are recorded along its run (`Program.served`). The calls of a supply are what
it takes down itself (`Run.noting`), beside the collaborators' state, and the program runs as it does
without the notes.
-/

namespace NewtonKrylov

variable {V S R σ : Type}

/-! ## Records of requests -/

/-- A request for a vector by name, and the vector that it was answered with, unless it failed. -/
structure Request where
  name : String
  answer : Option Ref
deriving DecidableEq, Repr

namespace Request

/-- The requests that were answered, with their vectors. -/
def answered (qs : List Request) : List (String × Ref) :=
  qs.filterMap fun q => q.answer.map fun r => (q.name, r)

/-- The names that were answered, in the order of their first answers. -/
def names (qs : List Request) : List String := ((answered qs).map Prod.fst).eraseDups

/-- The requests for names that have got no answer from an earlier request. The names in `got` were
answered before all of them. -/
def passedOn : (got : List String) → List Request → List Request
  | _, [] => []
  | got, ⟨name, answer⟩ :: qs =>
    if name ∈ got then passedOn got qs
    else ⟨name, answer⟩ :: passedOn (if answer.isSome then name :: got else got) qs

variable {qs : List Request} {name : String} {r : Ref}

@[simp] theorem answered_cons_some :
    answered (⟨name, some r⟩ :: qs) = (name, r) :: answered qs := rfl

@[simp] theorem answered_cons_none : answered (⟨name, none⟩ :: qs) = answered qs := rfl

theorem answered_append_some :
    answered (qs ++ [⟨name, some r⟩]) = answered qs ++ [(name, r)] := by
  simp [answered]

theorem answered_append_none : answered (qs ++ [⟨name, none⟩]) = answered qs := by
  simp [answered]

theorem mem_names : name ∈ names qs ↔ name ∈ (answered qs).map Prod.fst := List.mem_eraseDups

theorem names_append_of_mem (h : name ∈ names qs) (r : Ref) :
    names (qs ++ [⟨name, some r⟩]) = names qs := by
  rw [mem_names] at h
  simp [names, answered_append_some, List.eraseDups_append, List.removeAll, h]

theorem names_append_of_not_mem (h : name ∉ names qs) (r : Ref) :
    names (qs ++ [⟨name, some r⟩]) = names qs ++ [name] := by
  rw [mem_names] at h
  simp [names, answered_append_some, List.eraseDups_append, List.removeAll, h, List.eraseDups_cons]

theorem passedOn_append (got : List String) (qs : List Request) (q : Request) :
    passedOn got (qs ++ [q]) = passedOn got qs ++
      if q.name ∈ got ∨ q.name ∈ (answered qs).map Prod.fst then [] else [q] := by
  induction qs generalizing got with
  | nil =>
    by_cases h : q.name ∈ got
    · simp [passedOn, h]
    · simp [passedOn, answered, h]
  | cons p qs ih =>
    obtain ⟨name, _ | r⟩ := p
    · rw [answered_cons_none]
      by_cases hgot : name ∈ got
      · simp only [List.cons_append, passedOn, if_pos hgot, ih]
      · simp only [List.cons_append, passedOn, if_neg hgot, ih, Option.isSome_none, Bool.false_eq_true,
          if_false]
    · rw [answered_cons_some, List.map_cons]
      by_cases hgot : name ∈ got
      · have hsame : q.name ∈ got ∨ q.name = name ∨ q.name ∈ (answered qs).map Prod.fst ↔
            q.name ∈ got ∨ q.name ∈ (answered qs).map Prod.fst := by
          grind
        simp only [List.cons_append, passedOn, if_pos hgot, ih, List.mem_cons, hsame]
      · have hsame : q.name ∈ got ∨ q.name = name ∨ q.name ∈ (answered qs).map Prod.fst ↔
            (q.name = name ∨ q.name ∈ got) ∨ q.name ∈ (answered qs).map Prod.fst := by
          tauto
        simp only [List.cons_append, passedOn, if_neg hgot, ih, Option.isSome_some, if_true,
          List.mem_cons, hsame]

theorem passedOn_append_of_mem (h : name ∈ names qs) (answer : Option Ref) :
    passedOn [] (qs ++ [⟨name, answer⟩]) = passedOn [] qs := by
  rw [passedOn_append, if_pos (.inr (mem_names.mp h)), List.append_nil]

theorem passedOn_append_of_not_mem (h : name ∉ names qs) (answer : Option Ref) :
    passedOn [] (qs ++ [⟨name, answer⟩]) = passedOn [] qs ++ [⟨name, answer⟩] := by
  rw [mem_names] at h
  rw [passedOn_append, if_neg (not_or.mpr ⟨List.not_mem_nil, h⟩)]

end Request

/-! ## Supplies -/

/-- No vector has gone, and the buffers are as they were. -/
structure Session.Grown (s s' : Session V S R σ) : Prop where
  size_le : s.store.size ≤ s'.store.size
  buffers_eq : s'.buffers = s.buffers

theorem Session.Grown.refl (s : Session V S R σ) : s.Grown s := ⟨Nat.le_refl _, rfl⟩

theorem Session.Grown.write (s : Session V S R σ) (r : Ref) (v : V) : s.Grown (s.write r v) :=
  ⟨Nat.le_of_eq Store.size_write.symm, rfl⟩

/-- The session with requests taken down beside the collaborators' state. -/
def Session.noted (s : Session V S R σ) (calls : List Request) : Session V S R (σ × List Request) :=
  { s with outside := (s.outside, calls) }

namespace Run

/-- Every vector that is returned is one that there was not before. The buffers are not touched. -/
def MakesNew (new : String → Run V S R σ Ref) : Prop :=
  ∀ name s, Ends (fun r s' => ¬s.store.Valid r ∧ s'.store.Valid r ∧ s.Grown s') s.Grown (new name) s

/-- A supply that takes down every call of it and what came of it. -/
def noting (new : String → Run V S R σ Ref) (name : String) : Run V S R (σ × List Request) Ref :=
  fun ⟨store, buffers, log, history, o, calls⟩ =>
    match new name ⟨store, buffers, log, history, o⟩ with
    | .ok r s => .ok r (s.noted (calls ++ [⟨name, some r⟩]))
    | .error e s => .error e (s.noted (calls ++ [⟨name, none⟩]))

variable {new : String → Run V S R σ Ref} {name : String} {s s' : Session V S R σ}

theorem noting_run_ok {r : Ref} (h : new name s = .ok r s') (calls : List Request) :
    noting new name (s.noted calls) = .ok r (s'.noted (calls ++ [⟨name, some r⟩])) := by
  simp only [noting, Session.noted, h]

theorem noting_run_error {e : Fault R} (h : new name s = .error e s') (calls : List Request) :
    noting new name (s.noted calls) = .error e (s'.noted (calls ++ [⟨name, none⟩])) := by
  simp only [noting, Session.noted, h]

end Run

/-! ## What buffers keep -/

theorem Buffers.contains_eq (b : Buffers) (name : String) :
    b.contains name = decide (name ∈ b.names) := by
  cases hfind : b.find? name with
  | some r =>
    have hmem : name ∈ b.names := List.mem_map_of_mem (Buffers.mem_of_find? hfind)
    simp [contains, hfind, hmem]
  | none => simp [contains, hfind, Buffers.not_mem_names hfind]

namespace Session

/-- The buffers keep what requests have been answered with, and that is what calls have made. -/
structure Serves (served calls : List Request) (s : Session V S R σ) : Prop where
  apart : s.Apart ∅
  nodup : s.buffers.names.Nodup
  names_eq : s.buffers.names = Request.names served
  entries_eq : s.buffers.entries = Request.answered calls
  calls_eq : calls = Request.passedOn [] served
  answered_mem : ∀ e ∈ Request.answered served, e ∈ s.buffers.entries

namespace Serves

variable {served calls : List Request} {s s' : Session V S R σ} {name : String} {r : Ref}

theorem of_no_buffers (h : s.buffers = {}) : s.Serves [] [] where
  apart := .of_no_buffers nofun h
  nodup := by simp [h, Buffers.names]
  names_eq := by simp [h, Buffers.names, Request.names, Request.answered]
  entries_eq := by simp [h, Request.answered]
  calls_eq := rfl
  answered_mem := nofun

theorem of_grown (h : s.Serves served calls) (hgrown : s.Grown s') : s'.Serves served calls where
  apart := h.apart.of_buffers_eq hgrown.buffers_eq hgrown.size_le
  nodup := hgrown.buffers_eq ▸ h.nodup
  names_eq := hgrown.buffers_eq ▸ h.names_eq
  entries_eq := hgrown.buffers_eq ▸ h.entries_eq
  calls_eq := h.calls_eq
  answered_mem := hgrown.buffers_eq ▸ h.answered_mem

theorem mem_names (h : s.Serves served calls) (hfind : s.buffers.find? name = some r) :
    name ∈ Request.names served :=
  h.names_eq ▸ List.mem_map_of_mem (Buffers.mem_of_find? hfind)

theorem not_mem_names (h : s.Serves served calls) (hfind : s.buffers.find? name = none) :
    name ∉ Request.names served :=
  h.names_eq ▸ Buffers.not_mem_names hfind

theorem again (h : s.Serves served calls) (hfind : s.buffers.find? name = some r) :
    s.Serves (served ++ [⟨name, some r⟩]) calls where
  apart := h.apart
  nodup := h.nodup
  names_eq := by rw [Request.names_append_of_mem (h.mem_names hfind), h.names_eq]
  entries_eq := h.entries_eq
  calls_eq := by rw [Request.passedOn_append_of_mem (h.mem_names hfind), ← h.calls_eq]
  answered_mem := by
    rw [Request.answered_append_some]
    intro e he
    rcases List.mem_append.mp he with he | he
    · exact h.answered_mem e he
    · obtain rfl := List.mem_singleton.mp he
      exact Buffers.mem_of_find? hfind

theorem failed (h : s.Serves served calls) (hfind : s.buffers.find? name = none)
    (hgrown : s.Grown s') : s'.Serves (served ++ [⟨name, none⟩]) (calls ++ [⟨name, none⟩]) :=
  { h.of_grown hgrown with
    names_eq := by
      rw [Request.names, Request.answered_append_none]
      exact (h.of_grown hgrown).names_eq
    entries_eq := by
      rw [Request.answered_append_none]
      exact (h.of_grown hgrown).entries_eq
    calls_eq := by
      rw [Request.passedOn_append_of_not_mem (h.not_mem_names hfind), ← h.calls_eq]
    answered_mem := by
      rw [Request.answered_append_none]
      exact (h.of_grown hgrown).answered_mem }

theorem first (h : s.Serves served calls) (hfind : s.buffers.find? name = none)
    (hfresh : ¬s.store.Valid r) (hvalid : s'.store.Valid r) (hgrown : s.Grown s') :
    Session.Serves (served ++ [⟨name, some r⟩]) (calls ++ [⟨name, some r⟩])
      { s' with buffers := s'.buffers.insert name r } := by
  have hgrow := h.of_grown hgrown
  -- what was kept before are vectors that there were before
  have hne : ∀ e ∈ s'.buffers.entries, e.2 ≠ r := by
    rw [hgrown.buffers_eq]
    rintro e he rfl
    exact hfresh (h.apart.valid e he)
  have hnames : name ∉ s'.buffers.names := by
    rw [hgrown.buffers_eq]
    exact Buffers.not_mem_names hfind
  have hmem : name ∉ Request.names served := hgrow.names_eq ▸ hnames
  exact
    { apart := hgrow.apart.insert name hvalid (fun h => h) hne
      nodup := Buffers.names_insert_nodup hgrow.nodup hnames r
      names_eq := by
        rw [Buffers.names_insert, Request.names_append_of_not_mem hmem, hgrow.names_eq]
      entries_eq := by
        rw [Request.answered_append_some, ← hgrow.entries_eq]
        rfl
      calls_eq := by
        rw [Request.passedOn_append_of_not_mem hmem, ← h.calls_eq]
      answered_mem := by
        rw [Request.answered_append_some]
        intro e he
        rcases List.mem_append.mp he with he | he
        · exact List.mem_append_left _ (hgrow.answered_mem e he)
        · exact List.mem_append_right _ he }

theorem same_iff (h : s.Serves served calls) {e e' : String × Ref}
    (he : e ∈ Request.answered served) (he' : e' ∈ Request.answered served) :
    e.2 = e'.2 ↔ e.1 = e'.1 := by
  have hmem := h.answered_mem e he
  have hmem' := h.answered_mem e' he'
  constructor
  · exact h.apart.injective e hmem e' hmem'
  · intro heq
    exact congrArg Prod.snd (List.inj_on_of_nodup_map h.nodup hmem hmem' heq)

end Serves

/-- The first session is the second one with notes of the calls that the requests have led to. -/
def Notes (served : List Request) (a : Session V S R (σ × List Request)) (b : Session V S R σ) : Prop :=
  ∃ calls, a = b.noted calls ∧ b.Serves served calls

end Session

theorem Run.keptAs_serves {new : String → Run V S R σ Ref} (hnew : Run.MakesNew new)
    {served calls : List Request} {s : Session V S R σ} (h : s.Serves served calls) (name : String) :
    Follows (fun r a r' b => r = r' ∧ Session.Notes (served ++ [⟨name, some r'⟩]) a b)
      (fun a b => s.Grown b ∧ Session.Notes (served ++ [⟨name, none⟩]) a b)
      (Run.keptAs (Run.noting new) name) (s.noted calls) (Run.keptAs new name) s := by
  cases hfind : s.buffers.find? name with
  | some r =>
    exact Follows.of_ok (Run.keptAs_run_of_some hfind) (Run.keptAs_run_of_some hfind)
      ⟨rfl, calls, rfl, h.again hfind⟩
  | none =>
    have hends := hnew name s
    cases hrun : new name s with
    | ok r s' =>
      obtain ⟨hfresh, hvalid, hgrown⟩ := hends.run_ok hrun
      exact Follows.of_ok (Run.keptAs_run_of_made hfind (Run.noting_run_ok hrun calls))
        (Run.keptAs_run_of_made hfind hrun) ⟨rfl, _, rfl, h.first hfind hfresh hvalid hgrown⟩
    | error e s' =>
      have hgrown := hends.run_error hrun
      exact Follows.of_error (Run.keptAs_run_of_error hfind (Run.noting_run_error hrun calls))
        (Run.keptAs_run_of_error hfind hrun) ⟨hgrown, _, rfl, h.failed hfind hgrown⟩

/-! ## Programs that make their vectors through the buffers -/

namespace Step

/-- Every vector that the instruction makes is requested of the buffers. An operator might make others. -/
def Buffered : Step S → Prop
  | ⟨.new .., view⟩ => view = true
  | ⟨.fromValues .., _⟩ | ⟨.apply .., _⟩ => False
  | _ => True

/-- The register and the name of a request to the buffers. -/
def asks : Step S → Option (String × String)
  | ⟨.keep dest name, _⟩ | ⟨.new dest name, true⟩ => some (dest, name)
  | _ => none

/-- The request that an instruction has made. The registers that it has left tell the answer; it has left
none if it failed. -/
def requests (step : Step S) (left : Option Registers) : List Request :=
  match step.asks with
  | some (dest, name) => [⟨name, left.bind fun regs => regs.lookup dest⟩]
  | none => []

end Step

namespace Program

variable [Inhabited V] [Scalar S] {K : Space S V} {new : String → Run V S R σ Ref}

/-- The bench of a space with vectors of a supply. -/
def supplied (K : Space S V) (new : String → Run V S R σ Ref) : Bench V S R σ :=
  { bench K with new := new, keep := Run.keptAs new }

/-- The requests that a program makes of the buffers, and their answers. -/
def served (B : Bench V S R σ) : List (Step S) → Registers → Session V S R σ → List Request
  | [], _, _ => []
  | step :: steps, regs, s =>
    match exec B step regs s with
    | .ok (regs', _) s' => step.requests (some regs') ++ served B steps regs' s'
    | .error _ s' => step.requests none ++ served B steps regs s'

variable {step : Step S} {regs : Registers} {s : Session V S R σ} {qs calls : List Request}

omit [Scalar S] in
theorem writeTo_noted (K : Space S V) (r : Ref) (values : Nested S) (calls : List Request) :
    Follows (fun _ a _ b => a = b.noted calls ∧ s.Grown b) (fun a b => a = b.noted calls ∧ s.Grown b)
      (writeTo K r values) (s.noted calls) (writeTo K r values) s := by
  have hread : (s.noted calls).store.read r = s.store.read r := rfl
  unfold writeTo
  refine Follows.skip_left (Run.contents_run r) (Follows.skip_right (Run.contents_run r) ?_)
  rw [hread]
  rcases written (R := R) K (s.store.read r) values with ⟨v, - | e⟩
  · exact Follows.of_ok rfl rfl ⟨rfl, .write s r v⟩
  · exact Follows.of_error rfl rfl ⟨rfl, .write s r v⟩

theorem exec_idle (hbuffered : step.Buffered) (hasks : step.asks = none) (calls : List Request) :
    Follows (fun u a v b => u = v ∧ a = b.noted calls ∧ s.Grown b)
      (fun a b => a = b.noted calls ∧ s.Grown b)
      (exec (supplied K (Run.noting new)) step regs) (s.noted calls)
      (exec (supplied K new) step regs) s := by
  obtain ⟨i, view⟩ := step
  cases i with
  | new dest name =>
    cases view with
    | true => exact nomatch hasks
    | false => exact nomatch hbuffered
  | keep => exact nomatch hasks
  | fromValues | apply => exact hbuffered.elim
  | dot | norm | same | contents | size | kept | keptCount | keptNames =>
    exact Follows.of_ok rfl rfl ⟨rfl, rfl, .refl s⟩
  | copy dest a => exact Follows.of_ok rfl rfl ⟨rfl, rfl, .write s _ _⟩
  | addScaled dest a b f =>
    simp only [exec, supplied, bench]
    cases usable (R := R) K f with
    | ok => exact Follows.of_ok rfl rfl ⟨rfl, rfl, .write s _ _⟩
    | error e => exact Follows.of_error rfl rfl ⟨rfl, .refl s⟩
  | scale dest a f =>
    simp only [exec, supplied, bench]
    cases usable (R := R) K f with
    | ok => exact Follows.of_ok rfl rfl ⟨rfl, rfl, .write s _ _⟩
    | error e => exact Follows.of_error rfl rfl ⟨rfl, .refl s⟩
  | assign dest values =>
    refine (writeTo_noted K (regs.ref dest) values calls).bind ?_
    rintro _ _ _ b ⟨rfl, hgrown⟩
    exact Follows.of_ok rfl rfl ⟨rfl, rfl, hgrown⟩
  | set dest xs =>
    refine (writeTo_noted K (regs.ref dest) (.list (xs.map .number)) calls).bind ?_
    rintro _ _ _ b ⟨rfl, hgrown⟩
    exact Follows.of_ok rfl rfl ⟨rfl, rfl, hgrown⟩

theorem exec_request {dest name : String} (hasks : step.asks = some (dest, name)) :
    exec (supplied K new) step regs = (do
      let r ← Run.keptAs new name
      pure ((dest, r) :: regs, ← entriesAt (supplied K new) r)) := by
  obtain ⟨i, view⟩ := step
  cases i with
  | keep dest' name' =>
    obtain ⟨rfl, rfl⟩ := Prod.mk.inj (Option.some.inj hasks)
    rfl
  | new dest' name' =>
    cases view with
    | true =>
      obtain ⟨rfl, rfl⟩ := Prod.mk.inj (Option.some.inj hasks)
      rfl
    | false => exact nomatch hasks
  | _ => exact nomatch hasks

theorem exec_serves (hnew : Run.MakesNew new) (hbuffered : step.Buffered) (h : s.Serves qs calls)
    (regs : Registers) :
    Follows (fun u a v b => u = v ∧ Session.Notes (qs ++ step.requests (some v.1)) a b)
      (fun a b => s.Grown b ∧ Session.Notes (qs ++ step.requests none) a b)
      (exec (supplied K (Run.noting new)) step regs) (s.noted calls)
      (exec (supplied K new) step regs) s := by
  cases hasks : step.asks with
  | none =>
    have hrequests : ∀ left, qs ++ step.requests left = qs := by
      intro left
      simp only [Step.requests, hasks, List.append_nil]
    simp only [hrequests]
    refine (exec_idle hbuffered hasks calls).mono ?_ ?_
    · rintro u a v b ⟨rfl, rfl, hgrown⟩
      exact ⟨rfl, calls, rfl, h.of_grown hgrown⟩
    · rintro a b ⟨rfl, hgrown⟩
      exact ⟨hgrown, calls, rfl, h.of_grown hgrown⟩
  | some request =>
    obtain ⟨dest, name⟩ := request
    have hrequests : ∀ left, step.requests left = [⟨name, left.bind fun regs => regs.lookup dest⟩] := by
      intro left
      simp only [Step.requests, hasks]
    simp only [hrequests]
    -- all that can fail is the request, so it fails in both runs or in none
    rw [exec_request hasks, exec_request hasks]
    refine (Run.keptAs_serves hnew h name).bind ?_
    rintro r _ _ b ⟨rfl, calls', rfl, hserves⟩
    refine Follows.of_ok rfl rfl ⟨rfl, calls', rfl, ?_⟩
    simpa using hserves

/-- What a program makes of the buffers, by induction on the program: the requests of the instructions
before it say all that is kept where it begins. -/
theorem run_serves (hnew : Run.MakesNew new) (program : List (Step S)) :
    ∀ (regs : Registers) {qs : List Request} {a : Session V S R (σ × List Request)}
      {b : Session V S R σ}, (∀ step ∈ program, step.Buffered) → Session.Notes qs a b →
      Follows
        (fun u a' v b' => u = v ∧ Session.Notes (qs ++ served (supplied K new) program regs b) a' b')
        (Session.Notes (qs ++ served (supplied K new) program regs b))
        (run (supplied K (Run.noting new)) program regs) a (run (supplied K new) program regs) b := by
  induction program with
  | nil =>
    intro regs qs a b _ h
    simp only [served, List.append_nil]
    exact Follows.of_ok rfl rfl ⟨rfl, h⟩
  | cons step program ih =>
    rintro regs qs _ b hprogram ⟨calls, rfl, h⟩
    obtain ⟨hstep, hrest⟩ := List.forall_mem_cons.mp hprogram
    refine run_cons_follows ?_
    rcases (exec_serves (K := K) hnew hstep h regs).cases with
      ⟨u, a, v, b', hleft, hright, rfl, hnotes⟩ | ⟨e, a, b', hleft, hright, -, hnotes⟩
    · simp only [served, hright, ← List.append_assoc]
      exact Follows.of_ok hleft hright ⟨rfl, ih _ hrest hnotes⟩
    · simp only [served, hright, ← List.append_assoc]
      exact Follows.of_error hleft hright (ih regs hrest hnotes)

/-- What the buffers keep after requests with these answers, which have led to these calls of a supply. -/
structure Keeping (B : Bench V S R σ) (served calls : List Request) (s : Session V S R σ) : Prop where
  names_eq : s.buffers.names = Request.names served
  names_nodup : s.buffers.names.Nodup
  exec_kept : ∀ name regs view, exec B ⟨.kept name, view⟩ regs s =
    .ok (regs, .flag (decide (name ∈ Request.names served))) s
  exec_keptCount : ∀ regs view, exec B ⟨.keptCount, view⟩ regs s =
    .ok (regs, .count (Request.names served).length) s
  exec_keptNames : ∀ regs view, exec B ⟨.keptNames, view⟩ regs s =
    .ok (regs, .names (Request.names served)) s
  /-- The calls that returned have made what is kept. -/
  made_eq : Request.answered calls = s.buffers.entries
  made_count : (Request.answered calls).length = s.buffers.size
  made_names : (Request.answered calls).map Prod.fst = s.buffers.names
  same_iff : ∀ e ∈ Request.answered served, ∀ e' ∈ Request.answered served,
    e.2 = e'.2 ↔ e.1 = e'.1
  /-- An instruction that fails here leaves what is kept. -/
  failed : ∀ step regs e s', step.Buffered → exec B step regs s = .error e s' →
    s'.buffers = s.buffers
  /-- Requests that failed have not kept later ones from a call. -/
  tried : calls = Request.passedOn [] served

theorem Keeping.of_serves (hnew : Run.MakesNew new) (h : s.Serves qs calls) :
    Keeping (supplied K new) qs calls s where
  names_eq := h.names_eq
  names_nodup := h.nodup
  exec_kept name regs view := by
    have hcontains : s.buffers.contains name = decide (name ∈ Request.names qs) := by
      rw [← h.names_eq, Buffers.contains_eq]
    rw [← hcontains]
    rfl
  exec_keptCount regs view := by
    rw [← h.names_eq, Buffers.names, List.length_map]
    rfl
  exec_keptNames regs view := by
    rw [← h.names_eq]
    rfl
  made_eq := h.entries_eq.symm
  made_count := congrArg List.length h.entries_eq.symm
  made_names := congrArg (List.map Prod.fst) h.entries_eq.symm
  same_iff e he e' he' := h.same_iff he he'
  failed step regs e s' hbuffered hexec := by
    obtain ⟨_, hgrown, -⟩ :=
      (exec_serves (K := K) hnew hbuffered h regs).symm.ends.run_error hexec
    exact hgrown.buffers_eq
  tried := h.calls_eq

/-- After any program that makes its vectors through the buffers of a supply, these keep the names that
were answered, in the order of their first answers and each once; the calls of the supply that returned
have made what is kept; two requests were answered with the same vector just if their names are the same;
and a failure has left the buffers as they were, so that the next request of that name was a call again.
Every beginning of such a program is one too, so this is what there is at each of its instructions. -/
theorem requests_served (hnew : Run.MakesNew new) (hbuffers : s.buffers = {}) {program : List (Step S)}
    (hprogram : ∀ step ∈ program, step.Buffered) (regs : Registers) :
    ∃ answers s' calls, run (supplied K new) program regs s = .ok answers s' ∧
      run (supplied K (Run.noting new)) program regs (s.noted []) = .ok answers (s'.noted calls) ∧
      Keeping (supplied K new) (served (supplied K new) program regs s) calls s' := by
  have hfollows := run_serves (K := K) hnew program regs hprogram
    ⟨[], rfl, Session.Serves.of_no_buffers hbuffers⟩
  obtain ⟨answers, s', hrun⟩ := run_returns (supplied K new) program regs s
  obtain ⟨_, a, hnoting, rfl, calls, rfl, hserves⟩ := hfollows.exists_ok hrun
  exact ⟨_, s', calls, hrun, hnoting, .of_serves hnew hserves⟩

/-! ## A supply that fails now and then -/

omit [Inhabited V] [Scalar S] in
theorem roomy_makesNew (K : Space S V) : Run.MakesNew (roomy K : String → Run V S R σ Ref) := by
  intro name s
  unfold roomy
  cases Storage.allow (R := R) [K.backend.size] K.width with
  | error e => exact Ends.of_error rfl (.refl s)
  | ok =>
    refine Ends.of_ok rfl ⟨Store.not_valid_next, Store.valid_next name, ?_, rfl⟩
    exact Nat.le_trans (Nat.le_succ _) (Nat.le_of_eq Store.size_push.symm)

/-- Fails at the first call and at every other one after it. -/
def faltering (new : String → Run V S R Bool Ref) (name : String) : Run V S R Bool Ref := fun s =>
  if s.outside then new name { s with outside := false }
  else .error (.collaborator "no vector") { s with outside := true }

omit [Inhabited V] [Scalar S] in
theorem faltering_makesNew {new : String → Run V S R Bool Ref} (hnew : Run.MakesNew new) :
    Run.MakesNew (faltering new) := by
  intro name s
  cases hout : s.outside with
  | false =>
    have hrun : faltering new name s =
        .error (.collaborator "no vector") { s with outside := true } := by
      simp [faltering, hout]
    exact Ends.of_error hrun ⟨Nat.le_refl _, rfl⟩
  | true =>
    have hrun : faltering new name s = new name { s with outside := false } := by
      simp [faltering, hout]
    refine Ends.of_eq hrun ((hnew name { s with outside := false }).mono ?_ ?_)
    · rintro r s' ⟨hfresh, hvalid, hgrown⟩
      exact ⟨hfresh, hvalid, hgrown.size_le, hgrown.buffers_eq⟩
    · exact fun s' hgrown => ⟨hgrown.size_le, hgrown.buffers_eq⟩

/-- Requests two names until both are answered, one of them again, and writes a vector in between. -/
def insisting : List (Step Float) :=
  [⟨.keep "p" "a", false⟩, ⟨.keep "p" "a", false⟩, ⟨.set "p" [1, 2], false⟩, ⟨.keep "q" "b", false⟩,
    ⟨.new "q" "a", true⟩, ⟨.keep "r" "b", false⟩, ⟨.keptNames, false⟩]

theorem requests_served_faltering :
    ∃ answers s' calls,
      run (supplied ((Component.plain Float).space 2) (faltering (R := Float)
        (roomy ((Component.plain Float).space 2)))) insisting [] { outside := false } = .ok answers s' ∧
      run (supplied ((Component.plain Float).space 2) (Run.noting (faltering (R := Float)
        (roomy ((Component.plain Float).space 2))))) insisting [] (Session.noted { outside := false } []) =
          .ok answers (s'.noted calls) ∧
      s'.buffers.names = ["a", "b"] ∧ s'.buffers.entries = [("a", ⟨0⟩), ("b", ⟨1⟩)] ∧
      calls = [⟨"a", none⟩, ⟨"a", some ⟨0⟩⟩, ⟨"b", none⟩, ⟨"b", some ⟨1⟩⟩] := by
  have hprogram : ∀ step ∈ insisting, step.Buffered := by simp [insisting, Step.Buffered]
  obtain ⟨answers, s', calls, hrun, hnoting, hkeeping⟩ := requests_served
    (K := (Component.plain Float).space 2) (s := { outside := false })
    (faltering_makesNew (R := Float) (roomy_makesNew ((Component.plain Float).space 2))) rfl hprogram []
  have hserved : served (supplied ((Component.plain Float).space 2) (faltering (R := Float)
      (roomy ((Component.plain Float).space 2)))) insisting [] { outside := false } =
      [⟨"a", none⟩, ⟨"a", some ⟨0⟩⟩, ⟨"b", none⟩, ⟨"a", some ⟨0⟩⟩, ⟨"b", some ⟨1⟩⟩] := by
    rfl
  rw [hserved] at hkeeping
  have hcalls := hkeeping.tried
  subst hcalls
  exact ⟨answers, s', _, hrun, hnoting, hkeeping.names_eq, hkeeping.made_eq.symm, rfl⟩

end Program

end NewtonKrylov
