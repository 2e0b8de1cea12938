import Mathlib.Algebra.Order.BigOperators.Group.List
import Mathlib.Algebra.Order.Group.Nat
import Mathlib.Logic.Function.Basic
import NewtonKrylov.Proofs.Program.Course

/-!
# Programs on shared vectors

The registers of a program may refer to the same vectors in any pattern, and requests by name make more
of them do so. An instruction that writes a vector writes what its entries come to from the contents that
all operands had before (`Program.elementwise_along`).

Where no name is requested twice, requests through the buffers make the vectors that direct ones would
make (`Program.run_distinct`). In general a program with buffers is the direct program in which a
repeated request reads the vector that the first one made, and its register is that vector's from then
on (`Program.run_merged`): the simulation relates the buffers of one run to registers of the other.
-/

namespace NewtonKrylov

variable {V S R σ α : Type} {n : Nat}

/-! ## Operations on entries -/

/-- The operations of a space go entry by entry. -/
structure Space.Entrywise (K : Space S V) (c : Component S α) (entries : V → Vector α n) : Prop where
  addScaled_eq : ∀ a b f, entries (K.backend.addScaled a b f) =
    Vector.ofFn fun i => c.addScaled ((entries a).get i) ((entries b).get i) f
  scale_eq : ∀ a f, entries (K.backend.scale a f) = Vector.ofFn fun i => c.scale ((entries a).get i) f
  toList_eq : ∀ v, K.toList v = (entries v).toList.map c.load

theorem Component.space_entrywise (c : Component S α) (n : Nat) : (c.space n).Entrywise c id where
  addScaled_eq a b f := by
    ext i hi
    simp only [Component.space, Component.backend, id_eq, Vector.getElem_zipWith, Vector.getElem_ofFn]
    rfl
  scale_eq a f := by
    ext i hi
    simp only [Component.space, Component.backend, id_eq, Vector.getElem_map, Vector.getElem_ofFn]
    rfl
  toList_eq _ := rfl

theorem Space.Entrywise.onDemand {K : Space S V} {c : Component S α} {entries : V → Vector α n}
    (h : K.Entrywise c entries) : K.onDemand.Entrywise c (fun v => entries (K.written v)) where
  addScaled_eq a b f := h.addScaled_eq (K.written a) (K.written b) f
  scale_eq a f := h.scale_eq (K.written a) f
  toList_eq v := h.toList_eq (K.written v)

/-- A session without its buffers. -/
def Session.bare (s : Session V S R σ) : Session V S R σ := { s with buffers := {} }

theorem Session.bare_of_no_buffers {s : Session V S R σ} (h : s.buffers = {}) : s.bare = s := by
  cases s
  cases h
  rfl

theorem Buffers.find?_insert_of_ne {b : Buffers} {name name' : String} (h : name' ≠ name) (r : Ref) :
    (b.insert name r).find? name' = b.find? name' := by
  simp only [find?, insert, List.lookup_append]
  cases b.entries.lookup name' with
  | some r' => rfl
  | none => simp [h]

/-! ## Instructions and their operands -/

namespace Instruction

/-- What can be done through the buffers as well as directly, and looking at a vector. -/
def Offered : Instruction S → Prop
  | new .. | dot .. | norm .. | addScaled .. | scale .. | same .. | contents .. | size => True
  | _ => False

/-- The name that a new vector is requested by. -/
def request : Instruction S → Option String
  | new _ name => some name
  | _ => none

/-- The registers that are looked up. -/
def operands : Instruction S → List String
  | dot a b | same a b => [a, b]
  | norm a | contents a => [a]
  | addScaled dest a b _ => [dest, a, b]
  | scale dest a _ => [dest, a]
  | _ => []

theorem request_eq_some {i : Instruction S} {name : String} (h : i.request = some name) :
    ∃ dest, i = new dest name := by
  cases i with
  | new dest _ => exact ⟨dest, congrArg (new dest) (Option.some.inj h)⟩
  | _ => exact nomatch h

/-- Looks up other registers. -/
def rename (ρ : String → String) : Instruction S → Instruction S
  | dot a b => dot (ρ a) (ρ b)
  | same a b => same (ρ a) (ρ b)
  | norm a => norm (ρ a)
  | contents a => contents (ρ a)
  | addScaled dest a b s => addScaled (ρ dest) (ρ a) (ρ b) s
  | scale dest a s => scale (ρ dest) (ρ a) s
  | i => i

theorem rename_id (i : Instruction S) : i.rename id = i := by
  cases i <;> rfl

end Instruction

def Step.direct (i : Instruction S) : Step S := ⟨i, false⟩

def Step.viaBuffers (i : Instruction S) : Step S := ⟨i, true⟩

namespace Program

variable [Inhabited V] [Scalar S] {K : Space S V} {regs regs' : Registers} {s s' : Session V S R σ}

/-! ## Element-wise results -/

section Elementwise

variable (K) (c : Component S α) (entries : V → Vector α n)

/-- An instruction writes `value` into `dest`, answers it and changes no other vector; with a factor that
is refused it does nothing. -/
def Writes (step : Step S) (regs : Registers) (s : Session V S R σ) (dest : String) (f : S)
    (value : Vector α n) : Prop :=
  match K.factorFlaw f with
  | some flaw => exec (bench K) step regs s = .error flaw.fault s
  | none => ∃ s',
      exec (bench K) step regs s = .ok (regs, .contents (value.toList.map c.load)) s' ∧
      entries (s'.store.read (regs.ref dest)) = value ∧
      (∀ r ≠ regs.ref dest, s'.store.read r = s.store.read r) ∧
      s'.store.names = s.store.names ∧ s'.buffers = s.buffers

/-- What is written into a register comes, entry by entry, from the contents before. -/
def Elementwise (step : Step S) (regs : Registers) (s : Session V S R σ) : Prop :=
  match step.instruction with
  | .addScaled dest a b f => dest ∈ regs.map Prod.fst →
    Writes K c entries step regs s dest f (Vector.ofFn fun i =>
      c.addScaled ((entries (s.store.read (regs.ref a))).get i)
        ((entries (s.store.read (regs.ref b))).get i) f)
  | .scale dest a f => dest ∈ regs.map Prod.fst →
    Writes K c entries step regs s dest f (Vector.ofFn fun i =>
      c.scale ((entries (s.store.read (regs.ref a))).get i) f)
  | _ => True

variable {K} {c} {entries}

theorem Writes.of_write (hK : K.Entrywise c entries) {step : Step S} {dest : String} {f : S} {v : V}
    (hvalid : s.store.Valid (regs.ref dest))
    (hrefused : ∀ flaw, K.factorFlaw f = some flaw →
      exec (bench K) step regs s = .error flaw.fault s)
    (hexec : K.factorFlaw f = none → exec (bench K) step regs s =
      .ok (regs, .contents (K.toList ((s.store.write (regs.ref dest) v).read (regs.ref dest))))
        (s.write (regs.ref dest) v)) :
    Writes K c entries step regs s dest f (entries v) := by
  unfold Writes
  cases hflaw : K.factorFlaw f with
  | some flaw => exact hrefused flaw hflaw
  | none =>
    have hread : (s.store.write (regs.ref dest) v).read (regs.ref dest) = v :=
      Store.read_write_self hvalid
    refine ⟨s.write (regs.ref dest) v, ?_, congrArg entries hread, ?_, Store.names_write, rfl⟩
    · rw [hexec hflaw, hread, hK.toList_eq]
    · intro r hr
      exact Store.read_write_of_ne hr.symm

theorem exec_elementwise (hK : K.Entrywise c entries) (step : Step S) (h : Bound regs s) :
    Elementwise K c entries step regs s := by
  obtain ⟨i, view⟩ := step
  cases i with
  | addScaled dest a b f =>
    intro hdest
    rw [← hK.addScaled_eq]
    exact Writes.of_write hK (h.valid hdest)
      (fun _ hflaw => exec_addScaled_of_refused hflaw dest a b view)
      (fun hflaw => exec_addScaled_of_usable hflaw dest a b view)
  | scale dest a f =>
    intro hdest
    rw [← hK.scale_eq]
    exact Writes.of_write hK (h.valid hdest)
      (fun _ hflaw => exec_scale_of_refused hflaw dest a view)
      (fun hflaw => exec_scale_of_usable hflaw dest a view)
  | _ => trivial

theorem elementwise_along (hK : K.Entrywise c entries) (h : Bound regs s) (steps : List (Step S)) :
    Along (bench K) (Elementwise K c entries) steps regs s :=
  Along.of_step (fun step _ _ => exec_bound step) (fun step _ _ => exec_elementwise hK step) steps h

end Elementwise

/-! ## Programs without the buffers -/

/-- What an instruction does on its operands does not depend on the buffers. -/
theorem exec_operands {ρ : String → String} {i : Instruction S} (hoffered : i.Offered)
    (hrequest : i.request = none) (hrefs : ∀ r ∈ i.operands, regs.ref r = regs'.ref (ρ r))
    (view view' : Bool) :
    Follows (fun u a v b => u = (regs, v.2) ∧ v.1 = regs' ∧ b = a.bare ∧ a.buffers = s.buffers)
      (fun a b => b = a.bare ∧ a.buffers = s.buffers)
      (exec (bench K) ⟨i, view⟩ regs) s (exec (bench K) ⟨i.rename ρ, view'⟩ regs') s.bare := by
  cases i with
  | dot a b | same a b =>
    have ha := hrefs a (by simp [Instruction.operands])
    have hb := hrefs b (by simp [Instruction.operands])
    simp only [exec, Instruction.rename, ha, hb]
    exact Follows.of_ok rfl rfl ⟨rfl, rfl, rfl, rfl⟩
  | norm a | contents a =>
    have ha := hrefs a (by simp [Instruction.operands])
    simp only [exec, Instruction.rename, ha]
    exact Follows.of_ok rfl rfl ⟨rfl, rfl, rfl, rfl⟩
  | addScaled dest a b f =>
    have hdest := hrefs dest (by simp [Instruction.operands])
    have ha := hrefs a (by simp [Instruction.operands])
    have hb := hrefs b (by simp [Instruction.operands])
    simp only [exec, Instruction.rename, hdest, ha, hb]
    cases usable (R := R) (bench (R := R) (σ := σ) K).space f with
    | ok => exact Follows.of_ok rfl rfl ⟨rfl, rfl, rfl, rfl⟩
    | error e => exact Follows.of_error rfl rfl ⟨rfl, rfl⟩
  | scale dest a f =>
    have hdest := hrefs dest (by simp [Instruction.operands])
    have ha := hrefs a (by simp [Instruction.operands])
    simp only [exec, Instruction.rename, hdest, ha]
    cases usable (R := R) (bench (R := R) (σ := σ) K).space f with
    | ok => exact Follows.of_ok rfl rfl ⟨rfl, rfl, rfl, rfl⟩
    | error e => exact Follows.of_error rfl rfl ⟨rfl, rfl⟩
  | size => exact Follows.of_ok rfl rfl ⟨rfl, rfl, rfl, rfl⟩
  | new => cases hrequest
  | _ => exact hoffered.elim

/-- There is room for vectors of the space. -/
def Room (R : Type) (K : Space S V) : Prop :=
  Storage.allow (R := R) [K.backend.size] K.width = .ok ()

omit [Inhabited V] [Scalar S] in
theorem roomy_eq (h : Room R K) : (roomy K : String → Run V S R σ Ref) = K.backend.new := by
  funext name s
  unfold roomy
  rw [show Storage.allow (R := R) [K.backend.size] K.width = .ok () from h]
  rfl

omit [Inhabited V] [Scalar S] in
theorem exists_error_of_not_room (h : ¬Room R K) :
    ∃ e, ∀ name (s : Session V S R σ), roomy K name s = .error e s := by
  unfold Room at h
  unfold roomy
  cases hallow : Storage.allow (R := R) [K.backend.size] K.width with
  | ok => exact absurd hallow h
  | error e => exact ⟨e, fun _ _ => rfl⟩

theorem exec_new_ok {view : Bool} {dest name : String} {r : Ref}
    (h : (if view then Run.keptAs (roomy K) else roomy K) name s = .ok r s') :
    exec (bench K) ⟨.new dest name, view⟩ regs s =
      .ok ((dest, r) :: regs, .contents (K.toList (s'.store.read r))) s' := by
  simp only [exec]
  exact bind_run_ok h _

theorem exec_new_error {view : Bool} {dest name : String} {e : Fault R}
    (h : (if view then Run.keptAs (roomy K) else roomy K) name s = .error e s') :
    exec (bench K) ⟨.new dest name, view⟩ regs s = .error e s' := by
  simp only [exec]
  exact bind_run_error h _

/-! ## Distinct requests -/

def requests (program : List (Instruction S)) : List String :=
  program.filterMap Instruction.request

theorem exec_new_follows {dest name : String} (h : s.buffers.find? name = none) :
    Follows
      (fun u a v b => Room R K ∧ u = v ∧ b = a.bare ∧
        ∀ name' ≠ name, a.buffers.find? name' = s.buffers.find? name')
      (fun a b => ¬Room R K ∧ b = a.bare ∧ a = s)
      (exec (bench K) (.viaBuffers (.new dest name)) regs) s
      (exec (bench K) (.direct (.new dest name)) regs) s.bare := by
  by_cases hroom : Room R K
  · have hkept := Run.keptAs_run_of_none (K := K.backend) h
    have hmade := K.backend.new_run (R := R) name (s := s.bare)
    rw [← roomy_eq hroom] at hkept hmade
    refine Follows.of_ok (exec_new_ok hkept) (exec_new_ok hmade)
      ⟨hroom, rfl, rfl, fun name' hne => ?_⟩
    exact Buffers.find?_insert_of_ne hne _
  · obtain ⟨e, herror⟩ := exists_error_of_not_room (σ := σ) hroom
    have hkept := Run.keptAs_run_of_error h (herror name s)
    exact Follows.of_error (exec_new_error hkept) (exec_new_error (herror name s.bare))
      ⟨hroom, rfl, rfl⟩

theorem run_distinct_follows (regs : Registers) (program : List (Instruction S)) :
    ∀ {s : Session V S R σ}, (∀ i ∈ program, i.Offered) →
      (requests program).Nodup ∨ ¬Room R K →
      (∀ name ∈ requests program, s.buffers.find? name = none) →
      Follows (fun u a v b => u = v ∧ b = a.bare) (fun a b => b = a.bare)
        (run (bench K) (program.map .viaBuffers) regs) s
        (run (bench K) (program.map .direct) regs) s.bare := by
  induction program generalizing regs with
  | nil => exact fun _ _ _ => Follows.of_ok rfl rfl ⟨rfl, rfl⟩
  | cons i program ih =>
    intro s hoffered hdistinct hfresh
    have hoffered' : ∀ i ∈ program, i.Offered := fun i hi => hoffered i (List.mem_cons_of_mem _ hi)
    refine run_cons_follows ?_
    cases hrequest : i.request with
    | none =>
      have hrequests : requests (i :: program) = requests program := List.filterMap_cons_none hrequest
      rw [hrequests] at hdistinct hfresh
      have hrefs : ∀ r ∈ i.operands, regs.ref r = regs.ref (id r) := fun _ _ => rfl
      have hexec := exec_operands (K := K) (s := s) (hoffered i List.mem_cons_self) hrequest hrefs
        true false
      rw [Instruction.rename_id] at hexec
      refine hexec.mono ?_ ?_
      · rintro _ a ⟨_, answer⟩ _ ⟨rfl, rfl, rfl, hbuffers⟩
        exact ⟨rfl, ih _ hoffered' hdistinct (hbuffers ▸ hfresh)⟩
      · rintro a _ ⟨rfl, hbuffers⟩
        exact ih _ hoffered' hdistinct (hbuffers ▸ hfresh)
    | some name =>
      have hrequests : requests (i :: program) = name :: requests program :=
        List.filterMap_cons_some hrequest
      rw [hrequests] at hdistinct hfresh
      obtain ⟨dest, rfl⟩ := Instruction.request_eq_some hrequest
      have hdistinct' := hdistinct.imp_left fun h => (List.nodup_cons.mp h).2
      have hfresh' : ∀ name ∈ requests program, s.buffers.find? name = none := fun name' hname =>
        hfresh name' (List.mem_cons_of_mem _ hname)
      refine (exec_new_follows (hfresh name List.mem_cons_self)).mono ?_ ?_
      · rintro u a _ _ ⟨hroom, rfl, rfl, hfind⟩
        have hnot := (List.nodup_cons.mp (hdistinct.resolve_right (not_not.mpr hroom))).1
        refine ⟨rfl, ih _ hoffered' hdistinct' fun name' hname => ?_⟩
        rw [hfind name' (ne_of_mem_of_not_mem hname hnot)]
        exact hfresh' name' hname
      · rintro _ _ ⟨-, rfl, rfl⟩
        exact ih _ hoffered' hdistinct' hfresh'

/-! ## Repeated requests -/

/-- The direct program in which only the first request of a name makes a vector, in a register of its
own. A repeated request looks at that vector, and either way the register that was to hold the new
vector is that register from then on. -/
def merged (slot : String → String) :
    (ρ : String → String) → (seen : List String) → List (Instruction S) → List (Instruction S)
  | _, _, [] => []
  | ρ, seen, .new dest name :: program =>
    (if name ∈ seen then .contents (slot name) else .new (slot name) name) ::
      merged slot (Function.update ρ dest (slot name)) (name :: seen) program
  | ρ, seen, i :: program => i.rename ρ :: merged slot ρ seen program

/-- Registers that a program does not use, one for every name. -/
structure Spare (slot : String → String) (program : List (Instruction S)) : Prop where
  injective : Function.Injective slot
  avoids : ∀ i ∈ program, ∀ r ∈ i.operands, ∀ name, slot name ≠ r

/-- The state of a program with buffers and that of the direct one. -/
structure Merging (slot ρ : String → String) (seen : List String) (regs regs' : Registers)
    (s s' : Session V S R σ) : Prop where
  bare : s' = s.bare
  refs : ∀ r, (∀ name, slot name ≠ r) → regs.ref r = regs'.ref (ρ r)
  renamed : ∀ r, ρ r = r ∨ ∃ name ∈ seen, ρ r = slot name
  kept : ∀ name, s.buffers.find? name = if name ∈ seen then some (regs'.ref (slot name)) else none

section Merging

variable {slot ρ : String → String} {seen : List String} {dest name : String}

omit [Inhabited V] [Scalar S] in
theorem Merging.renamed_update (h : Merging slot ρ seen regs regs' s s') (name dest r : String) :
    Function.update ρ dest (slot name) r = r ∨
      ∃ name' ∈ name :: seen, Function.update ρ dest (slot name) r = slot name' := by
  by_cases hdest : r = dest
  · exact .inr ⟨name, List.mem_cons_self, by rw [hdest, Function.update_self]⟩
  · rw [Function.update_of_ne hdest]
    rcases h.renamed r with heq | ⟨name', hname, heq⟩
    · exact .inl heq
    · exact .inr ⟨name', List.mem_cons_of_mem name hname, heq⟩

omit [Inhabited V] [Scalar S] in
theorem Merging.again (h : Merging slot ρ seen regs regs' s s') (hseen : name ∈ seen) (dest : String) :
    Merging slot (Function.update ρ dest (slot name)) (name :: seen)
      ((dest, regs'.ref (slot name)) :: regs) regs' s s' where
  bare := h.bare
  refs r hr := by
    by_cases hdest : r = dest
    · subst hdest
      simp [Registers.ref]
    · rw [Function.update_of_ne hdest, ← h.refs r hr]
      simp [Registers.ref, List.lookup_cons, beq_false_of_ne hdest]
  renamed := h.renamed_update name dest
  kept name' := by
    have hiff : name' ∈ name :: seen ↔ name' ∈ seen := by
      rw [List.mem_cons, or_iff_right_of_imp]
      rintro rfl
      exact hseen
    simp only [h.kept, hiff]

omit [Inhabited V] [Scalar S] in
/-- A request of a new name keeps a vector that the direct program has in a register of its own. -/
theorem Merging.first (hslot : Function.Injective slot) (h : Merging slot ρ seen regs regs' s s')
    (hseen : name ∉ seen) (dest : String) (v : V) :
    Merging slot (Function.update ρ dest (slot name)) (name :: seen) ((dest, s.store.next) :: regs)
      ((slot name, s.store.next) :: regs')
      { s.push name v with buffers := s.buffers.insert name s.store.next } (s'.push name v) where
  bare := by
    rw [h.bare]
    rfl
  refs r hr := by
    by_cases hdest : r = dest
    · subst hdest
      simp [Registers.ref]
    · have hne : ρ r ≠ slot name := by
        rcases h.renamed r with heq | ⟨name', hname, heq⟩
        · rw [heq]
          exact (hr name).symm
        · intro hsame
          exact hseen (hslot (heq.symm.trans hsame) ▸ hname)
      have hold := h.refs r hr
      simp only [Registers.ref] at hold
      rw [Function.update_of_ne hdest]
      simp [Registers.ref, List.lookup_cons, beq_false_of_ne hdest, beq_false_of_ne hne, hold]
  renamed := h.renamed_update name dest
  kept name' := by
    by_cases hname : name' = name
    · subst hname
      have hnone : s.buffers.find? name' = none := by rw [h.kept, if_neg hseen]
      rw [if_pos List.mem_cons_self]
      simp [Buffers.find?_insert_self hnone, Registers.ref]
    · have hslots : slot name' ≠ slot name := hslot.ne hname
      show (s.buffers.insert name s.store.next).find? name' = _
      rw [Buffers.find?_insert_of_ne hname, h.kept]
      simp [hname, Registers.ref, List.lookup_cons, beq_false_of_ne hslots]

theorem Merging.exec_new (hroom : Room R K) (hslot : Function.Injective slot)
    (h : Merging slot ρ seen regs regs' s s') (dest name : String) :
    Follows
      (fun u a v b => u.2 = v.2 ∧
        Merging slot (Function.update ρ dest (slot name)) (name :: seen) u.1 v.1 a b)
      (fun _ _ => False)
      (exec (bench K) (.viaBuffers (.new dest name)) regs) s
      (exec (bench K) (.direct (if name ∈ seen then .contents (slot name) else .new (slot name) name))
        regs') s' := by
  have hsession := h.bare
  by_cases hseen : name ∈ seen
  · have hfind : s.buffers.find? name = some (regs'.ref (slot name)) := by rw [h.kept, if_pos hseen]
    rw [if_pos hseen]
    refine Follows.of_ok (exec_new_ok (Run.keptAs_run_of_some hfind)) rfl ⟨?_, h.again hseen dest⟩
    rw [hsession]
    rfl
  · have hfind : s.buffers.find? name = none := by rw [h.kept, if_neg hseen]
    have hkept := Run.keptAs_run_of_none (K := K.backend) hfind
    have hmade := K.backend.new_run (R := R) name (s := s')
    rw [← roomy_eq hroom] at hkept hmade
    have hnext : s'.store.next = s.store.next := by
      rw [hsession]
      rfl
    rw [if_neg hseen]
    refine Follows.of_ok (exec_new_ok hkept) (exec_new_ok hmade) ⟨?_, ?_⟩
    · rw [hsession]
      rfl
    · rw [hnext]
      exact h.first hslot hseen dest _

theorem run_merged_follows (hroom : Room R K) (hslot : Function.Injective slot)
    (program : List (Instruction S)) :
    ∀ {ρ : String → String} {seen : List String} {regs regs' : Registers} {s s' : Session V S R σ},
      (∀ i ∈ program, i.Offered) → (∀ i ∈ program, ∀ r ∈ i.operands, ∀ name, slot name ≠ r) →
      Merging slot ρ seen regs regs' s s' →
      Follows (fun u a v b => u = v ∧ b = a.bare) (fun a b => b = a.bare)
        (run (bench K) (program.map .viaBuffers) regs) s
        (run (bench K) ((merged slot ρ seen program).map .direct) regs') s' := by
  induction program with
  | nil => exact fun _ _ h => Follows.of_ok rfl rfl ⟨rfl, h.bare⟩
  | cons i program ih =>
    intro ρ seen regs regs' s s' hoffered havoids h
    have hoffered' : ∀ i ∈ program, i.Offered := fun i hi => hoffered i (List.mem_cons_of_mem _ hi)
    have havoids' : ∀ i ∈ program, ∀ r ∈ i.operands, ∀ name, slot name ≠ r := fun i hi =>
      havoids i (List.mem_cons_of_mem _ hi)
    cases hrequest : i.request with
    | none =>
      have hmerged : merged slot ρ seen (i :: program) = i.rename ρ :: merged slot ρ seen program := by
        cases i with
        | new => cases hrequest
        | _ => rfl
      have hrefs : ∀ r ∈ i.operands, regs.ref r = regs'.ref (ρ r) := fun r hr =>
        h.refs r (havoids i List.mem_cons_self r hr)
      have hexec := exec_operands (K := K) (s := s) (hoffered i List.mem_cons_self) hrequest hrefs
        true false
      have hnext : ∀ {a : Session V S R σ}, a.buffers = s.buffers →
          Merging slot ρ seen regs regs' a a.bare := fun hbuffers =>
        ⟨rfl, h.refs, h.renamed, fun name => hbuffers ▸ h.kept name⟩
      rw [hmerged, h.bare]
      refine run_cons_follows (hexec.mono ?_ ?_)
      · rintro _ a ⟨_, answer⟩ _ ⟨rfl, rfl, rfl, hbuffers⟩
        exact ⟨rfl, ih hoffered' havoids' (hnext hbuffers)⟩
      · rintro a _ ⟨rfl, hbuffers⟩
        exact ih hoffered' havoids' (hnext hbuffers)
    | some name =>
      obtain ⟨dest, rfl⟩ := Instruction.request_eq_some hrequest
      refine run_cons_follows ((h.exec_new hroom hslot dest name).mono ?_ fun _ _ hE => hE.elim)
      exact fun _ _ _ _ hdone => ⟨hdone.1, ih hoffered' havoids' hdone.2⟩

omit [Scalar S] in
theorem exists_spare (program : List (Instruction S)) : ∃ slot, Spare slot program := by
  let bound := ((program.flatMap Instruction.operands).map String.length).sum + 1
  have hbound : ∀ i ∈ program, ∀ r ∈ i.operands, r.length < bound := by
    intro i hi r hr
    have hmem := List.mem_flatMap.mpr ⟨i, hi, hr⟩
    exact Nat.lt_succ_of_le (List.le_sum_of_mem (List.mem_map_of_mem hmem))
  refine ⟨fun name => String.ofList (List.replicate bound ' ') ++ name, ?_, ?_⟩
  · intro name name' h
    simpa using h
  · intro i hi r hr name h
    have hlt := hbound i hi r hr
    have hlength := congrArg String.length h
    simp at hlength
    omega

end Merging

/-! ## Vector programs -/

/-- What programs mean, whatever registers share a vector. What an instruction writes comes, entry by
entry, from the contents before it, and no other vector changes. With buffers that keep nothing yet, a
program answers and leaves behind the same as the direct one if no name is requested twice, or if there
is room for no vector; otherwise it does what the direct one does in which repeated requests refer to
the vector that the first one made. -/
theorem programs_mean {c : Component S α} {entries : V → Vector α n} (hK : K.Entrywise c entries)
    (hbound : Bound regs s) (hbuffers : s.buffers = {}) {program : List (Instruction S)}
    (hoffered : ∀ i ∈ program, i.Offered) :
    (∀ steps, Along (bench K) (Elementwise K c entries) steps regs s) ∧
    ((requests program).Nodup ∨ ¬Room R K → ∃ answers s',
      run (bench K) (program.map .viaBuffers) regs s = .ok answers s' ∧
      run (bench K) (program.map .direct) regs s = .ok answers s'.bare) ∧
    (Room R K → (∃ slot, Spare slot program) ∧ ∀ slot, Spare slot program → ∃ answers s',
      run (bench K) (program.map .viaBuffers) regs s = .ok answers s' ∧
      run (bench K) ((merged slot id [] program).map .direct) regs s = .ok answers s'.bare) := by
  have hbare : s.bare = s := Session.bare_of_no_buffers hbuffers
  have hexists : ∀ {steps : List (Step S)}, Follows (fun u a v b => u = v ∧ b = a.bare)
      (fun a b => b = a.bare) (run (bench K) (program.map .viaBuffers) regs) s
      (run (bench K) steps regs) s →
      ∃ answers s', run (bench K) (program.map .viaBuffers) regs s = .ok answers s' ∧
        run (bench K) steps regs s = .ok answers s'.bare := by
    intro steps h
    obtain ⟨answers, s'', hdirect⟩ := run_returns (bench K) steps regs s
    obtain ⟨_, s', hvia, rfl, rfl⟩ := h.exists_ok hdirect
    exact ⟨_, s', hvia, hdirect⟩
  have hnone : ∀ name, s.buffers.find? name = none := fun name => by
    rw [hbuffers]
    rfl
  refine ⟨elementwise_along hK hbound, fun hdistinct => hexists ?_, fun hroom =>
    ⟨exists_spare program, fun slot hspare => hexists ?_⟩⟩
  · have hfollows := run_distinct_follows regs program hoffered hdistinct fun name _ => hnone name
    rwa [hbare] at hfollows
  · refine run_merged_follows hroom hspare.injective program hoffered hspare.avoids ?_
    exact ⟨hbare.symm, fun _ _ => rfl, fun _ => .inl rfl, hnone⟩

/-- One vector of words, and a session that has it in two registers. -/
def twins : Session (Option (Vector Int32 2)) Number32 Float Unit where
  store := ({} : Store (Option (Vector Int32 2))).push "x" (some #v[1, 2])
  outside := ()

/-- A name requested twice, and all operands one vector at the end. -/
def refilling : List (Instruction Number32) :=
  [.new "p" "r", .addScaled "p" "a" "b" (.float 2), .new "q" "r", .same "p" "q",
    .addScaled "q" "p" "q" (.float 3)]

theorem programs_mean_twins :
    (∀ steps, Along (bench (Component.wholeInt32.space 2).onDemand)
      (Elementwise (Component.wholeInt32.space 2).onDemand .wholeInt32
        (Component.wholeInt32.space 2).written) steps [("a", ⟨0⟩), ("b", ⟨0⟩)] twins) ∧
    ∃ answers s',
      run (bench (Component.wholeInt32.space 2).onDemand) (refilling.map .viaBuffers)
        [("a", ⟨0⟩), ("b", ⟨0⟩)] twins = .ok answers s' ∧
      run (bench (Component.wholeInt32.space 2).onDemand)
        ([.new "new r" "r", .addScaled "new r" "a" "b" (.float 2), .contents "new r",
          .same "new r" "new r", .addScaled "new r" "new r" "new r" (.float 3)].map .direct)
        [("a", ⟨0⟩), ("b", ⟨0⟩)] twins = .ok answers s'.bare := by
  have hbound : Bound [("a", ⟨0⟩), ("b", ⟨0⟩)] twins := by
    refine ⟨?_, by simp [twins]⟩
    intro p hp
    have hzero : p.2 = ⟨0⟩ := by
      simp at hp
      rcases hp with rfl | rfl <;> rfl
    exact hzero ▸ Nat.zero_lt_one
  have hspare : Spare ("new " ++ ·) refilling := by
    refine ⟨fun name name' h => by simpa using h, ?_⟩
    have hshort : ∀ i ∈ refilling, ∀ r ∈ i.operands, r.length = 1 := by decide
    intro i hi r hr name h
    have hlength := congrArg String.length h
    rw [hshort i hi r hr, String.length_append] at hlength
    exact absurd hlength (Nat.ne_of_gt (Nat.lt_add_right _ (by decide)))
  have hoffered : ∀ i ∈ refilling, i.Offered := by simp [refilling, Instruction.Offered]
  have h := programs_mean (Component.wholeInt32.space_entrywise 2).onDemand hbound rfl hoffered
  exact ⟨h.1, (h.2.2 rfl).2 ("new " ++ ·) hspare⟩

end Program

end NewtonKrylov
