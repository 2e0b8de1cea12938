import NewtonKrylov.Program
import NewtonKrylov.Proofs.Krylov.WorkVectors

/-!
# The course of a vector program

`Program.Along` says something of every instruction at the registers and in the session in which a
program reaches it, the instructions that failed before it included. What one instruction preserves
holds along all of a program (`Program.Along.of_step`): so do registers and buffers go on naming vectors
of the store (`Program.exec_bound`).
-/

namespace NewtonKrylov

variable {V S R σ : Type}

namespace Program

section Run

variable [Inhabited V] [Scalar S] {B : Bench V S R σ} {step : Step S} {steps : List (Step S)}
variable {regs regs' : Registers} {s s' : Session V S R σ}

theorem run_cons_ok {answer : Answer S} (h : exec B step regs s = .ok (regs', answer) s') :
    run B (step :: steps) regs s = ((.ok answer :: ·) <$> run B steps regs') s' := by
  simp only [run, h]

theorem run_cons_error {e : Fault R} (h : exec B step regs s = .error e s') :
    run B (step :: steps) regs s = ((.error e :: ·) <$> run B steps regs) s' := by
  simp only [run, h]

theorem run_cons_congr {B' : Bench V S R σ} {step' : Step S} {steps' : List (Step S)}
    (hexec : exec B step regs s = exec B' step' regs s)
    (hok : ∀ u s', exec B' step' regs s = .ok u s' → run B steps u.1 s' = run B' steps' u.1 s')
    (herror : ∀ e s', exec B' step' regs s = .error e s' →
      run B steps regs s' = run B' steps' regs s') :
    run B (step :: steps) regs s = run B' (step' :: steps') regs s := by
  have hmap : ∀ {regs s} (answer : Except (Fault R) (Answer S)),
      run B steps regs s = run B' steps' regs s →
      ((answer :: ·) <$> run B steps regs) s = ((answer :: ·) <$> run B' steps' regs) s := by
    intro regs s answer h
    show EStateM.map _ _ s = EStateM.map _ _ s
    simp only [EStateM.map, h]
  cases hdone : exec B' step' regs s with
  | ok u s' =>
    rw [run_cons_ok hdone, run_cons_ok (hexec.trans hdone)]
    exact hmap _ (hok u s' hdone)
  | error e s' =>
    rw [run_cons_error hdone, run_cons_error (hexec.trans hdone)]
    exact hmap _ (herror e s' hdone)

theorem run_returns (B : Bench V S R σ) (steps : List (Step S)) (regs : Registers)
    (s : Session V S R σ) : ∃ answers s', run B steps regs s = .ok answers s' := by
  induction steps generalizing regs s with
  | nil => exact ⟨[], s, rfl⟩
  | cons step steps ih =>
    cases hexec : exec B step regs s with
    | ok u s' =>
      obtain ⟨answers, s'', hrun⟩ := ih u.1 s'
      refine ⟨.ok u.2 :: answers, s'', ?_⟩
      rw [run_cons_ok hexec, map_eq_pure_bind, bind_run_ok hrun]
      rfl
    | error e s' =>
      obtain ⟨answers, s'', hrun⟩ := ih regs s'
      refine ⟨.error e :: answers, s'', ?_⟩
      rw [run_cons_error hexec, map_eq_pure_bind, bind_run_ok hrun]
      rfl

variable {V' σ' : Type} [Inhabited V'] {B' : Bench V' S R σ'} {step' : Step S}
  {steps' : List (Step S)} {t : Session V' S R σ'}

theorem run_cons_follows {E : Session V S R σ → Session V' S R σ' → Prop}
    (h : Follows
      (fun u a v b => u.2 = v.2 ∧
        Follows (fun x a' y b' => x = y ∧ E a' b') E (run B steps u.1) a (run B' steps' v.1) b)
      (fun a b =>
        Follows (fun x a' y b' => x = y ∧ E a' b') E (run B steps regs) a (run B' steps' regs') b)
      (exec B step regs) s (exec B' step' regs') t) :
    Follows (fun x a y b => x = y ∧ E a b) E (run B (step :: steps) regs) s
      (run B' (step' :: steps') regs') t := by
  have hmap : ∀ {regs regs' a b} (answer : Except (Fault R) (Answer S)),
      Follows (fun x a' y b' => x = y ∧ E a' b') E (run B steps regs) a (run B' steps' regs') b →
      Follows (fun x a' y b' => x = y ∧ E a' b') E ((answer :: ·) <$> run B steps regs) a
        ((answer :: ·) <$> run B' steps' regs') b := by
    intro regs regs' a b answer hrest
    rw [map_eq_pure_bind, map_eq_pure_bind]
    refine hrest.bind ?_
    rintro x a' _ b' ⟨rfl, hE⟩
    exact Follows.of_ok rfl rfl ⟨rfl, hE⟩
  rcases h.cases with ⟨u, a, v, b, hx, hy, hanswer, hrest⟩ | ⟨e, a, b, hx, hy, hrest⟩
  · rw [Follows, run_cons_ok hx, run_cons_ok hy, hanswer]
    exact hmap _ hrest
  · rw [Follows, run_cons_error hx, run_cons_error hy]
    exact hmap _ hrest

variable (B) in
/-- A property of every instruction where a program reaches it. -/
def Along (p : Step S → Registers → Session V S R σ → Prop) :
    List (Step S) → Registers → Session V S R σ → Prop
  | [], _, _ => True
  | step :: steps, regs, s => p step regs s ∧
    match exec B step regs s with
    | .ok (regs', _) s' => Along p steps regs' s'
    | .error _ s' => Along p steps regs s'

theorem Along.tail_of_ok {p : Step S → Registers → Session V S R σ → Prop} {u : Registers × Answer S}
    (h : Along B p (step :: steps) regs s) (hexec : exec B step regs s = .ok u s') :
    Along B p steps u.1 s' := by
  have hrest := h.2
  rwa [hexec] at hrest

theorem Along.tail_of_error {p : Step S → Registers → Session V S R σ → Prop} {e : Fault R}
    (h : Along B p (step :: steps) regs s) (hexec : exec B step regs s = .error e s') :
    Along B p steps regs s' := by
  have hrest := h.2
  rwa [hexec] at hrest

theorem Along.take {p : Step S → Registers → Session V S R σ → Prop} (k : Nat)
    (h : Along B p steps regs s) : Along B p (steps.take k) regs s := by
  induction steps generalizing k regs s with
  | nil => rwa [List.take_nil]
  | cons step steps ih =>
    cases k with
    | zero => trivial
    | succ k =>
      refine ⟨h.1, ?_⟩
      cases hexec : exec B step regs s with
      | ok u s' => exact ih k (h.tail_of_ok hexec)
      | error e s' => exact ih k (h.tail_of_error hexec)

/-- What holds at an instruction wherever an invariant does, holds along every program. -/
theorem Along.of_step {inv : Registers → Session V S R σ → Prop}
    {p : Step S → Registers → Session V S R σ → Prop}
    (hinv : ∀ step regs s, inv regs s →
      Ends (fun u s' => inv u.1 s') (inv regs) (exec B step regs) s)
    (hp : ∀ step regs s, inv regs s → p step regs s) :
    ∀ (steps : List (Step S)) {regs : Registers} {s : Session V S R σ}, inv regs s →
      Along B p steps regs s := by
  intro steps
  induction steps with
  | nil => exact fun _ => trivial
  | cons step steps ih =>
    intro regs s h
    refine ⟨hp step regs s h, ?_⟩
    have hends := hinv step regs s h
    cases hexec : exec B step regs s with
    | ok u s' => exact ih (hends.run_ok hexec)
    | error e s' => exact ih (hends.run_error hexec)

end Run

section Factors

variable [Inhabited V] [Scalar S] {K : Space S V} {regs : Registers} {s : Session V S R σ} {f : S}

theorem exec_addScaled_of_usable (h : K.factorFlaw f = none) (dest a b : String) (view : Bool) :
    exec (bench K) ⟨.addScaled dest a b f, view⟩ regs s =
      let v := K.backend.addScaled (s.store.read (regs.ref a)) (s.store.read (regs.ref b)) f
      .ok (regs, .contents (K.toList ((s.store.write (regs.ref dest) v).read (regs.ref dest))))
        (s.write (regs.ref dest) v) := by
  simp only [exec, usable, bench, h]
  rfl

theorem exec_scale_of_usable (h : K.factorFlaw f = none) (dest a : String) (view : Bool) :
    exec (bench K) ⟨.scale dest a f, view⟩ regs s =
      let v := K.backend.scale (s.store.read (regs.ref a)) f
      .ok (regs, .contents (K.toList ((s.store.write (regs.ref dest) v).read (regs.ref dest))))
        (s.write (regs.ref dest) v) := by
  simp only [exec, usable, bench, h]
  rfl

theorem exec_addScaled_of_refused {flaw : Unfit} (h : K.factorFlaw f = some flaw) (dest a b : String)
    (view : Bool) : exec (bench K) ⟨.addScaled dest a b f, view⟩ regs s = .error flaw.fault s := by
  simp only [exec, usable, bench, h]
  rfl

theorem exec_scale_of_refused {flaw : Unfit} (h : K.factorFlaw f = some flaw) (dest a : String)
    (view : Bool) : exec (bench K) ⟨.scale dest a f, view⟩ regs s = .error flaw.fault s := by
  simp only [exec, usable, bench, h]
  rfl

end Factors

/-! ## References to vectors of the store -/

/-- Registers and buffers refer to vectors of the store. -/
structure Bound (regs : Registers) (s : Session V S R σ) : Prop where
  registers : ∀ p ∈ regs, s.store.Valid p.2
  buffers : ∀ p ∈ s.buffers.entries, s.store.Valid p.2

section Bound

variable {regs : Registers} {s s' : Session V S R σ} {r : Ref} {name : String}

theorem Bound.of_size_le (h : Bound regs s) (hbuffers : s'.buffers = s.buffers)
    (hsize : s.store.size ≤ s'.store.size) : Bound regs s' where
  registers p hp := Nat.lt_of_lt_of_le (h.registers p hp) hsize
  buffers p hp := Nat.lt_of_lt_of_le (h.buffers p (hbuffers ▸ hp)) hsize

theorem Bound.write (h : Bound regs s) (r : Ref) (v : V) : Bound regs (s.write r v) :=
  h.of_size_le rfl (Nat.le_of_eq Store.size_write.symm)

theorem Bound.push (h : Bound regs s) (name : String) (v : V) : Bound regs (s.push name v) :=
  h.of_size_le rfl (Nat.le_of_lt (Nat.lt_of_lt_of_eq (Nat.lt_succ_self _) Store.size_push.symm))

theorem Bound.cons (h : Bound regs s) (hr : s.store.Valid r) (dest : String) :
    Bound ((dest, r) :: regs) s where
  registers := by
    rintro p (- | ⟨_, hp⟩)
    · exact hr
    · exact h.registers p hp
  buffers := h.buffers

theorem Bound.insert (h : Bound regs s) (hr : s.store.Valid r) (name : String) :
    Bound regs { s with buffers := s.buffers.insert name r } where
  registers := h.registers
  buffers := by
    intro p hp
    rcases List.mem_append.mp hp with hp | hp
    · exact h.buffers p hp
    · obtain rfl := List.mem_singleton.mp hp
      exact hr

theorem Bound.valid (h : Bound regs s) (hname : name ∈ regs.map Prod.fst) :
    s.store.Valid (regs.ref name) := by
  obtain ⟨p, hp, rfl⟩ := List.mem_map.mp hname
  cases hlookup : regs.lookup p.1 with
  | none =>
    have hne := List.lookup_eq_none_iff.mp hlookup p hp
    simp at hne
  | some r =>
    obtain ⟨before, after, hregs, -⟩ := List.lookup_eq_some_iff.mp hlookup
    have hmem : (p.1, r) ∈ regs := by simp [hregs]
    rw [Registers.ref, hlookup]
    exact h.registers _ hmem

end Bound

section Bench

variable {K : Space S V} {regs : Registers} {s : Session V S R σ}

theorem roomy_bound (h : Bound regs s) (name : String) :
    Ends (fun r s' => Bound regs s' ∧ s'.store.Valid r) (Bound regs) (roomy K name) s := by
  unfold roomy
  cases hroom : Storage.allow (R := R) [K.backend.size] K.width with
  | error e => exact Ends.of_error rfl h
  | ok => exact Ends.of_ok rfl ⟨h.push name _, Store.valid_next name⟩

theorem keptAs_bound (h : Bound regs s) (name : String) :
    Ends (fun r s' => Bound regs s' ∧ s'.store.Valid r) (Bound regs) (Run.keptAs (roomy K) name) s := by
  unfold Run.keptAs
  have hget : (get : Run V S R σ (Session V S R σ)) s = .ok s s := rfl
  refine Ends.skip hget ?_
  cases hfind : s.buffers.find? name with
  | some r => exact Ends.of_ok rfl ⟨h, h.buffers _ (Buffers.mem_of_find? hfind)⟩
  | none =>
    refine (roomy_bound h name).bind fun r s' hmade => ?_
    exact Ends.of_ok rfl ⟨hmade.1.insert hmade.2 name, hmade.2⟩

theorem vectorOf_bound (h : Bound regs s) (name : String) (values : Nested S) :
    Ends (fun r s' => Bound regs s' ∧ s'.store.Valid r) (Bound regs) (vectorOf K name values) s := by
  unfold vectorOf
  cases hvalues : exactly (R := R) K.backend.size values with
  | error e => exact Ends.of_error rfl h
  | ok xs => exact Ends.of_ok rfl ⟨(h.push name _).write _ _, (Store.valid_next name).write _⟩

variable [Inhabited V]

theorem writeTo_bound (h : Bound regs s) (r : Ref) (values : Nested S) :
    Ends (fun _ => Bound regs) (Bound regs) (writeTo K r values) s := by
  unfold writeTo
  refine Ends.skip (Run.contents_run r) ?_
  rcases written (R := R) K (s.store.read r) values with ⟨v, - | e⟩
  · exact Ends.of_ok rfl (h.write r v)
  · exact Ends.of_error rfl (h.write r v)

variable [Scalar S]

theorem exec_bound (step : Step S) (h : Bound regs s) :
    Ends (fun u s' => Bound u.1 s') (Bound regs) (exec (bench K) step regs) s := by
  obtain ⟨i, view⟩ := step
  have hbind : ∀ {x : Run V S R σ Ref} (dest : String),
      Ends (fun r s' => Bound regs s' ∧ s'.store.Valid r) (Bound regs) x s →
      Ends (fun u s' => Bound u.1 s') (Bound regs) (do
        let r ← x
        pure ((dest, r) :: regs, ← entriesAt (bench K) r)) s := by
    intro x dest hx
    refine hx.bind fun r s' hmade => ?_
    exact Ends.of_ok rfl (hmade.1.cons hmade.2 dest)
  have hwrite : ∀ dest values, Ends (fun u s' => Bound u.1 s') (Bound regs) (do
      writeTo K (regs.ref dest) values
      pure (regs, ← entriesAt (bench K) (regs.ref dest))) s := by
    intro dest values
    refine (writeTo_bound h (regs.ref dest) values).bind fun _ s' h' => ?_
    exact Ends.of_ok rfl h'
  have hscale : ∀ {x : Run V S R σ Unit} {v : V} (dest : String) (f : S),
      x s = .ok () (s.write (regs.ref dest) v) →
      Ends (fun u s' => Bound u.1 s') (Bound regs) (do
        Run.demand (usable K f)
        x
        pure (regs, ← entriesAt (bench K) (regs.ref dest))) s := by
    intro x v dest f hx
    cases usable (R := R) K f with
    | error e => exact Ends.of_error rfl h
    | ok => exact Ends.skip rfl (Ends.skip hx (Ends.of_ok rfl (h.write (regs.ref dest) v)))
  cases i with
  | new dest name =>
    cases view with
    | false => exact hbind dest (roomy_bound h name)
    | true => exact hbind dest (keptAs_bound h name)
  | fromValues dest name values => exact hbind dest (vectorOf_bound h name values)
  | keep dest name => exact hbind dest (keptAs_bound h name)
  | assign dest values => exact hwrite dest values
  | set dest xs => exact hwrite dest (.list (xs.map .number))
  | addScaled dest a b f => exact hscale dest f (K.backend.addScaledInto_run _ (regs.ref a) (regs.ref b) f)
  | scale dest a f => exact hscale dest f (K.backend.scaleInto_run _ (regs.ref a) f)
  | copy dest a => exact Ends.of_ok rfl (h.write (regs.ref dest) _)
  | dot | norm | same | contents | size | kept | keptCount | keptNames | apply =>
    exact Ends.of_ok rfl h

end Bench

end Program

end NewtonKrylov
