import Mathlib.Order.BooleanAlgebra.Set
import NewtonKrylov.Proofs.Krylov.Framed
import NewtonKrylov.Proofs.Krylov.Fresh

/-!
# GMRES on kept work vectors

`Job.runAll_kept_eq_fresh`: calls one after the other, on whatever problems and with whatever parameters, give
the same results whether their work vectors are kept under their names or made anew on every request. A
kept vector still holds what an earlier cycle or call has left in it; none of it is read before it is
written.

What is asked of an operator is that it minds neither the old contents of its result nor work vectors
that it is not applied to (`Blind`). Two calls of one problem then go side by side (`Gmres.Abreast`): each
function, run on both sides, gets the same answer from its operator and so follows the same run on values
(`Gmres.step_answers`).
-/

namespace NewtonKrylov

variable {V S R σ α : Type} [Inhabited V]

/-! ## Sessions that hold the same -/

/-- Both sessions hold the same in the given vectors, and their collaborators are in the same state. -/
structure Session.Alike (own : Set Ref) (s t : Session V S R σ) : Prop where
  outside_eq : s.outside = t.outside
  valid_left : ∀ r ∈ own, s.store.Valid r
  valid_right : ∀ r ∈ own, t.store.Valid r
  read_eq : ∀ r ∈ own, s.store.read r = t.store.read r

namespace Session.Alike

variable {own : Set Ref} {s s' t t' : Session V S R σ}

theorem of_keeps (h : s.Alike own t) (hs : s.Keeps own s') (ht : t.Keeps own t')
    (hout : s'.outside = t'.outside) : s'.Alike own t' where
  outside_eq := hout
  valid_left := fun r hr => hs.valid (h.valid_left r hr)
  valid_right := fun r hr => ht.valid (h.valid_right r hr)
  read_eq := fun r hr => (hs.read_eq r hr).trans ((h.read_eq r hr).trans (ht.read_eq r hr).symm)

theorem write (h : s.Alike own t) {r : Ref} (hr : r ∈ own) (v : V) :
    (s.write r v).Alike own (t.write r v) where
  outside_eq := h.outside_eq
  valid_left := fun r' hr' => (h.valid_left r' hr').write r
  valid_right := fun r' hr' => (h.valid_right r' hr').write r
  read_eq := by
    intro r' hr'
    by_cases heq : r = r'
    · subst heq
      exact (Store.read_write_self (h.valid_left r hr)).trans
        (Store.read_write_self (h.valid_right r hr)).symm
    · exact (Store.read_write_of_ne heq).trans
        ((h.read_eq r' hr').trans (Store.read_write_of_ne heq).symm)

theorem consult (h : s.Alike own t) (o : σ) :
    Session.Alike own { s with outside := o } { t with outside := o } :=
  ⟨rfl, h.valid_left, h.valid_right, h.read_eq⟩

end Session.Alike

/-! ## Operators that mind their argument and the caller's vectors only -/

/-- An operation can be applied to `v` with this result: both are there, neither is a scratch vector,
and the result is no vector of the caller. -/
structure Session.Applicable (own scratch : Set Ref) (result v : Ref) (s : Session V S R σ) :
    Prop where
  result_valid : s.store.Valid result
  argument_valid : s.store.Valid v
  result_not_mem : result ∉ own ∪ scratch
  argument_not_mem : v ∉ scratch

omit [Inhabited V] in
theorem Session.Applicable.consult {own scratch : Set Ref} {result v : Ref} {s : Session V S R σ}
    (h : s.Applicable own scratch result v) {o : σ} :
    Session.Applicable own scratch result v { s with outside := o } :=
  ⟨h.result_valid, h.argument_valid, h.result_not_mem, h.argument_not_mem⟩

theorem Session.Wrote.of_consult {W : Set Ref} {s s' : Session V S R σ} {o o' : σ}
    (h : Session.Wrote W { s with outside := o } s' o') : s.Wrote W s' o' where
  outside_eq := h.outside_eq
  buffers_eq := h.buffers_eq
  keeps := ⟨h.keeps.size_le, h.keeps.read_eq, h.keeps.log_eq, h.keeps.history_eq⟩

/-- In sessions that hold the same in the caller's vectors and in its argument, the operation ends alike
and writes the same, whatever its result and its scratch vectors have held. -/
def Blind (op : (result v : Ref) → Run V S R σ Unit) (own scratch : Set Ref) : Prop :=
  ∀ (s t : Session V S R σ) result v result' v', s.Alike own t →
    s.Applicable own scratch result v → t.Applicable own scratch result' v' →
    s.store.read v = t.store.read v' →
    Follows
      (fun _ s' _ t' => s'.outside = t'.outside ∧ s'.store.read result = t'.store.read result' ∧
        s.Wrote (insert result scratch) s' s'.outside ∧
        t.Wrote (insert result' scratch) t' t'.outside)
      (fun s' t' => s'.outside = t'.outside ∧ s.Wrote (insert result scratch) s' s'.outside ∧
        t.Wrote (insert result' scratch) t' t'.outside)
      (op result v) s (op result' v') t

theorem Blind.answers {op : (result v : Ref) → Run V S R σ Unit} {own scratch : Set Ref}
    (hop : Blind op own scratch) {s t : Session V S R σ} {result v result' v' : Ref}
    (halike : s.Alike own t) (h : s.Applicable own scratch result v)
    (h' : t.Applicable own scratch result' v') (hread : s.store.read v = t.store.read v') :
    ∃ A : Collab R σ V, Answers op (fun _ => A) scratch result v s ∧
      Answers op (fun _ => A) scratch result' v' t := by
  have hfollows := hop s t result v result' v' halike h h' hread
  have hsame : answerAt op result v s = answerAt op result' v' t := by
    funext o
    rcases hfollows.cases with ⟨_, s', _, t', hs, ht, hout, hresult, -⟩ |
      ⟨e, s', t', hs, ht, hout, -⟩
    · simp only [answerAt, hs, ht, hout, hresult]
    · simp only [answerAt, hs, ht, hout]
  refine ⟨answerAt op result v s, answers_of_ends (hfollows.ends.mono ?_ ?_), ?_⟩
  · rintro _ s' ⟨_, t', -, -, hwrote, -⟩
    exact hwrote
  · rintro s' ⟨t', -, hwrote, -⟩
    exact hwrote
  rw [hsame]
  refine answers_of_ends (hfollows.symm.ends.mono ?_ ?_)
  · rintro _ t' ⟨_, s', -, -, -, hwrote⟩
    exact hwrote
  · rintro t' ⟨s', -, -, hwrote⟩
    exact hwrote

theorem Computes.blind {op : (result v : Ref) → Run V S R σ Unit} {A : V → Collab R σ V}
    {own scratch : Set Ref} (h : ∀ s₀, Computes op A own scratch s₀) : Blind op own scratch := by
  intro s t result v result' v' halike hs ht hread
  have hleft := h s s result v (Session.Keeps.refl own s) hs.result_valid hs.argument_valid
    hs.result_not_mem hs.argument_not_mem
  have hright := h t t result' v' (Session.Keeps.refl own t) ht.result_valid ht.argument_valid
    ht.result_not_mem ht.argument_not_mem
  rw [hread, halike.outside_eq] at hleft
  refine (hleft.join hright).mono ?_ ?_
  · rintro _ s' _ t' ⟨y, o, ⟨hresult, hwrote⟩, hresult', hwrote'⟩
    exact ⟨hwrote.outside_eq.trans hwrote'.outside_eq.symm, hresult.trans hresult'.symm,
      hwrote.outside_eq.symm ▸ hwrote, hwrote'.outside_eq.symm ▸ hwrote'⟩
  · rintro s' t' ⟨o, hwrote, hwrote'⟩
    exact ⟨hwrote.outside_eq.trans hwrote'.outside_eq.symm, hwrote.outside_eq.symm ▸ hwrote,
      hwrote'.outside_eq.symm ▸ hwrote'⟩

theorem Blind.telling {op : (result v : Ref) → Run V S R σ Unit} {own scratch : Set Ref}
    (hop : Blind op own scratch) (tell : V → Collab R σ Unit) :
    Blind (fun result v => do
      let y ← Run.contents v
      Run.consult (tell y)
      op result v) own scratch := by
  intro s t result v result' v' halike h h' hread
  refine Follows.skip_left (Run.contents_run v) (Follows.skip_right (Run.contents_run v') ?_)
  rw [hread]
  have hleft := Run.consult_follows (tell (t.store.read v')) s
  have hright := Run.consult_follows (tell (t.store.read v')) t
  rw [halike.outside_eq] at hleft
  refine (hleft.join hright).bind_mono ?_ ?_
  · rintro _ _ ⟨o, rfl, rfl⟩
    exact ⟨rfl, (Session.Wrote.refl _ s).consult o, (Session.Wrote.refl _ t).consult o⟩
  rintro ⟨⟩ _ ⟨⟩ _ ⟨_, o, ⟨-, rfl⟩, -, rfl⟩
  have halike' := halike.consult o
  refine (hop _ _ result v result' v' halike' h.consult h'.consult hread).mono ?_ ?_
  · rintro _ s' _ t' ⟨hout, hresult, hwrote, hwrote'⟩
    exact ⟨hout, hresult, hwrote.of_consult, hwrote'.of_consult⟩
  · rintro s' t' ⟨hout, hwrote, hwrote'⟩
    exact ⟨hout, hwrote.of_consult, hwrote'.of_consult⟩

namespace LinearProblem

/-- The same problem with work vectors from elsewhere. -/
def supplied (p : LinearProblem V S R σ) (new : String → Run V S R σ Ref) : LinearProblem V S R σ :=
  { p with new := new }

/-- The caller's vectors, the unknown and the guarded ones, are no scratch vectors, and the operator
minds nothing else. -/
structure Closed (p : LinearProblem V S R σ) (guard scratch : Set Ref) : Prop where
  rhs_mem : p.rhs ∈ insert p.unknown guard
  not_mem : ∀ r ∈ insert p.unknown guard, r ∉ scratch
  unknown_not_mem : p.unknown ∉ guard
  blind : Blind p.operator (insert p.unknown guard) scratch

omit [Inhabited V] in
theorem Placed.supplied {p : LinearProblem V S R σ} {guard scratch : Set Ref} {s : Session V S R σ}
    (h : p.Placed guard scratch s) (new : String → Run V S R σ Ref) :
    (p.supplied new).Placed guard scratch s :=
  ⟨h.guard_valid, h.unknown_valid, h.disjoint, h.unknown_not_mem⟩

theorem Closed.placed {p : LinearProblem V S R σ} {guard scratch : Set Ref}
    (h : p.Closed guard scratch) {s : Session V S R σ}
    (hvalid : ∀ r ∈ insert p.unknown guard, s.store.Valid r) : p.Placed guard scratch s where
  guard_valid := fun r hr => hvalid r (Set.mem_insert_of_mem _ hr)
  unknown_valid := hvalid _ (Set.mem_insert _ _)
  disjoint := fun r hr => h.not_mem r (Set.mem_insert_of_mem _ hr)
  unknown_not_mem := by
    rintro (hg | hs)
    · exact h.unknown_not_mem hg
    · exact h.not_mem _ (Set.mem_insert _ _) hs

end LinearProblem

omit [Inhabited V] in
theorem Run.demand_follows {β : Type} {J : β → Session V S R σ → β → Session V S R σ → Prop}
    {E : Session V S R σ → Session V S R σ → Prop} {s t : Session V S R σ}
    {f g : α → Run V S R σ β} (x : Except (Fault R) α) (hE : E s t)
    (hf : ∀ a, Follows J E (f a) s (g a) t) :
    Follows J E (Run.demand x >>= f) s (Run.demand x >>= g) t := by
  cases x with
  | ok a => exact hf a
  | error e => exact Follows.of_error rfl rfl hE

namespace Gmres

/-! ## Calls side by side -/

variable {p : LinearProblem V S R σ} {new : String → Run V S R σ Ref} {guard scratch : Set Ref}
variable (sup : Supply p.new (p.own guard scratch))
variable (sup' : Supply (p.supplied new).new ((p.supplied new).own guard scratch))

/-- Two calls leave the same behind in the caller's vectors. -/
structure Matched (s t : Session V S R σ) : Prop where
  alike : s.Alike (insert p.unknown guard) t
  ready : sup.Ready s
  ready' : sup'.Ready t

/-- Two calls stand at the same place between steps of cycles, with work vectors of their own. -/
structure Abreast (r w r' w' : Ref) (s t : Session V S R σ) : Prop extends Matched sup sup' s t where
  has_r : sup.Has s "gmres_r" r
  has_w : sup.Has s "gmres_w" w
  has_r' : sup'.Has t "gmres_r" r'
  has_w' : sup'.Has t "gmres_w" w'

/-- In cycles begun at `s₀` and `t₀`, two calls have built the same. -/
structure Twin (s₀ t₀ : Session V S R σ) (r w r' w' : Ref) (s t : Session V S R σ)
    (c c' : Cycle Ref S) : Prop where
  left : Building sup s₀ r w s c.basis s.outside
  right : Building sup' t₀ r' w' t c'.basis s.outside
  valued_eq : c'.valued t.store = c.valued s.store

variable {sup sup'} {s₀ t₀ s t : Session V S R σ} {r w r' w' : Ref} {c c' : Cycle Ref S}

theorem Twin.alike (h : Twin sup sup' s₀ t₀ r w r' w' s t c c')
    (halike : s₀.Alike (insert p.unknown guard) t₀) : s.Alike (insert p.unknown guard) t :=
  halike.of_keeps h.left.keeps h.right.keeps h.right.outside_eq.symm

theorem Twin.abreast (h : Twin sup sup' s₀ t₀ r w r' w' s t c c')
    (halike : s₀.Alike (insert p.unknown guard) t₀) : Abreast sup sup' r w r' w' s t where
  alike := h.alike halike
  ready := h.left.ready
  ready' := h.right.ready
  has_r := h.left.has_r
  has_w := h.left.has_w
  has_r' := h.right.has_r
  has_w' := h.right.has_w

theorem not_mem_own_of_has {name : String} {v : Ref} (h : sup.Has s name v) :
    v ∉ insert p.unknown guard ∪ scratch := by
  obtain ⟨hunknown, hrest⟩ := not_own_of_has h
  rintro ((hv | hv) | hv)
  · exact hunknown hv
  · exact hrest (.inl hv)
  · exact hrest (.inr hv)

theorem Building.applicable {basis : List Ref} {o : σ} (h : Building sup s₀ r w s basis o) {v : Ref}
    (hv : v ∈ basis) : s.Applicable (insert p.unknown guard) scratch w v := by
  obtain ⟨name, hhas⟩ := h.exists_has hv
  exact ⟨h.w_valid, sup.valid hhas, not_mem_own_of_has h.has_w,
    fun hs => (not_own_of_has hhas).2 (.inr hs)⟩

variable [Scalar S] (g : Gmres S R) (lsq : LeastSquares S) (beta target : S)

/-- Steps from basis vectors that hold the same build the same. -/
theorem step_alike (hp : p.Closed guard scratch) (halike : s₀.Alike (insert p.unknown guard) t₀)
    (h : Twin sup sup' s₀ t₀ r w r' w' s t c c') {v v' : Ref} (hv : v ∈ c.basis) (hv' : v' ∈ c'.basis)
    (hread : s.store.read v = t.store.read v') (hlength : c.basis.length = c.columns.size + 1) :
    Follows
      (fun q s' q' t' => Twin sup sup' s₀ t₀ r w r' w' s' t' q.1 q'.1 ∧
        q'.2.map t'.store.read = q.2.map s'.store.read ∧
        (∀ next ∈ q.2, next ∈ q.1.basis ∧ q.1.basis.length = q.1.columns.size + 1) ∧
        ∀ next ∈ q'.2, next ∈ q'.1.basis)
      (Matched sup sup') (step g lsq p w beta target v c) s
      (step g lsq (p.supplied new) w' beta target v' c') t := by
  obtain ⟨hbasis, hcolumns, -⟩ := Cycle.mk.inj h.valued_eq
  have hlength' : c'.basis.length = c'.columns.size + 1 := by
    rw [hcolumns, ← hlength]
    simpa using congrArg List.length hbasis
  obtain ⟨A, hA, hA'⟩ := hp.blind.answers (h.alike halike) (h.left.applicable hv)
    (h.right.applicable hv') hread
  have hleft := step_answers g lsq beta target (hp.placed halike.valid_left) h.left hlength hA
  have hright := step_answers g lsq beta target
    ((hp.placed halike.valid_right).supplied new) h.right hlength' hA'
  rw [← hread, h.valued_eq] at hright
  refine (hleft.join hright).mono ?_ ?_
  · rintro q s' q' t' ⟨_, o, ⟨hbuild, rfl, hnext⟩, hbuild', heq, hnext'⟩
    obtain ⟨hvalued, hmap⟩ := Prod.mk.inj heq
    have hout : s'.outside = o := hbuild.outside_eq
    subst hout
    exact ⟨⟨hbuild, hbuild', hvalued.symm⟩, hmap.symm,
      fun next hmem => ⟨(hnext next hmem).1, (hnext next hmem).2.1⟩,
      fun next hmem => (hnext' next hmem).1⟩
  · rintro s' t' ⟨o, ⟨hout, hkeeps, hready⟩, hout', hkeeps', hready'⟩
    exact ⟨halike.of_keeps hkeeps hkeeps' (hout.trans hout'.symm), hready, hready'⟩

theorem steps_alike (hp : p.Closed guard scratch) (halike : s₀.Alike (insert p.unknown guard) t₀)
    (count : Nat) (h : Twin sup sup' s₀ t₀ r w r' w' s t c c') {v v' : Ref} (hv : v ∈ c.basis)
    (hv' : v' ∈ c'.basis) (hread : s.store.read v = t.store.read v')
    (hlength : c.basis.length = c.columns.size + 1) :
    Follows (fun d s' d' t' => Twin sup sup' s₀ t₀ r w r' w' s' t' d d') (Matched sup sup')
      (steps g lsq p w beta target count v c) s
      (steps g lsq (p.supplied new) w' beta target count v' c') t := by
  induction count generalizing s t c c' v v' with
  | zero => exact Follows.of_ok rfl rfl h
  | succ count ih =>
    obtain ⟨-, -, -, -, -, hspent⟩ := Cycle.mk.inj h.valued_eq
    unfold steps
    rw [hspent]
    refine Follows.ite (fun _ => ?_) fun _ => Follows.of_ok rfl rfl h
    refine (step_alike g lsq beta target hp halike h hv hv' hread hlength).bind ?_
    rintro ⟨d, next⟩ s' ⟨d', next'⟩ t' ⟨htwin, hsame, hnext, hnext'⟩
    cases next with
    | none =>
      cases next' with
      | none => exact Follows.of_ok rfl rfl htwin
      | some next' => exact absurd hsame (Option.some_ne_none _)
    | some next =>
      cases next' with
      | none => exact absurd hsame.symm (Option.some_ne_none _)
      | some next' =>
        obtain ⟨hmem, hlength'⟩ := hnext next rfl
        exact ih htwin hmem (hnext' next' rfl) (Option.some.inj hsame).symm hlength'

omit [Scalar S] in
theorem Abreast.of_keeps (h : Abreast sup sup' r w r' w' s t) {s' t' : Session V S R σ}
    (hs : s.Keeps (insert p.unknown guard) s') (ht : t.Keeps (insert p.unknown guard) t')
    (hbuffers : s'.buffers = s.buffers) (hbuffers' : t'.buffers = t.buffers)
    (hout : s'.outside = t'.outside) : Abreast sup sup' r w r' w' s' t' where
  alike := h.alike.of_keeps hs ht hout
  ready := sup.ready_of h.ready hbuffers hs.size_le
  ready' := sup'.ready_of h.ready' hbuffers' ht.size_le
  has_r := sup.has_of h.has_r hbuffers hs.size_le
  has_w := sup.has_of h.has_w hbuffers hs.size_le
  has_r' := sup'.has_of h.has_r' hbuffers' ht.size_le
  has_w' := sup'.has_of h.has_w' hbuffers' ht.size_le

omit [Scalar S] in
theorem Abreast.write_unknown (h : Abreast sup sup' r w r' w' s t) (x : V) :
    Abreast sup sup' r w r' w' (s.write p.unknown x) (t.write p.unknown x) where
  alike := h.alike.write (Set.mem_insert _ _) x
  ready := sup.ready_of h.ready rfl (Nat.le_of_eq Store.size_write.symm)
  ready' := sup'.ready_of h.ready' rfl (Nat.le_of_eq Store.size_write.symm)
  has_r := sup.has_of h.has_r rfl (Nat.le_of_eq Store.size_write.symm)
  has_w := sup.has_of h.has_w rfl (Nat.le_of_eq Store.size_write.symm)
  has_r' := sup'.has_of h.has_r' rfl (Nat.le_of_eq Store.size_write.symm)
  has_w' := sup'.has_of h.has_w' rfl (Nat.le_of_eq Store.size_write.symm)

theorem residualInto_alike (hp : p.Closed guard scratch) (h : Abreast sup sup' r w r' w' s t) :
    Follows
      (fun _ s' _ t' => Abreast sup sup' r w r' w' s' t' ∧ s'.store.read r = t'.store.read r')
      (Matched sup sup') (residualInto p r) s (residualInto (p.supplied new) r') t := by
  have hmem : p.unknown ∈ insert p.unknown guard := Set.mem_insert _ _
  have hplaced := hp.placed h.alike.valid_left
  have hplaced' := (hp.placed h.alike.valid_right).supplied new
  have hoperator := hp.blind s t r p.unknown r' p.unknown h.alike
    ⟨sup.valid h.has_r, h.alike.valid_left _ hmem, not_mem_own_of_has h.has_r, hp.not_mem _ hmem⟩
    ⟨sup'.valid h.has_r', h.alike.valid_right _ hmem, not_mem_own_of_has (p := p.supplied new) h.has_r',
      hp.not_mem _ hmem⟩
    (h.alike.read_eq _ hmem)
  unfold residualInto
  refine hoperator.bind_mono ?_ ?_
  · rintro s' t' ⟨hout, hwrote, hwrote'⟩
    exact (h.of_keeps (hwrote.keeps.mono (caller_subset hplaced h.has_r))
      (hwrote'.keeps.mono (caller_subset hplaced' h.has_r')) hwrote.buffers_eq hwrote'.buffers_eq
      hout).toMatched
  rintro ⟨⟩ s₁ ⟨⟩ t₁ ⟨hout, hread, hwrote, hwrote'⟩
  have h₁ := h.of_keeps (hwrote.keeps.mono (caller_subset hplaced h.has_r))
    (hwrote'.keeps.mono (caller_subset hplaced' h.has_r')) hwrote.buffers_eq hwrote'.buffers_eq hout
  refine Follows.of_ok (p.backend.addScaledInto_run r p.rhs r _)
    (p.backend.addScaledInto_run r' p.rhs r' _) ⟨?_, ?_⟩
  · refine h₁.of_keeps (Session.Keeps.write fun hr => not_mem_own_of_has h₁.has_r (.inl hr))
      (Session.Keeps.write fun hr => not_mem_own_of_has (p := p.supplied new) h₁.has_r' (.inl hr)) rfl rfl hout
  · rw [Session.store_write, Session.store_write, Store.read_write_self (sup.valid h₁.has_r),
      Store.read_write_self (sup'.valid h₁.has_r'), hread, h₁.alike.read_eq _ hp.rhs_mem]

theorem cycle_alike (hp : p.Closed guard scratch) (h : Abreast sup sup' r w r' w' s t)
    (hread : s.store.read r = t.store.read r') (spent : Nat) :
    Follows (fun c s' c' t' => Twin sup sup' s t r w r' w' s' t' c c') (Matched sup sup')
      (cycle g lsq p r w beta target spent) s
      (cycle g lsq (p.supplied new) r' w' beta target spent) t := by
  have hbuild := Building.nil h.ready h.has_r h.has_w
  have hbuild' := Building.nil h.ready' h.has_r' h.has_w'
  obtain ⟨v, s₁, hnew, hall, h₁, hgrow⟩ := hbuild.grow (hp.placed h.alike.valid_left)
  obtain ⟨v', t₁, hnew', hall', h₁', hgrow'⟩ :=
    hbuild'.grow ((hp.placed h.alike.valid_right).supplied new)
  have hopen : Twin sup sup' s t r w r' w' s₁ t₁ ⟨[], #[], [], beta, false, spent⟩
      ⟨[], #[], [], beta, false, spent⟩ := by
    refine ⟨h₁.outside_eq ▸ h₁, ?_, rfl⟩
    rw [h₁.outside_eq, h.alike.outside_eq]
    exact h₁'
  unfold cycle
  refine Follows.skip_left hnew (Follows.skip_right hnew' ?_)
  rw [Run.reciprocal_eq]
  refine Run.demand_follows _ (hopen.abreast h.alike).toMatched fun d => ?_
  refine Follows.skip_left (p.backend.scaleInto_run v r d)
    (Follows.skip_right (p.backend.scaleInto_run v' r' d) ?_)
  rw [hall.read_eq r (sup.valid h.has_r), hall'.read_eq r' (sup'.valid h.has_r'), ← hread]
  obtain ⟨hleft, -, hreadv⟩ := hgrow (p.backend.scale (s.store.read r) d)
  obtain ⟨hright, -, hreadv'⟩ := hgrow' (p.backend.scale (s.store.read r) d)
  have hstart : Twin sup sup' s t r w r' w' (s₁.write v (p.backend.scale (s.store.read r) d))
      (t₁.write v' (p.backend.scale (s.store.read r) d)) (Cycle.start v beta spent)
      (Cycle.start v' beta spent) := by
    refine ⟨hleft.outside_eq ▸ hleft, ?_, ?_⟩
    · rw [hleft.outside_eq, h.alike.outside_eq]
      exact hright
    · simp only [Cycle.valued, Cycle.start, List.map_singleton, hreadv, hreadv']
  refine Run.demand_follows g.restart (hstart.abreast h.alike).toMatched fun count => ?_
  exact steps_alike g lsq beta target hp h.alike count hstart (List.mem_singleton_self v)
    (List.mem_singleton_self v') (hreadv.trans hreadv'.symm) rfl

theorem cycles_alike (hp : p.Closed guard scratch) (fuel spent begun : Nat)
    (h : Abreast sup sup' r w r' w' s t) :
    Follows (fun account s' account' t' => account = account' ∧ Matched sup sup' s' t')
      (Matched sup sup') (cycles g lsq p r w target fuel spent begun) s
      (cycles g lsq (p.supplied new) r' w' target fuel spent begun) t := by
  induction fuel generalizing s t spent begun with
  | zero => exact Follows.of_ok rfl rfl ⟨rfl, h.toMatched⟩
  | succ fuel ih =>
    unfold cycles
    refine Follows.ite (fun _ => ?_) fun _ => Follows.of_ok rfl rfl ⟨rfl, h.toMatched⟩
    refine (residualInto_alike hp h).bind ?_
    rintro ⟨⟩ s₁ ⟨⟩ t₁ ⟨h₁, hread⟩
    refine Follows.skip_left (p.lengthAt_run r s₁)
      (Follows.skip_right ((p.supplied new).lengthAt_run r' t₁) ?_)
    rw [hread]
    refine Follows.ite (fun _ => Follows.of_ok rfl rfl ⟨rfl, h₁.toMatched⟩) fun _ => ?_
    refine Follows.ite (fun _ => Follows.of_ok rfl rfl ⟨rfl, h₁.toMatched⟩) fun _ => ?_
    refine (cycle_alike g lsq _ target hp h₁ hread spent).bind ?_
    intro c s₂ c' t₂ htwin
    have h₂ := htwin.abreast h₁.alike
    obtain ⟨hbasis, hcolumns, hcoefficients, hresidual, hbroke, hspent⟩ := Cycle.mk.inj htwin.valued_eq
    have hunknown : p.unknown ∈ insert p.unknown guard := Set.mem_insert _ _
    rw [hcolumns, hcoefficients, hresidual, hbroke, hspent]
    refine Follows.ite (fun _ => Follows.of_ok rfl rfl ⟨rfl, h₂.toMatched⟩) fun _ => ?_
    refine Follows.skip_left
      (combine_run p (h₂.alike.valid_left _ hunknown) htwin.left.unknown_not_mem)
      (Follows.skip_right (combine_run (p.supplied new) (h₂.alike.valid_right _ hunknown)
        htwin.right.unknown_not_mem) ?_)
    have hvalue : t₂.store.read (p.supplied new).unknown = s₂.store.read p.unknown :=
      (h₂.alike.read_eq _ hunknown).symm
    rw [hbasis, hvalue]
    have h₃ := h₂.write_unknown
      (combination p.backend (s₂.store.read p.unknown) (c.basis.map s₂.store.read) c.coefficients)
    refine Follows.ite (fun _ => Follows.of_ok rfl rfl ⟨rfl, h₃.toMatched⟩) fun _ => ?_
    refine Follows.ite (fun _ => Follows.of_ok rfl rfl ⟨rfl, h₃.toMatched⟩) fun _ => ?_
    exact ih c.spent (begun + 1) h₃

/-- Two calls of one problem, with work vectors from different places, go the same way. -/
theorem call_alike (hp : p.Closed guard scratch) (h : Matched sup sup' s t) :
    Follows (fun account s' account' t' => account = account' ∧ Matched sup sup' s' t')
      (Matched sup sup') (call g lsq p) s (call g lsq (p.supplied new)) t := by
  have hplaced := hp.placed h.alike.valid_left
  have hplaced' := (hp.placed h.alike.valid_right).supplied new
  obtain ⟨r, w, s₁, s₂, hnew_r, hnew_w, hkeeps, hopen⟩ := Refining.opening sup hplaced h.ready
  obtain ⟨r', w', t₁, t₂, hnew_r', hnew_w', hkeeps', hopen'⟩ :=
    Refining.opening sup' hplaced' h.ready'
  have h₂ : Abreast sup sup' r w r' w' s₂ t₂ :=
    { alike := h.alike.of_keeps (hkeeps.mono h.alike.valid_left) (hkeeps'.mono h.alike.valid_right)
        (hopen.outside_eq.trans (h.alike.outside_eq.trans hopen'.outside_eq.symm))
      ready := hopen.ready
      ready' := hopen'.ready
      has_r := hopen.has_r
      has_w := hopen.has_w
      has_r' := hopen'.has_r
      has_w' := hopen'.has_w }
  have hrhs : t₂.store.read (p.supplied new).rhs = s₂.store.read p.rhs :=
    (h₂.alike.read_eq _ hp.rhs_mem).symm
  have hunknown : t₂.store.read (p.supplied new).unknown = s₂.store.read p.unknown :=
    (h₂.alike.read_eq _ (Set.mem_insert _ _)).symm
  unfold call
  refine Follows.skip_left hnew_r (Follows.skip_left hnew_w ?_)
  refine Follows.skip_right hnew_r' (Follows.skip_right hnew_w' ?_)
  refine Follows.skip_left (p.lengthAt_run p.rhs s₂)
    (Follows.skip_right ((p.supplied new).lengthAt_run (p.supplied new).rhs t₂) ?_)
  rw [hrhs]
  refine Follows.ite (fun _ => ?_) fun _ => ?_
  · refine Follows.skip_left (p.backend.scaleInto_run p.unknown p.unknown _)
      (Follows.skip_right (p.backend.scaleInto_run p.unknown p.unknown _) ?_)
    have hvalue : t₂.store.read p.unknown = s₂.store.read p.unknown := hunknown
    rw [hvalue]
    exact Follows.of_ok rfl rfl ⟨rfl, (h₂.write_unknown _).toMatched⟩
  refine Run.demand_follows g.tol h₂.toMatched fun tol => ?_
  exact cycles_alike g lsq _ hp g.maxiter 0 0 h₂

end Gmres

/-! ## Calls one after the other -/

/-- Never fails: the cause of a failure is the result. -/
def Run.outcome (act : Run V S R σ α) : Run V S R σ (Except (Fault R) α) := fun s =>
  match act s with
  | .ok a s' => .ok (.ok a) s'
  | .error e s' => .ok (.error e) s'

omit [Inhabited V] in
theorem Run.outcome_follows {M : Session V S R σ → Session V S R σ → Prop} {act act' : Run V S R σ α}
    {s t : Session V S R σ} (h : Follows (fun a s' a' t' => a = a' ∧ M s' t') M act s act' t) :
    Follows (fun u s' u' t' => u = u' ∧ M s' t') (fun _ _ => False) (Run.outcome act) s
      (Run.outcome act') t := by
  rcases h.cases with ⟨a, s', _, t', hs, ht, rfl, hM⟩ | ⟨e, s', t', hs, ht, hM⟩
  · exact Follows.of_ok (by rw [outcome, hs]) (by rw [outcome, ht]) ⟨rfl, hM⟩
  · exact Follows.of_ok (by rw [outcome, hs]) (by rw [outcome, ht]) ⟨rfl, hM⟩

/-- A call as its caller makes it: what he puts into his vectors before it, with which parameters he makes
it and on which problem. -/
structure Job (V S R σ : Type) where
  given : List (Ref × V)
  solver : Gmres S R
  lsq : LeastSquares S
  operator : (result v : Ref) → Run V S R σ Unit
  rhs : Ref
  unknown : Ref

namespace Job

variable [Scalar S] (K : Backend S V) (new : String → Run V S R σ Ref) (tell : V → Collab R σ Unit)

/-- The problem of a call. `tell` is told what the operator is applied to, each time before it is. -/
def problem (job : Job V S R σ) : LinearProblem V S R σ where
  backend := K
  new := new
  operator result v := do
    let y ← Run.contents v
    Run.consult (tell y)
    job.operator result v
  rhs := job.rhs
  unknown := job.unknown

/-- Makes the call, and returns how it has ended and what its unknown holds then. -/
def run (job : Job V S R σ) : Run V S R σ (Except (Fault R) Gmres.Account × V) := do
  forM job.given fun e => Run.overwrite e.1 e.2
  let outcome ← Run.outcome (job.solver.call job.lsq (job.problem K new tell))
  let x ← Run.contents job.unknown
  pure (outcome, x)

/-- Makes the calls one after the other, also after failures. -/
def runAll (jobs : List (Job V S R σ)) : Run V S R σ (List (Except (Fault R) Gmres.Account × V)) :=
  jobs.mapM (run K new tell)

/-- All vectors of the call are the caller's, and its operator minds nothing else. -/
structure Fits (own scratch : Set Ref) (job : Job V S R σ) : Prop where
  given_mem : ∀ e ∈ job.given, e.1 ∈ own
  rhs_mem : job.rhs ∈ own
  unknown_mem : job.unknown ∈ own
  blind : Blind job.operator own scratch

variable {K new tell}

omit [Scalar S] in
theorem Fits.closed {own scratch : Set Ref} {job : Job V S R σ} (h : job.Fits own scratch)
    (hdisjoint : ∀ r ∈ own, r ∉ scratch) :
    insert job.unknown (own \ {job.unknown}) = own ∧
      (job.problem K new tell).Closed (own \ {job.unknown}) scratch := by
  have hown : insert job.unknown (own \ {job.unknown}) = own :=
    Set.insert_sdiff_self_of_mem h.unknown_mem
  refine ⟨hown, ?_, ?_, fun hmem => hmem.2 rfl, ?_⟩
  · exact hown.symm ▸ h.rhs_mem
  · exact hown.symm ▸ hdisjoint
  · exact hown.symm ▸ h.blind.telling tell

end Job

/-- Two sessions hold the same in the caller's vectors. The buffers of the first one are none of them. -/
structure Session.Beside (own scratch : Set Ref) (s t : Session V S R σ) : Prop where
  alike : s.Alike own t
  apart : s.Apart (own ∪ scratch)
  valid : ∀ r ∈ own ∪ scratch, t.store.Valid r

theorem Session.Beside.write {own scratch : Set Ref} {s t : Session V S R σ}
    (h : s.Beside own scratch t) {r : Ref} (hr : r ∈ own) (v : V) :
    (s.write r v).Beside own scratch (t.write r v) where
  alike := h.alike.write hr v
  apart := h.apart.of_buffers_eq rfl (Nat.le_of_eq Store.size_write.symm)
  valid := fun r' hr' => (h.valid r' hr').write r

namespace Job

variable [Scalar S] {K : Backend S V} {tell : V → Collab R σ Unit} {own scratch : Set Ref}
variable {s t : Session V S R σ}

omit [Scalar S] in
theorem given_beside (given : List (Ref × V)) (hgiven : ∀ e ∈ given, e.1 ∈ own)
    (h : s.Beside own scratch t) :
    Follows (fun _ s' _ t' => s'.Beside own scratch t') (fun _ _ => False)
      (forM given fun e => Run.overwrite e.1 e.2) s (forM given fun e => Run.overwrite e.1 e.2) t := by
  induction given generalizing s t with
  | nil => exact Follows.of_ok rfl rfl h
  | cons e given ih =>
    obtain ⟨hmem, hrest⟩ := List.forall_mem_cons.mp hgiven
    rw [List.forM_cons]
    exact Follows.skip_left (Run.overwrite_run e.1 e.2)
      (Follows.skip_right (Run.overwrite_run e.1 e.2) (ih hrest (h.write hmem e.2)))

theorem run_beside {job : Job V S R σ} (hfits : job.Fits own scratch)
    (hdisjoint : ∀ r ∈ own, r ∉ scratch) (h : s.Beside own scratch t) :
    Follows (fun report s' report' t' => report = report' ∧ s'.Beside own scratch t')
      (fun _ _ => False) (job.run K (Run.keptAs K.new) tell) s (job.run K K.new tell) t := by
  let p := job.problem K (Run.keptAs K.new) tell
  obtain ⟨hinsert, hclosed⟩ : insert p.unknown (own \ {p.unknown}) = own ∧
      p.Closed (own \ {p.unknown}) scratch := hfits.closed hdisjoint
  have hown : p.own (own \ {p.unknown}) scratch = own ∪ scratch := by
    rw [LinearProblem.own, ← Set.insert_union, hinsert]
  have hmatched : ∀ s t : Session V S R σ, s.Beside own scratch t ↔
      Gmres.Matched (Supply.kept K (p.own (own \ {p.unknown}) scratch))
        (Supply.fresh K ((p.supplied K.new).own (own \ {p.unknown}) scratch)) s t := by
    intro s t
    have hvalid : (∀ r ∈ own ∪ scratch, t.store.Valid r) ↔
        (Supply.fresh K ((p.supplied K.new).own (own \ {p.unknown}) scratch)).Ready t := by
      rw [← hown]
      exact Iff.rfl
    have hapart : s.Apart (own ∪ scratch) ↔
        (Supply.kept K (p.own (own \ {p.unknown}) scratch)).Ready s := by
      rw [hown]
      exact Iff.rfl
    constructor
    · intro h
      exact ⟨hinsert.symm ▸ h.alike, hapart.mp h.apart, hvalid.mp h.valid⟩
    · intro h
      exact ⟨hinsert ▸ h.alike, hapart.mpr h.ready, hvalid.mpr h.ready'⟩
  unfold run
  refine (given_beside job.given hfits.given_mem h).bind_mono (fun _ _ hno => hno) ?_
  intro _ s₁ _ t₁ h₁
  have hcall := Gmres.call_alike job.solver job.lsq hclosed ((hmatched s₁ t₁).mp h₁)
  refine (Run.outcome_follows hcall).bind ?_
  rintro outcome s₂ _ t₂ ⟨rfl, hend⟩
  have h₂ := (hmatched s₂ t₂).mpr hend
  refine Follows.skip_left (Run.contents_run job.unknown)
    (Follows.skip_right (Run.contents_run job.unknown) ?_)
  rw [h₂.alike.read_eq _ hfits.unknown_mem]
  exact Follows.of_ok rfl rfl ⟨rfl, h₂⟩

/-- Calls on kept work vectors end as the same calls do on new ones: each with the same account or for the
same cause, with the same unknown, and with the collaborators, who are told what the operators are applied
to, in the same state. -/
theorem runAll_kept_eq_fresh (jobs : List (Job V S R σ)) (tell : V → Collab R σ Unit)
    (hfits : ∀ job ∈ jobs, job.Fits own scratch) (hdisjoint : ∀ r ∈ own, r ∉ scratch)
    (h : s.Beside own scratch t) :
    ∃ reports s' t', runAll K (Run.keptAs K.new) tell jobs s = .ok reports s' ∧
      runAll K K.new tell jobs t = .ok reports t' ∧ s'.Beside own scratch t' := by
  induction jobs generalizing s t with
  | nil => exact ⟨[], s, t, rfl, rfl, h⟩
  | cons job jobs ih =>
    obtain ⟨hfit, hrest⟩ := List.forall_mem_cons.mp hfits
    rcases (run_beside hfit hdisjoint h).cases with ⟨report, s₁, _, t₁, hs, ht, rfl, h₁⟩ |
      ⟨_, _, _, -, -, hno⟩
    · obtain ⟨reports, s', t', hs', ht', h'⟩ := ih hrest h₁
      refine ⟨report :: reports, s', t', ?_, ?_, h'⟩
      · unfold runAll at hs' ⊢
        rw [List.mapM_cons, bind_run_ok hs, bind_run_ok hs']
        rfl
      · unfold runAll at ht' ⊢
        rw [List.mapM_cons, bind_run_ok ht, bind_run_ok ht']
        rfl
    · exact hno.elim

/-- Two calls on the vectors `⟨0⟩` and `⟨1⟩`, the second one with another start and another operator. -/
def pair (a a' : V → V) (g g' : Gmres S R) (lsq : LeastSquares S) (x : V) : List (Job V S R σ) :=
  [⟨[], g, lsq, (Residual.whole fun y => pure (a y)).into, ⟨0⟩, ⟨1⟩⟩,
    ⟨[(⟨1⟩, x)], g', lsq, (Residual.whole fun y => pure (a' y)).into, ⟨0⟩, ⟨1⟩⟩]

omit [Scalar S] in
theorem pair_fits (a a' : V → V) (g g' : Gmres S R) (lsq : LeastSquares S) (x : V) :
    ∀ job ∈ (pair a a' g g' lsq x : List (Job V S R σ)), job.Fits {⟨0⟩, ⟨1⟩} ∅ := by
  intro job hmem
  have hblind : ∀ f : V → V, Blind (S := S) (R := R) (σ := σ)
      (Residual.whole fun y => pure (f y)).into {⟨0⟩, ⟨1⟩} ∅ :=
    fun f => Computes.blind (Residual.into_computes _ _)
  simp only [pair, List.mem_cons, List.not_mem_nil, or_false] at hmem
  rcases hmem with rfl | rfl
  · exact ⟨nofun, .inl rfl, .inr rfl, hblind a⟩
  · exact ⟨List.forall_mem_singleton.mpr (.inr rfl), .inl rfl, .inr rfl, hblind a'⟩

/-- A session with two vectors of the caller, and with a kept work vector that is not empty. -/
def stale (b x w : V) (o : σ) : Session V S R σ :=
  { (Session.fresh b x o).push "gmres_w" w with
    buffers := ({} : Buffers).insert "gmres_w" (Session.fresh (S := S) (R := R) b x o).store.next }

omit [Scalar S] in
theorem stale_beside (b x w : V) (o : σ) :
    (stale b x w o : Session V S R σ).Beside {⟨0⟩, ⟨1⟩} ∅ (stale b x w o) := by
  have hvalid : ∀ r ∈ ({⟨0⟩, ⟨1⟩} ∪ ∅ : Set Ref),
      (Session.fresh (S := S) (R := R) b x o).store.Valid r := by
    rintro r ((rfl | rfl) | hr)
    · exact Nat.zero_lt_two
    · exact Nat.one_lt_two
    · exact hr.elim
  have hapart := (Session.Apart.of_no_buffers hvalid rfl).keep "gmres_w" w
  exact ⟨⟨rfl, fun r hr => hapart.own_valid r (.inl hr), fun r hr => hapart.own_valid r (.inl hr),
    fun _ _ => rfl⟩, hapart, hapart.own_valid⟩

end Job

/-- Two calls whose operators take down what they are applied to, beginning with a stale work vector. -/
theorem Job.pair_kept_eq_fresh :
    ∃ reports s' t',
      Job.runAll ((Component.plain Float).backend 2)
          (Run.keptAs ((Component.plain Float).backend 2).new)
          (fun y => modify fun trace => trace ++ [y])
          (Job.pair (R := Float) (·.map (2 * ·)) Vector.reverse ⟨.ok 1e-10, .ok 2, 4, .ok 1e-12⟩
            ⟨.ok 1e-6, .ok 1, 3, .ok 1e-12⟩ LeastSquares.minimumNorm #v[5, 6])
          (Job.stale #v[1, 2] #v[3, 4] #v[7, 8] []) = .ok reports s' ∧
        Job.runAll ((Component.plain Float).backend 2) ((Component.plain Float).backend 2).new
          (fun y => modify fun trace => trace ++ [y])
          (Job.pair (R := Float) (·.map (2 * ·)) Vector.reverse ⟨.ok 1e-10, .ok 2, 4, .ok 1e-12⟩
            ⟨.ok 1e-6, .ok 1, 3, .ok 1e-12⟩ LeastSquares.minimumNorm #v[5, 6])
          (Job.stale #v[1, 2] #v[3, 4] #v[7, 8] []) = .ok reports t' ∧
        s'.outside = t'.outside ∧ s'.store.read ⟨1⟩ = t'.store.read ⟨1⟩ := by
  obtain ⟨reports, s', t', hs, ht, h⟩ := Job.runAll_kept_eq_fresh
    (K := (Component.plain Float).backend 2) _ (fun y => modify fun trace => trace ++ [y])
    (Job.pair_fits _ _ _ _ _ _) (fun _ _ hr => hr)
    (Job.stale_beside #v[1, 2] #v[3, 4] #v[7, 8] [])
  exact ⟨reports, s', t', hs, ht, h.alike.outside_eq, h.alike.read_eq ⟨1⟩ (.inr rfl)⟩

end NewtonKrylov
