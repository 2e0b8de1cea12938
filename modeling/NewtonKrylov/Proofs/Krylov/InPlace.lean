import NewtonKrylov.Proofs.Krylov.Values
import NewtonKrylov.Proofs.Krylov.WorkVectors

/-!
# GMRES in place

`Gmres.call_follows`: solving in place, on shared vectors and with work vectors that may hold
anything when they are handed out, does what `Gmres.refine` does on values. The right-hand side and
every vector the operator reads by reference (`guard`) are left alone, and the unknown is written only
where the refinement on values changes it.

What is assumed of a problem is `LinearProblem.Posed`: its operator computes a function of its
argument as long as the guarded vectors hold what they did, writing besides its result only `scratch`
vectors; the unknown is neither. The invariant of a cycle is `Building`: the basis vectors are held
under their own names, so no request hands one out again, and `w` is none of them.
-/

namespace NewtonKrylov

variable {V S R σ α : Type}

theorem Run.demand_bind {β γ t : Type} {K : β → Session V S R σ → γ → t → Prop}
    {E : Session V S R σ → t → Prop} {s : Session V S R σ} {b : t} {f : α → Run V S R σ β}
    {g : α → EStateM (Fault R) t γ} (x : Except (Fault R) α) (hE : E s b)
    (hf : ∀ a, Follows K E (f a) s (g a) b) :
    Follows K E (Run.demand x >>= f) s (LineSearch.orFail x >>= g) b := by
  cases x with
  | ok a => exact hf a
  | error e => exact Follows.of_error rfl rfl hE

theorem Run.demand_ends {β : Type} {Q : β → Session V S R σ → Prop} {E : Session V S R σ → Prop}
    {s : Session V S R σ} {f : α → Run V S R σ β} (x : Except (Fault R) α) (hE : E s)
    (hf : ∀ a, Ends Q E (f a) s) : Ends Q E (Run.demand x >>= f) s := by
  cases x with
  | ok a => exact hf a
  | error e => exact Ends.of_error rfl hE

theorem Run.reciprocal_eq [Scalar S] (x : S) :
    (Run.reciprocal x : Run V S R σ S) = Run.demand (Scalar.reciprocal x) := by
  unfold Run.reciprocal Scalar.reciprocal
  split
  · rfl
  · rfl

theorem OnUnknown.consult_bind {β : Type} (act : Collab R σ α) (f : α → Collab R σ β) :
    (OnUnknown.consult (act >>= f) : OnUnknown V R σ β) =
      OnUnknown.consult act >>= fun a => OnUnknown.consult (f a) := by
  refine within_bind ?_ ?_ act f
  · exact fun _ _ => rfl
  · exact fun _ _ _ => rfl

theorem OnUnknown.consult_pure (a : α) :
    (OnUnknown.consult (pure a : Collab R σ α) : OnUnknown V R σ α) = pure a := rfl

theorem OnUnknown.consult_orFail (x : Except (Fault R) α) :
    (OnUnknown.consult (LineSearch.orFail x : Collab R σ α) : OnUnknown V R σ α) =
      LineSearch.orFail x := by
  cases x with
  | ok a => rfl
  | error e => rfl

variable [Inhabited V]

/-! ## Problems whose operator computes a function -/

/-- At session `s`, the operation writes into `result` what `A` makes of the contents of `v`. -/
def Answers (op : (result v : Ref) → Run V S R σ Unit) (A : V → Collab R σ V) (scratch : Set Ref)
    (result v : Ref) (s : Session V S R σ) : Prop :=
  Follows (fun _ s' y o => s'.store.read result = y ∧ s.Wrote (insert result scratch) s' o)
    (fun s' o => s.Wrote (insert result scratch) s' o)
    (op result v) s (A (s.store.read v)) s.outside

/-- As long as the guarded vectors hold what they held in `s₀`, the operation writes what `A` makes of
its argument. -/
def Computes (op : (result v : Ref) → Run V S R σ Unit) (A : V → Collab R σ V)
    (guard scratch : Set Ref) (s₀ : Session V S R σ) : Prop :=
  ∀ s result v, s₀.Keeps guard s → s.store.Valid result → s.store.Valid v →
    result ∉ guard ∪ scratch → v ∉ scratch →
    Follows (fun _ s' y o => s'.store.read result = y ∧ s.Wrote (insert result scratch) s' o)
      (fun s' o => s.Wrote (insert result scratch) s' o)
      (op result v) s (A (s.store.read v)) s.outside

theorem Computes.of_keeps {op : (result v : Ref) → Run V S R σ Unit} {A : V → Collab R σ V}
    {guard scratch : Set Ref} {s₀ s₁ : Session V S R σ} (h : Computes op A guard scratch s₀)
    (hkeeps : s₀.Keeps guard s₁) : Computes op A guard scratch s₁ :=
  fun s result v hs => h s result v (hkeeps.trans hs)

/-- The problem asks for `A x = b`, from the session `s` on. -/
structure LinearProblem.Posed (p : LinearProblem V S R σ) (A : V → Collab R σ V)
    (guard scratch : Set Ref) (s : Session V S R σ) : Prop where
  computes : Computes p.operator A guard scratch s
  rhs_mem : p.rhs ∈ guard
  guard_valid : ∀ r ∈ guard, s.store.Valid r
  unknown_valid : s.store.Valid p.unknown
  disjoint : ∀ r ∈ guard, r ∉ scratch
  unknown_not_mem : p.unknown ∉ guard ∪ scratch

theorem LinearProblem.Posed.of_keeps {p : LinearProblem V S R σ} {A : V → Collab R σ V}
    {guard scratch : Set Ref} {s s' : Session V S R σ} (h : p.Posed A guard scratch s)
    (hkeeps : s.Keeps guard s') : p.Posed A guard scratch s' where
  computes := h.computes.of_keeps hkeeps
  rhs_mem := h.rhs_mem
  guard_valid := fun r hr => hkeeps.valid (h.guard_valid r hr)
  unknown_valid := hkeeps.valid h.unknown_valid
  disjoint := h.disjoint
  unknown_not_mem := h.unknown_not_mem

/-- The unknown and the guarded vectors are there and apart; nothing is said about the operator. -/
structure LinearProblem.Placed (p : LinearProblem V S R σ) (guard scratch : Set Ref)
    (s : Session V S R σ) : Prop where
  guard_valid : ∀ r ∈ guard, s.store.Valid r
  unknown_valid : s.store.Valid p.unknown
  disjoint : ∀ r ∈ guard, r ∉ scratch
  unknown_not_mem : p.unknown ∉ guard ∪ scratch

theorem LinearProblem.Posed.placed {p : LinearProblem V S R σ} {A : V → Collab R σ V}
    {guard scratch : Set Ref} {s : Session V S R σ} (h : p.Posed A guard scratch s) :
    p.Placed guard scratch s :=
  ⟨h.guard_valid, h.unknown_valid, h.disjoint, h.unknown_not_mem⟩

theorem LinearProblem.Placed.of_keeps {p : LinearProblem V S R σ} {guard scratch : Set Ref}
    {s s' : Session V S R σ} (h : p.Placed guard scratch s) (hkeeps : s.Keeps guard s') :
    p.Placed guard scratch s' where
  guard_valid := fun r hr => hkeeps.valid (h.guard_valid r hr)
  unknown_valid := hkeeps.valid h.unknown_valid
  disjoint := h.disjoint
  unknown_not_mem := h.unknown_not_mem

/-- The vectors of the caller. -/
def LinearProblem.own (p : LinearProblem V S R σ) (guard scratch : Set Ref) : Set Ref :=
  insert p.unknown (guard ∪ scratch)

namespace Gmres

/-! ## Names of work vectors -/

theorem basisName_injective {i j : Nat} (h : basisName i = basisName j) : i = j := by
  have hdigits := congrArg String.toList h
  simp only [basisName, String.toList_append, List.append_cancel_left_eq, Nat.toString_eq_repr,
    Nat.toList_repr] at hdigits
  rw [← Nat.ofDigitChars_ten_toDigits (n := i), hdigits, Nat.ofDigitChars_ten_toDigits]

theorem basisName_ne (j : Nat) : basisName j ≠ "gmres_r" ∧ basisName j ≠ "gmres_w" := by
  constructor
  all_goals
    intro h
    have h' := congrArg String.toList h
    simp [basisName, String.toList_append] at h'

/-! ## Loops over the basis -/

theorem orthogonalise_run [Scalar S] (p : LinearProblem V S R σ) {w : Ref} {vs : List Ref}
    {s : Session V S R σ} (hvalid : s.store.Valid w) (hw : w ∉ vs) :
    orthogonalise p w vs s =
      .ok (project p.backend (s.store.read w) (vs.map s.store.read)).2
        (s.write w (project p.backend (s.store.read w) (vs.map s.store.read)).1) := by
  induction vs generalizing s with
  | nil =>
    simp only [List.map_nil, project, Session.write_read]
    rfl
  | cons v vs ih =>
    have hvs : w ∉ vs := fun h => hw (List.mem_cons_of_mem v h)
    rw [orthogonalise, bind_run_ok (p.backend.dotAt_run w v),
      bind_run_ok (p.backend.addScaledWideInto_run w w v _), bind_run_ok (ih (hvalid.write w) hvs)]
    have hread : ∀ x, (s.write w x).store.read w = x := fun x => Store.read_write_self hvalid
    have hmap : ∀ x, vs.map (s.write w x).store.read = vs.map s.store.read := by
      intro x
      apply List.map_congr_left
      intro r hr
      exact Store.read_write_of_ne fun e => hvs (e ▸ hr)
    simp only [hread, hmap, Session.write_write, List.map_cons, project]
    rfl

theorem combine_run (p : LinearProblem V S R σ) {vs : List Ref} {ys : List S}
    {s : Session V S R σ} (hvalid : s.store.Valid p.unknown) (hvs : p.unknown ∉ vs) :
    combine p vs ys s = .ok ()
      (s.write p.unknown
        (combination p.backend (s.store.read p.unknown) (vs.map s.store.read) ys)) := by
  induction vs generalizing s ys with
  | nil =>
    simp only [List.map_nil, combination, Session.write_read]
    rfl
  | cons v vs ih =>
    cases ys with
    | nil =>
      simp only [List.map_cons, combination, Session.write_read]
      rfl
    | cons y ys =>
      have hvs : p.unknown ∉ vs := fun h => hvs (List.mem_cons_of_mem v h)
      rw [combine, bind_run_ok (p.backend.addScaledInto_run p.unknown p.unknown v y),
        ih (hvalid.write p.unknown) hvs]
      have hmap : ∀ x, vs.map (s.write p.unknown x).store.read = vs.map s.store.read := by
        intro x
        apply List.map_congr_left
        intro r hr
        exact Store.read_write_of_ne fun e => hvs (e ▸ hr)
      have hread : ∀ x, (s.write p.unknown x).store.read p.unknown = x :=
        fun x => Store.read_write_self hvalid
      simp only [hread, hmap, Session.write_write, List.map_cons, combination]

/-! ## Cycles -/

/-- The cycle with its basis vectors read from a store. -/
def Cycle.valued (c : Cycle Ref S) (store : Store V) : Cycle V S :=
  ⟨c.basis.map store.read, c.columns, c.coefficients, c.residual, c.brokeDown, c.spent⟩

section Simulation

variable {p : LinearProblem V S R σ} {A : V → Collab R σ V} {guard scratch : Set Ref}
variable (sup : Supply p.new (p.own guard scratch)) (s₀ : Session V S R σ) (r w : Ref)

/-- At session `s` a cycle has built the given basis vectors. `s₀` is the session where it began. -/
structure Building (s : Session V S R σ) (basis : List Ref) (o : σ) : Prop where
  outside_eq : s.outside = o
  keeps : s₀.Keeps (insert p.unknown guard) s
  ready : sup.Ready s
  has_r : sup.Has s "gmres_r" r
  has_w : sup.Has s "gmres_w" w
  has_basis : ∀ i (h : i < basis.length), sup.Has s (basisName i) basis[i]
  w_not_mem : w ∉ basis

variable {sup s₀ r w}

theorem not_own_of_has {s : Session V S R σ} {name : String} {v : Ref} (h : sup.Has s name v) :
    v ≠ p.unknown ∧ v ∉ guard ∪ scratch := by
  have hown := sup.not_mem h
  rw [LinearProblem.own, Set.mem_insert_iff, not_or] at hown
  exact hown

theorem caller_subset {s : Session V S R σ} (hp : p.Placed guard scratch s) {name : String} {v : Ref}
    (h : sup.Has s name v) :
    insert p.unknown guard ⊆ {x | s.store.Valid x ∧ x ∉ insert v scratch} := by
  obtain ⟨hunknown, hguard⟩ := not_own_of_has h
  rintro x (rfl | hx)
  · refine ⟨hp.unknown_valid, ?_⟩
    rintro (hv | hs)
    · exact hunknown hv.symm
    · exact hp.unknown_not_mem (.inr hs)
  · refine ⟨hp.guard_valid x hx, ?_⟩
    rintro (rfl | hs)
    · exact hguard (.inl hx)
    · exact hp.disjoint x hx hs

namespace Building

variable {s s' : Session V S R σ} {basis : List Ref} {o : σ}

theorem nil (hready : sup.Ready s) (hr : sup.Has s "gmres_r" r) (hw : sup.Has s "gmres_w" w) :
    Building sup s r w s [] s.outside :=
  ⟨rfl, Session.Keeps.refl _ s, hready, hr, hw, fun i hi => by simp at hi, List.not_mem_nil⟩

theorem exists_has (h : Building sup s₀ r w s basis o) {v : Ref} (hv : v ∈ basis) :
    ∃ name, sup.Has s name v := by
  obtain ⟨i, hi, rfl⟩ := List.mem_iff_getElem.mp hv
  exact ⟨basisName i, h.has_basis i hi⟩

theorem unknown_not_mem (h : Building sup s₀ r w s basis o) : p.unknown ∉ basis := by
  intro hx
  obtain ⟨name, hhas⟩ := h.exists_has hx
  exact (not_own_of_has hhas).1 rfl

theorem w_valid (h : Building sup s₀ r w s basis o) : s.store.Valid w := sup.valid h.has_w

theorem subset_kept (h : Building sup s₀ r w s basis o) (hp : p.Placed guard scratch s₀) :
    insert p.unknown guard ∪ {v | v ∈ basis} ⊆ {v | s.store.Valid v ∧ v ∉ insert w scratch} := by
  have hp' := hp.of_keeps (h.keeps.mono (Set.subset_insert _ _))
  rintro v (hv | hv)
  · exact caller_subset hp' h.has_w hv
  · obtain ⟨name, hhas⟩ := h.exists_has hv
    refine ⟨sup.valid hhas, ?_⟩
    rintro (rfl | hs)
    · exact h.w_not_mem hv
    · exact (not_own_of_has hhas).2 (.inr hs)

theorem of_keeps (h : Building sup s₀ r w s basis o) (hbuffers : s'.buffers = s.buffers)
    (hkeeps : s.Keeps (insert p.unknown guard ∪ {v | v ∈ basis}) s') :
    Building sup s₀ r w s' basis s'.outside ∧ basis.map s'.store.read = basis.map s.store.read := by
  refine ⟨⟨rfl, h.keeps.trans (hkeeps.mono Set.subset_union_left),
    sup.ready_of h.ready hbuffers hkeeps.size_le, sup.has_of h.has_r hbuffers hkeeps.size_le,
    sup.has_of h.has_w hbuffers hkeeps.size_le,
    fun i hi => sup.has_of (h.has_basis i hi) hbuffers hkeeps.size_le, h.w_not_mem⟩, ?_⟩
  apply List.map_congr_left
  intro v hv
  exact hkeeps.read_eq v (.inr hv)

theorem write_w (h : Building sup s₀ r w s basis o) (hp : p.Placed guard scratch s₀) (x : V) :
    Building sup s₀ r w (s.write w x) basis o ∧
      basis.map (s.write w x).store.read = basis.map s.store.read := by
  have hbuffers : (s.write w x).buffers = s.buffers := rfl
  obtain ⟨hbuild, hmap⟩ := h.of_keeps hbuffers
    (Session.Keeps.write fun hw => (h.subset_kept hp hw).2 (Set.mem_insert w scratch))
  exact ⟨h.outside_eq ▸ hbuild, hmap⟩

theorem lend (h : Building sup s₀ r w s basis o) (hp : p.Placed guard scratch s₀) :
    ∃ next s', p.new (basisName basis.length) s = .ok next s' ∧
      s.Keeps {v | s.store.Valid v} s' ∧ Building sup s₀ r w s' basis o ∧
      sup.Has s' (basisName basis.length) next ∧ next ∉ basis ∧ w ≠ next := by
  obtain ⟨next, s', hnew, hready, hhas, hout, hkeeps, hothers⟩ :=
    sup.lends h.ready (basisName basis.length)
  have hall := hkeeps {v | s.store.Valid v} fun _ hv => hv
  have hcaller : insert p.unknown guard ⊆ {v | s.store.Valid v} := fun v hv =>
    (h.subset_kept hp (.inl hv)).1
  have hmem : next ∉ basis := by
    intro hnext
    obtain ⟨i, hi, heq⟩ := List.mem_iff_getElem.mp hnext
    refine (hothers _ _ (h.has_basis i hi)).2 (fun e => ?_) heq
    exact absurd (basisName_injective e) (Nat.ne_of_lt hi)
  refine ⟨next, s', hnew, hall, ?_, hhas, hmem, ?_⟩
  · exact ⟨hout.trans h.outside_eq, h.keeps.trans (hall.mono hcaller), hready,
      (hothers _ _ h.has_r).1, (hothers _ _ h.has_w).1,
      fun i hi => (hothers _ _ (h.has_basis i hi)).1, h.w_not_mem⟩
  · exact (hothers _ _ h.has_w).2 (basisName_ne basis.length).2.symm

theorem extend (h : Building sup s₀ r w s basis o) {next : Ref}
    (hhas : sup.Has s (basisName basis.length) next) (hmem : next ∉ basis) (hw : w ≠ next) (x : V) :
    Building sup s₀ r w (s.write next x) (basis ++ [next]) o ∧
      (basis ++ [next]).map (s.write next x).store.read = basis.map s.store.read ++ [x] := by
  have hsize : s.store.size ≤ (s.write next x).store.size := Nat.le_of_eq Store.size_write.symm
  refine ⟨⟨h.outside_eq, ?_, sup.ready_of h.ready rfl hsize, sup.has_of h.has_r rfl hsize,
    sup.has_of h.has_w rfl hsize, ?_, ?_⟩, ?_⟩
  · refine h.keeps.trans (Session.Keeps.write ?_)
    rintro (hnext | hnext)
    · exact (not_own_of_has hhas).1 hnext
    · exact (not_own_of_has hhas).2 (.inl hnext)
  · intro i hi
    rw [List.length_append, List.length_singleton] at hi
    by_cases hlt : i < basis.length
    · rw [List.getElem_append_left hlt]
      exact sup.has_of (h.has_basis i hlt) rfl hsize
    · obtain rfl : i = basis.length := by omega
      have hnext : sup.Has (s.write next x) (basisName basis.length) next :=
        sup.has_of hhas rfl hsize
      rw [List.getElem_append_right (Nat.le_refl _)]
      simpa using hnext
  · simp [h.w_not_mem, hw]
  · rw [List.map_append, List.map_singleton]
    congr 1
    · apply List.map_congr_left
      intro v hv
      exact Store.read_write_of_ne fun e => hmem (e ▸ hv)
    · exact congrArg (· :: []) (Store.read_write_self (sup.valid hhas))

theorem grow (h : Building sup s₀ r w s basis o) (hp : p.Placed guard scratch s₀) :
    ∃ next s', p.new (basisName basis.length) s = .ok next s' ∧
      s.Keeps {v | s.store.Valid v} s' ∧ Building sup s₀ r w s' basis o ∧
      ∀ x, Building sup s₀ r w (s'.write next x) (basis ++ [next]) o ∧
        (basis ++ [next]).map (s'.write next x).store.read = basis.map s.store.read ++ [x] ∧
        (s'.write next x).store.read next = x := by
  obtain ⟨next, s', hnew, hall, h', hhas, hmem, hw⟩ := h.lend hp
  refine ⟨next, s', hnew, hall, h', fun x => ?_⟩
  obtain ⟨hbuild, hmap⟩ := h'.extend hhas hmem hw x
  refine ⟨hbuild, ?_, Store.read_write_self (sup.valid hhas)⟩
  rw [hmap]
  congr 1
  apply List.map_congr_left
  intro v hv
  obtain ⟨name, hhasv⟩ := h.exists_has hv
  exact hall.read_eq v (sup.valid hhasv)

end Building

variable [Scalar S] {s s' : Session V S R σ} {c : Cycle Ref S} {o : σ}
variable (g : Gmres S R) (lsq : LeastSquares S) (beta target : S)

/-- A step from the vector `v` makes of the operator's answer what the step on values makes of it. -/
theorem step_answers (hp : p.Placed guard scratch s₀) {v : Ref}
    (h : Building sup s₀ r w s c.basis o) (hlength : c.basis.length = c.columns.size + 1)
    (hop : Answers p.operator A scratch w v s) :
    Follows
      (fun q s' q' o' => Building sup s₀ r w s' q.1.basis o' ∧
        q' = (q.1.valued s'.store, q.2.map s'.store.read) ∧
        ∀ next ∈ q.2, next ∈ q.1.basis ∧ q.1.basis.length = q.1.columns.size + 1 ∧
          ∃ t t', s₀.Keeps (insert p.unknown guard) t ∧
            p.new (basisName c.basis.length) t = .ok next t')
      (fun s' o' => s'.outside = o' ∧ s₀.Keeps (insert p.unknown guard) s' ∧ sup.Ready s')
      (step g lsq p w beta target v c) s
      (advance g lsq p.backend A beta target (s.store.read v) (c.valued s.store)) o := by
  unfold Answers at hop
  rw [h.outside_eq] at hop
  have hsubset := h.subset_kept hp
  unfold step advance
  refine Follows.bind_mono hop ?_ ?_
  · intro s' o' hdone
    exact ⟨hdone.outside_eq,
      h.keeps.trans (hdone.keeps.mono (Set.subset_union_left.trans hsubset)),
      sup.ready_of h.ready hdone.buffers_eq hdone.keeps.size_le⟩
  rintro ⟨⟩ s₂ u o₂ ⟨hread, hdone⟩
  obtain ⟨h₂, hbasis⟩ := h.of_keeps hdone.buffers_eq (hdone.keeps.mono hsubset)
  rw [hdone.outside_eq] at h₂
  -- the rest of the step calls nobody: lengths are read, then components are taken out of `w`
  refine Follows.skip_left (p.lengthAt_run w s₂) ?_
  refine Follows.skip_left (orthogonalise_run p h₂.w_valid h₂.w_not_mem) ?_
  refine Follows.skip_left (p.lengthAt_run w _) ?_
  rw [hread, hbasis]
  obtain ⟨h₃, hbasis₃⟩ := h₂.write_w hp (project p.backend u (c.basis.map s.store.read)).1
  rw [hbasis] at hbasis₃
  rw [Session.store_write, Store.read_write_self h₂.w_valid]
  dsimp only [Cycle.valued]
  generalize hrest : project p.backend u (c.basis.map s.store.read) = rest at *
  generalize hs₃ : s₂.write w rest.1 = s₃ at *
  refine Follows.ite (fun _ => ?_) (fun _ => ?_)
  · refine Follows.of_ok rfl rfl ⟨h₃, ?_, by simp⟩
    simp only [hbasis₃, Option.map_none]
  refine Run.demand_bind g.breakdownTol ⟨h₃.outside_eq, h₃.keeps, h₃.ready⟩ fun fraction => ?_
  refine Follows.ite (fun _ => ?_) (fun _ => ?_)
  · refine Follows.of_ok rfl rfl ⟨h₃, ?_, by simp⟩
    simp only [Cycle.withColumn, hbasis₃, Option.map_none]
  obtain ⟨next, s₄, hnew, hall₄, h₄, hgrow⟩ := h₃.grow hp
  have hwr : s₄.store.read w = rest.1 := by
    rw [hall₄.read_eq w h₃.w_valid, ← hs₃, Session.store_write, Store.read_write_self h₂.w_valid]
  have hcolumns : ∀ column, (Cycle.withColumn lsq beta { c with spent := c.spent + 1 }
      column).columns.size = c.basis.length := fun column => by
    rw [hlength]
    exact Array.size_push _
  rw [hcolumns]
  refine Follows.skip_left hnew ?_
  rw [Run.reciprocal_eq]
  refine Run.demand_bind _ ⟨h₄.outside_eq, h₄.keeps, h₄.ready⟩ fun d => ?_
  obtain ⟨h₅, hbasis₅, hread₅⟩ := hgrow (p.backend.scale rest.1 d)
  refine Follows.skip_left (p.backend.scaleInto_run next w d) ?_
  rw [hwr]
  refine Follows.of_ok rfl rfl ⟨h₅, ?_, ?_⟩
  · simp only [Cycle.withColumn, hbasis₅, hbasis₃, hread₅, Option.map_some]
  · intro _ hnext
    obtain rfl := Option.some.inj hnext
    refine ⟨by simp, ?_, s₃, s₄, h₃.keeps, hnew⟩
    rw [List.length_append, List.length_singleton]
    exact congrArg (· + 1) (hcolumns _).symm

theorem step_follows (hp : p.Posed A guard scratch s₀) {v : Ref}
    (h : Building sup s₀ r w s c.basis o) (hv : v ∈ c.basis)
    (hlength : c.basis.length = c.columns.size + 1) :
    Follows
      (fun q s' q' o' => Building sup s₀ r w s' q.1.basis o' ∧
        q' = (q.1.valued s'.store, q.2.map s'.store.read) ∧
        ∀ next ∈ q.2, next ∈ q.1.basis ∧ q.1.basis.length = q.1.columns.size + 1)
      (fun s' o' => s'.outside = o' ∧ s₀.Keeps (insert p.unknown guard) s' ∧ sup.Ready s')
      (step g lsq p w beta target v c) s
      (advance g lsq p.backend A beta target (s.store.read v) (c.valued s.store)) o := by
  obtain ⟨name, hhasv⟩ := h.exists_has hv
  have hop := hp.computes s w v (h.keeps.mono (Set.subset_insert _ _)) h.w_valid (sup.valid hhasv)
    (not_own_of_has h.has_w).2 (fun hs => (not_own_of_has hhasv).2 (.inr hs))
  refine (step_answers g lsq beta target hp.placed h hlength hop).mono ?_ fun _ _ hE => hE
  rintro q s' q' o' ⟨hbuild, heq, hnext⟩
  exact ⟨hbuild, heq, fun next hmem => ⟨(hnext next hmem).1, (hnext next hmem).2.1⟩⟩

theorem steps_follows (hp : p.Posed A guard scratch s₀) (count : Nat) {v : Ref}
    (h : Building sup s₀ r w s c.basis o) (hv : v ∈ c.basis)
    (hlength : c.basis.length = c.columns.size + 1) :
    Follows
      (fun c₁ s' c₂ o' => Building sup s₀ r w s' c₁.basis o' ∧ c₂ = c₁.valued s'.store)
      (fun s' o' => s'.outside = o' ∧ s₀.Keeps (insert p.unknown guard) s' ∧ sup.Ready s')
      (steps g lsq p w beta target count v c) s
      (advances g lsq p.backend A beta target count (s.store.read v) (c.valued s.store)) o := by
  induction count generalizing s c v o with
  | zero => exact Follows.of_ok rfl rfl ⟨h, rfl⟩
  | succ count ih =>
    unfold steps advances
    refine Follows.ite (fun _ => ?_) fun _ => Follows.of_ok rfl rfl ⟨h, rfl⟩
    refine Follows.bind (step_follows g lsq beta target hp h hv hlength) ?_
    rintro ⟨c₁, next⟩ s' _ o' ⟨hbuild, rfl, hnext⟩
    cases next with
    | none => exact Follows.of_ok rfl rfl ⟨hbuild, rfl⟩
    | some next =>
      obtain ⟨hmem, hlength'⟩ := hnext next rfl
      exact ih hbuild hmem hlength'

/-! ## A whole call -/

/-- Between cycles: the unknown holds the refined value, and the work vectors are there. -/
structure Refining (sup : Supply p.new (p.own guard scratch)) (s₀ : Session V S R σ) (r w : Ref)
    (s : Session V S R σ) (u : Unknown V σ) : Prop where
  value_eq : s.store.read p.unknown = u.value
  outside_eq : s.outside = u.outside
  keeps : s₀.Keeps guard s
  ready : sup.Ready s
  has_r : sup.Has s "gmres_r" r
  has_w : sup.Has s "gmres_w" w

variable {u : Unknown V σ}

omit [Scalar S] in
theorem Refining.write_unknown (h : Refining sup s₀ r w s u) (hp : p.Placed guard scratch s₀)
    (x : V) :
    Refining sup s₀ r w (s.write p.unknown x) { u with value := x } where
  value_eq := Store.read_write_self (h.keeps.valid hp.unknown_valid)
  outside_eq := h.outside_eq
  keeps := h.keeps.trans (Session.Keeps.write fun hx => hp.unknown_not_mem (.inl hx))
  ready := sup.ready_of h.ready rfl (Nat.le_of_eq Store.size_write.symm)
  has_r := sup.has_of h.has_r rfl (Nat.le_of_eq Store.size_write.symm)
  has_w := sup.has_of h.has_w rfl (Nat.le_of_eq Store.size_write.symm)

omit [Scalar S] in
theorem Building.refining {basis : List Ref} (h : Building sup s r w s' basis o)
    (hrefining : Refining sup s₀ r w s u) : Refining sup s₀ r w s' { u with outside := o } where
  value_eq := (h.keeps.read_eq _ (Set.mem_insert _ _)).trans hrefining.value_eq
  outside_eq := h.outside_eq
  keeps := hrefining.keeps.trans (h.keeps.mono (Set.subset_insert _ _))
  ready := h.ready
  has_r := h.has_r
  has_w := h.has_w

omit [Scalar S] in
theorem Refining.building (h : Refining sup s₀ r w s u) : Building sup s r w s [] u.outside :=
  h.outside_eq ▸ Building.nil h.ready h.has_r h.has_w

/-- What a failed call leaves: the refined value, and the caller's vectors. -/
def Abandoned (p : LinearProblem V S R σ) (guard : Set Ref) (s₀ : Session V S R σ)
    (s : Session V S R σ) (u : Unknown V σ) : Prop :=
  s.store.read p.unknown = u.value ∧ s.outside = u.outside ∧ s₀.Keeps guard s

theorem residualInto_answers (hp : p.Placed guard scratch s₀) (hrhs : p.rhs ∈ guard)
    (h : Refining sup s₀ r w s u) (hop : Answers p.operator A scratch r p.unknown s) :
    Follows
      (fun _ s' y u' => Refining sup s₀ r w s' u' ∧ s'.store.read r = y ∧ u'.value = u.value)
      (fun s' u' => Abandoned p guard s₀ s' u' ∧ sup.Ready s' ∧ u'.value = u.value)
      (residualInto p r) s
      (OnUnknown.consult (residualAt p.backend A (s₀.store.read p.rhs) u.value)) u := by
  have hown := not_own_of_has h.has_r
  unfold Answers at hop
  rw [h.outside_eq, h.value_eq] at hop
  have hcaller := caller_subset (hp.of_keeps h.keeps) h.has_r
  have hkept : ∀ s' o', s.Wrote (insert r scratch) s' o' → s.Keeps (insert p.unknown guard) s' :=
    fun s' o' hdone => hdone.keeps.mono hcaller
  simp only [residualInto, residualAt, OnUnknown.consult_bind, OnUnknown.consult_pure]
  refine Follows.bind_mono (OnUnknown.consult_follows hop) ?_ ?_
  · rintro s' u' ⟨hdone, hvalue⟩
    have hkeeps := hkept s' u'.outside hdone
    refine ⟨⟨?_, hdone.outside_eq, h.keeps.trans (hkeeps.mono (Set.subset_insert _ _))⟩,
      sup.ready_of h.ready hdone.buffers_eq hkeeps.size_le, hvalue⟩
    rw [hkeeps.read_eq _ (Set.mem_insert _ _), hvalue, h.value_eq]
  rintro ⟨⟩ s₁ y u₁ ⟨⟨hread, hdone⟩, hvalue⟩
  have hkeeps := hkept s₁ u₁.outside hdone
  have hguard := h.keeps.trans (hkeeps.mono (Set.subset_insert _ _))
  refine Follows.of_ok (p.backend.addScaledInto_run r p.rhs r _) rfl
    ⟨⟨?_, ?_, ?_, ?_, ?_, ?_⟩, ?_, hvalue⟩
  · rw [Session.store_write, Store.read_write_of_ne hown.1,
      hkeeps.read_eq _ (Set.mem_insert _ _), hvalue, h.value_eq]
  · exact hdone.outside_eq
  · exact hguard.trans (Session.Keeps.write fun hr => hown.2 (.inl hr))
  · exact sup.ready_of h.ready hdone.buffers_eq (by simpa using hkeeps.size_le)
  · exact sup.has_of h.has_r hdone.buffers_eq (by simpa using hkeeps.size_le)
  · exact sup.has_of h.has_w hdone.buffers_eq (by simpa using hkeeps.size_le)
  · rw [Session.store_write, Store.read_write_self (hkeeps.valid (sup.valid h.has_r)), hread,
      hguard.read_eq _ hrhs]

theorem residualInto_follows (hp : p.Posed A guard scratch s₀) (h : Refining sup s₀ r w s u) :
    Follows
      (fun _ s' y u' => Refining sup s₀ r w s' u' ∧ s'.store.read r = y ∧ u'.value = u.value)
      (fun s' u' => Abandoned p guard s₀ s' u' ∧ sup.Ready s') (residualInto p r) s
      (OnUnknown.consult (residualAt p.backend A (s₀.store.read p.rhs) u.value)) u :=
  (residualInto_answers hp.placed hp.rhs_mem h (hp.computes s r p.unknown h.keeps (sup.valid h.has_r)
    (h.keeps.valid hp.unknown_valid) (not_own_of_has h.has_r).2
    (fun hs => hp.unknown_not_mem (.inr hs)))).mono (fun _ _ _ _ hJ => hJ)
    fun _ _ hE => ⟨hE.1, hE.2.1⟩

theorem cycle_follows (hp : p.Posed A guard scratch s) (h : Refining sup s₀ r w s u)
    (spent : Nat) :
    Follows
      (fun c₁ s' c₂ u' => Building sup s r w s' c₁.basis u'.outside ∧ c₂ = c₁.valued s'.store ∧
        u'.value = u.value)
      (fun s' u' => s'.outside = u'.outside ∧ s.Keeps (insert p.unknown guard) s' ∧
        sup.Ready s' ∧ u'.value = u.value)
      (cycle g lsq p r w beta target spent) s
      (OnUnknown.consult
        (cycleFrom g lsq p.backend A target beta (s.store.read r) spent)) u := by
  obtain ⟨v, s₁, hnew, hall, h₁, hgrow⟩ := h.building.grow hp.placed
  refine (OnUnknown.consult_follows (J := fun c₁ s' c₂ o' => Building sup s r w s' c₁.basis o' ∧
    c₂ = c₁.valued s'.store) (E := fun s' o' => s'.outside = o' ∧
      s.Keeps (insert p.unknown guard) s' ∧ sup.Ready s') ?_).mono
    (fun _ _ _ _ hJ => ⟨hJ.1.1, hJ.1.2, hJ.2⟩) fun _ _ hE => ⟨hE.1.1, hE.1.2.1, hE.1.2.2, hE.2⟩
  unfold cycle cycleFrom
  refine Follows.skip_left hnew ?_
  rw [Run.reciprocal_eq]
  refine Run.demand_bind _ ⟨h₁.outside_eq, h₁.keeps, h₁.ready⟩ fun d => ?_
  refine Follows.skip_left (p.backend.scaleInto_run v r d) ?_
  obtain ⟨hbuild₁, hbasis, hread⟩ := hgrow (p.backend.scale (s.store.read r) d)
  rw [hall.read_eq r (sup.valid h.has_r)]
  refine Run.demand_bind g.restart ⟨hbuild₁.outside_eq, hbuild₁.keeps, hbuild₁.ready⟩
    fun count => ?_
  have hsteps := steps_follows g lsq beta target hp count (c := Cycle.start v beta spent) hbuild₁
    (List.mem_singleton_self v) rfl
  have hstart : (Cycle.start v beta spent).valued
      (s₁.write v (p.backend.scale (s.store.read r) d)).store =
        Cycle.start (p.backend.scale (s.store.read r) d) beta spent := by
    simp only [Cycle.valued, Cycle.start, List.map_singleton, hread]
  rwa [hread, hstart] at hsteps

theorem cycles_follows (hp : p.Posed A guard scratch s₀) (fuel spent begun : Nat)
    (h : Refining sup s₀ r w s u) :
    Follows (fun v s' v' u' => v = v' ∧ Refining sup s₀ r w s' u')
      (fun s' u' => Abandoned p guard s₀ s' u' ∧ sup.Ready s')
      (cycles g lsq p r w target fuel spent begun) s
      (refineFrom g lsq p.backend A (s₀.store.read p.rhs) target fuel spent begun) u := by
  induction fuel generalizing s u spent begun with
  | zero => exact Follows.of_ok rfl rfl ⟨rfl, h⟩
  | succ fuel ih =>
    unfold cycles refineFrom
    refine Follows.ite (fun _ => ?_) fun _ => Follows.of_ok rfl rfl ⟨rfl, h⟩
    refine Follows.skip_right (v := u) rfl ?_
    refine Follows.bind (residualInto_follows hp h) ?_
    rintro ⟨⟩ s₁ y u₁ ⟨h₁, hread, hvalue⟩
    refine Follows.skip_left (p.lengthAt_run r _) ?_
    rw [hread]
    generalize p.backend.length y = beta
    refine Follows.ite (fun _ => Follows.of_ok rfl rfl ⟨rfl, h₁⟩) fun _ => ?_
    refine Follows.ite (fun _ => Follows.of_ok rfl rfl ⟨rfl, h₁⟩) fun _ => ?_
    have hp₁ := hp.of_keeps h₁.keeps
    have hcycle := cycle_follows g lsq beta target hp₁ h₁ spent
    rw [hread] at hcycle
    refine Follows.bind_mono hcycle ?_ ?_
    · rintro s' u' ⟨hout, hkeeps, hready, hvalue'⟩
      refine ⟨⟨?_, hout, h₁.keeps.trans (hkeeps.mono (Set.subset_insert _ _))⟩, hready⟩
      rw [hkeeps.read_eq _ (Set.mem_insert _ _), h₁.value_eq, hvalue']
    rintro c s₂ _ ⟨_, o₂⟩ ⟨hbuild, rfl, rfl⟩
    have h₂ := hbuild.refining h₁
    refine Follows.ite (fun _ => Follows.of_ok rfl rfl ⟨rfl, h₂⟩) fun _ => ?_
    refine Follows.skip_left
      (combine_run p (h₂.keeps.valid hp.unknown_valid) hbuild.unknown_not_mem) ?_
    refine Follows.skip_right rfl ?_
    rw [h₂.value_eq, ← hvalue]
    have h₃ := h₂.write_unknown hp.placed
      (combination p.backend u₁.value (c.basis.map s₂.store.read) c.coefficients)
    refine Follows.ite (fun _ => Follows.of_ok rfl rfl ⟨rfl, h₃⟩) fun _ => ?_
    refine Follows.ite (fun _ => Follows.of_ok rfl rfl ⟨rfl, h₃⟩) fun _ => ?_
    exact ih c.spent (begun + 1) h₃

omit [Scalar S] in
theorem Refining.opening (sup : Supply p.new (p.own guard scratch)) (hp : p.Placed guard scratch s)
    (hready : sup.Ready s) :
    ∃ r w s₁ s₂, p.new "gmres_r" s = .ok r s₁ ∧ p.new "gmres_w" s₁ = .ok w s₂ ∧
      s.Keeps {v | s.store.Valid v} s₂ ∧
      Refining sup s r w s₂ ⟨s.store.read p.unknown, s.outside⟩ := by
  obtain ⟨r, s₁, hnew_r, hready₁, hhas_r, hout₁, hkeeps₁, -⟩ := sup.lends hready "gmres_r"
  obtain ⟨w, s₂, hnew_w, hready₂, hhas_w, hout₂, hkeeps₂, hothers⟩ := sup.lends hready₁ "gmres_w"
  have hkeeps₁ := hkeeps₁ _ fun v (hv : s.store.Valid v) => hv
  have hkeeps₂ := hkeeps₂ _ fun v (hv : s₁.store.Valid v) => hv
  have hkeeps : s.Keeps {v | s.store.Valid v} s₂ :=
    hkeeps₁.trans (hkeeps₂.mono fun v hv => hkeeps₁.valid hv)
  exact ⟨r, w, s₁, s₂, hnew_r, hnew_w, hkeeps, hkeeps.read_eq _ hp.unknown_valid, hout₂.trans hout₁,
    hkeeps.mono hp.guard_valid, hready₂, (hothers _ _ hhas_r).1, hhas_w⟩

/-- A call in place does what the refinement does on values. -/
theorem call_follows (sup : Supply p.new (p.own guard scratch)) (hp : p.Posed A guard scratch s)
    (hready : sup.Ready s) :
    Follows
      (fun v s' v' u' => v = v' ∧ s'.store.read p.unknown = u'.value ∧ s'.outside = u'.outside ∧
        s.Keeps guard s' ∧ sup.Ready s')
      (fun s' u' => Abandoned p guard s s' u' ∧ sup.Ready s') (call g lsq p) s
      (refine g lsq p.backend A (s.store.read p.rhs)) ⟨s.store.read p.unknown, s.outside⟩ := by
  obtain ⟨r, w, s₁, s₂, hnew_r, hnew_w, hkeeps, h⟩ := Refining.opening sup hp.placed hready
  have hrhs : s₂.store.read p.rhs = s.store.read p.rhs :=
    hkeeps.read_eq _ (hp.guard_valid _ hp.rhs_mem)
  unfold call refine
  refine Follows.skip_left hnew_r (Follows.skip_left hnew_w ?_)
  refine Follows.skip_left (p.lengthAt_run p.rhs s₂) ?_
  rw [hrhs]
  refine Follows.ite (fun _ => ?_) fun _ => ?_
  · refine Follows.skip_left (p.backend.scaleInto_run p.unknown p.unknown _) ?_
    have hzero := h.write_unknown hp.placed (p.backend.scale (s₂.store.read p.unknown) (Scalar.ofNat 0))
    refine Follows.of_ok rfl rfl ⟨rfl, ?_, hzero.outside_eq, hzero.keeps, hzero.ready⟩
    rw [hzero.value_eq, h.value_eq]
  rw [OnUnknown.consult_orFail]
  refine Run.demand_bind g.tol ⟨⟨h.value_eq, h.outside_eq, h.keeps⟩, h.ready⟩ fun tol => ?_
  exact (cycles_follows g lsq _ hp g.maxiter 0 0 h).mono
    (fun _ _ _ _ ⟨hv, hdone⟩ => ⟨hv, hdone.value_eq, hdone.outside_eq, hdone.keeps, hdone.ready⟩)
    fun _ _ hE => hE

theorem solve_follows (sup : Supply p.new (p.own guard scratch)) (hp : p.Posed A guard scratch s)
    (hready : sup.Ready s) :
    Follows
      (fun _ s' _ u' => s'.store.read p.unknown = u'.value ∧ s'.outside = u'.outside ∧
        s.Keeps guard s' ∧ sup.Ready s')
      (fun s' u' => Abandoned p guard s s' u' ∧ sup.Ready s') (solve g lsq p) s
      (do
        let _ ← refine g lsq p.backend A (s.store.read p.rhs)
        pure ()) ⟨s.store.read p.unknown, s.outside⟩ :=
  (call_follows g lsq sup hp hready).bind fun _ _ _ _ hdone => Follows.of_ok rfl rfl hdone.2

end Simulation

end Gmres

/-! ## Solvers that keep to their vectors -/

/-- Whatever it makes of the unknown, the solver leaves every other vector alone but for work vectors
and what the operator writes. -/
def KrylovSolver.Confined (solver : KrylovSolver V S R σ) : Prop :=
  ∀ p A guard scratch s, p.Posed A guard scratch s → p.new = Run.keptAs p.backend.new →
    s.Apart (p.own guard scratch) →
    Ends (fun _ s' => s.Keeps guard s' ∧ s'.Apart (p.own guard scratch)) (s.Keeps guard) (solver p) s

theorem Gmres.solve_confined [Scalar S] (g : Gmres S R) (lsq : LeastSquares S) :
    KrylovSolver.Confined (V := V) (σ := σ) (g.solve lsq) := by
  rintro ⟨K, new, operator, rhs, unknown⟩ A guard scratch s hp hnew hapart
  obtain rfl : new = Run.keptAs K.new := hnew
  refine (g.solve_follows lsq (Supply.kept K _) hp hapart).ends.mono ?_ ?_
  · rintro _ s' ⟨_, _, -, -, hkeeps, hapart'⟩
    exact ⟨hkeeps, hapart'⟩
  · rintro s' ⟨_, ⟨-, -, hkeeps⟩, -⟩
    exact hkeeps

end NewtonKrylov
