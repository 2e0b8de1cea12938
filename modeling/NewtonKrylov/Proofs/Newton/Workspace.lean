import Mathlib.Data.List.Nodup
import NewtonKrylov.Newton
import NewtonKrylov.Proofs.Krylov.Fresh
import NewtonKrylov.Proofs.LineSearch.Inquiry

/-!
# The vectors of a run

A run works on the iterate, the direction and five scratch vectors. `Newton.Laid` says that these are
seven vectors. Then the central difference is a function of its argument that leaves the iterate, its
residual and the direction alone (`derivative_follows`), and the residual norm along the direction is
a function of the step scale (`profile_follows`): the vectors that both overwrite are read only
after they have been written again.

The residual function is taken to write all of its vector; what it does with the state of the
collaborators, and whether it fails, is open.
-/

namespace NewtonKrylov

variable {V S R σ : Type}

section Values

variable [Scalar S] (K : Backend S V) (f : V → Collab R σ V)

/-- The central difference of `f` at `x` along `v`, with half-width `e`. -/
def centralDifference (x : V) (e : S) (v : V) : Collab R σ V := do
  let ahead ← f (K.addScaled x v e)
  let behind ← f (K.addScaled x v (-e))
  let d ← LineSearch.orFail (Scalar.reciprocal (Scalar.ofNat 2 * e))
  pure (K.scale (K.addScaled ahead behind (-Scalar.ofNat 1)) d)

/-- The Jacobian product that a method takes at `x`. -/
def Method.jacobian (M : Method V S R σ) (x v : V) : Collab R σ V := do
  let e ← LineSearch.orFail M.halfWidth
  centralDifference K f x e v

/-- The norm of the residual at `x - alpha * dx`. -/
def normAlong (measure : V → Collab R σ R) (x dx : V) (alpha : S) : Collab R σ R := do
  let y ← f (K.addScaled x dx (-alpha))
  measure y

end Values

/-- A change of the collaborators' state, which is given back as it was. -/
def Collab.turn (change : σ → σ) : Collab R σ σ := fun o => .ok o (change o)

def Run.turn (change : σ → σ) : Run V S R σ σ := Run.consult (Collab.turn change)

/-- The vectors at whose points residuals are tried. -/
def Scratch.trial (w : Scratch) : Set Ref :=
  {w.ahead, w.behind, w.residualAhead, w.residualBehind}

variable {s s' : Session V S R σ}

/-- The point of differentiation and the vectors for trials are five vectors, those for trials in the
store. -/
structure Scratch.Beside (w : Scratch) (x : Ref) (s : Session V S R σ) : Prop where
  nodup : [x, w.ahead, w.behind, w.residualAhead, w.residualBehind].Nodup
  valid : ∀ r ∈ w.trial, s.store.Valid r

namespace Newton

/-- The iterate, the direction and the scratch vectors are seven vectors of the store. -/
structure Laid (w : Scratch) (x dx : Ref) (s : Session V S R σ) : Prop where
  nodup : [x, dx, w.residual, w.ahead, w.behind, w.residualAhead, w.residualBehind].Nodup
  valid : ∀ r ∈ [x, dx, w.residual, w.ahead, w.behind, w.residualAhead, w.residualBehind],
    s.store.Valid r

/-- The vectors that a run works on. -/
def workspace (w : Scratch) (x dx : Ref) : Set Ref := insert dx ({x, w.residual} ∪ w.trial)

variable {w : Scratch} {x dx : Ref}

theorem Laid.of_size_le (h : Laid w x dx s) (hsize : s.store.size ≤ s'.store.size) :
    Laid w x dx s' :=
  ⟨h.nodup, fun r hr => Nat.lt_of_lt_of_le (h.valid r hr) hsize⟩

theorem Laid.distinct (h : Laid w x dx s) : x ≠ dx ∧ x ≠ w.residual ∧ dx ≠ w.residual := by
  have hnodup := h.nodup
  simp only [List.nodup_cons, List.mem_cons, not_or] at hnodup
  exact ⟨hnodup.1.1, hnodup.1.2.1, hnodup.2.1.1⟩

theorem Laid.not_mem_trial (h : Laid w x dx s) :
    x ∉ w.trial ∧ dx ∉ w.trial ∧ w.residual ∉ w.trial := by
  have hnodup := h.nodup
  simp only [List.nodup_cons, List.mem_cons, not_or] at hnodup
  simp only [Scratch.trial, Set.mem_insert_iff, Set.mem_singleton_iff, not_or]
  grind

theorem Laid.beside (h : Laid w x dx s) : w.Beside x s where
  nodup := by
    have hnodup := h.nodup
    simp only [List.nodup_cons, List.mem_cons, not_or] at hnodup ⊢
    grind
  valid := by
    rintro r (rfl | rfl | rfl | rfl)
    all_goals exact h.valid _ (by simp)

section Simulation

variable [Inhabited V] [Scalar S] (f : V → Collab R σ V)

theorem derivative_follows (h : w.Beside x s) (K : Backend S V) (e : S) {result v : Ref}
    (hresult : s.store.Valid result) (hv : v ∉ w.trial) :
    Follows (fun _ s' y o => s'.store.read result = y ∧ s.Wrote (insert result w.trial) s' o)
      (s.Wrote (insert result w.trial)) ((Residual.whole f).derivative K w x e result v) s
      (centralDifference K f (s.store.read x) e (s.store.read v)) s.outside := by
  have hnodup := h.nodup
  simp only [List.nodup_cons, List.mem_cons, List.not_mem_nil, or_false, not_or] at hnodup
  simp only [Scratch.trial, Set.mem_insert_iff, Set.mem_singleton_iff, not_or] at hv
  have hra : s.store.Valid w.residualAhead := h.valid _ (by simp [Scratch.trial])
  have hrb : s.store.Valid w.residualBehind := h.valid _ (by simp [Scratch.trial])
  unfold Residual.derivative centralDifference
  refine Follows.skip_left (K.addScaledInto_run w.ahead x v e) ?_
  refine Follows.skip_left (K.addScaledInto_run w.behind x v (-e)) ?_
  have hread_x : ∀ y, (s.store.write w.ahead y).read x = s.store.read x := fun y =>
    Store.read_write_of_ne (by grind)
  have hread_v : ∀ y, (s.store.write w.ahead y).read v = s.store.read v := fun y =>
    Store.read_write_of_ne (by grind)
  simp only [Session.store_write, hread_x, hread_v]
  generalize K.addScaled (s.store.read x) (s.store.read v) e = a
  generalize K.addScaled (s.store.read x) (s.store.read v) (-e) = b
  have h₂ : s.Wrote (insert result w.trial) ((s.write w.ahead a).write w.behind b) s.outside :=
    ((Session.Wrote.refl _ s).write (by simp [Scratch.trial]) a).write (by simp [Scratch.trial]) b
  have ha₂ : ((s.write w.ahead a).write w.behind b).store.read w.ahead = a := by
    rw [Session.store_write, Store.read_write_of_ne (by grind), Session.store_write,
      Store.read_write_self (h.valid _ (by simp [Scratch.trial]))]
  have hb₂ : ((s.write w.ahead a).write w.behind b).store.read w.behind = b :=
    Store.read_write_self ((h.valid w.behind (by simp [Scratch.trial])).write _)
  generalize (s.write w.ahead a).write w.behind b = s₂ at *
  -- the residuals at the two points; a failure leaves scratch vectors behind
  have hahead := Residual.into_follows f h₂ hra (by simp [Scratch.trial]) w.ahead
  rw [ha₂] at hahead
  refine Follows.bind hahead ?_
  rintro ⟨⟩ s₃ y o₃ ⟨h₃, hy₃, hothers₃⟩
  have hbehind := Residual.into_follows f h₃ hrb (by simp [Scratch.trial]) w.behind
  rw [hothers₃ w.behind (by grind), hb₂] at hbehind
  refine Follows.bind hbehind ?_
  rintro ⟨⟩ s₄ z o₄ ⟨h₄, hz₄, hothers₄⟩
  -- both residuals are there before the result, which may be `v`, is written
  refine Follows.skip_left (K.addScaledInto_run result w.residualAhead w.residualBehind _) ?_
  rw [hothers₄ w.residualAhead (by grind), hy₃, hz₄, Run.reciprocal_eq]
  have h₅ := h₄.write (Set.mem_insert result w.trial) (K.addScaled y z (-Scalar.ofNat 1))
  refine Run.demand_bind _ h₅ fun d => ?_
  refine Follows.of_ok (K.scaleInto_run result result d) rfl ⟨?_, ?_⟩
  · rw [Session.store_write, Store.read_write_self (h₅.valid hresult), Session.store_write,
      Store.read_write_self (h₄.valid hresult)]
  · exact h₅.write (Set.mem_insert result w.trial) _

variable {P : NonlinearProblem V S R σ} {M : Method V S R σ} {f}

/-- The Jacobian product is a function of its argument while the iterate stays. -/
theorem directionProblem_computes (hf : P.residual = Residual.whole f) (h : Laid w x dx s) :
    Computes (directionProblem P M w x dx).operator (M.jacobian P.backend f (s.store.read x))
      {x, w.residual} w.trial s := by
  intro s' result v hkeeps hresult _ _ hv
  have h' := h.of_size_le hkeeps.size_le
  have hderivative : (directionProblem P M w x dx).operator result v =
      Run.demand M.halfWidth >>= fun e =>
        (Residual.whole f).derivative P.backend w x e result v := by
    rw [← hf]
    rfl
  rw [hderivative, ← hkeeps.read_eq x (Set.mem_insert x _)]
  unfold Method.jacobian
  refine Run.demand_bind M.halfWidth (Session.Wrote.refl _ _) fun e => ?_
  exact derivative_follows f h'.beside P.backend e hresult hv

theorem directionProblem_posed (hf : P.residual = Residual.whole f) (h : Laid w x dx s) :
    (directionProblem P M w x dx).Posed (M.jacobian P.backend f (s.store.read x))
      {x, w.residual} w.trial s := by
  refine ⟨directionProblem_computes hf h, Set.mem_insert_of_mem x rfl, ?_, h.valid dx (by simp), ?_,
    ?_⟩
  · rintro r (rfl | rfl)
    · exact h.valid _ (by simp)
    · exact h.valid _ (by simp)
  · rintro r (rfl | rfl)
    · exact h.not_mem_trial.1
    · exact h.not_mem_trial.2.2
  · rintro ((hx | hres) | htrial)
    · exact h.distinct.1 (Eq.symm hx)
    · exact h.distinct.2.2 hres
    · exact h.not_mem_trial.2.1 htrial

/-- The profile of a line search is the norm along the direction, and writes two scratch vectors. -/
theorem profile_follows (hf : P.residual = Residual.whole f) (h : Laid w x dx s) {o : σ}
    (hs : s.Wrote w.trial s' o) (alpha : S) :
    Follows (fun u s'' v o' => u = v ∧ s.Wrote w.trial s'' o') (s.Wrote w.trial)
      (profile P w x dx alpha) s'
      (normAlong P.backend f P.norm (s.store.read x) (s.store.read dx) alpha) o := by
  have hx := hs.read_eq (h.valid x (by simp)) h.not_mem_trial.1
  have hdx := hs.read_eq (h.valid dx (by simp)) h.not_mem_trial.2.1
  unfold profile normAlong
  refine Follows.skip_left (P.backend.addScaledInto_run w.ahead x dx (-alpha)) ?_
  rw [hx, hdx, hf]
  have hs₁ := hs.write (r := w.ahead) (by simp [Scratch.trial])
    (P.backend.addScaled (s.store.read x) (s.store.read dx) (-alpha))
  have hinto := Residual.into_follows f hs₁ (h.valid w.residualAhead (by simp))
    (by simp [Scratch.trial]) w.ahead
  rw [Session.store_write, Store.read_write_self (hs.valid (h.valid w.ahead (by simp)))] at hinto
  refine Follows.bind hinto ?_
  rintro ⟨⟩ s₂ y o₂ ⟨hs₂, hread, -⟩
  refine Follows.skip_left (Run.contents_run w.residualAhead) ?_
  rw [hread]
  have hconsult := Run.consult_follows (P.norm y) s₂
  rw [hs₂.outside_eq] at hconsult
  refine hconsult.mono ?_ ?_
  · rintro u _ v o₃ ⟨rfl, rfl⟩
    exact ⟨rfl, hs₂.consult o₃⟩
  · rintro _ o₃ rfl
    exact hs₂.consult o₃

theorem search_follows (hf : P.residual = Residual.whole f) (h : Laid w x dx s)
    (q : Inquiry S R (Fault R) σ) :
    Follows (fun u s' v o => u = v ∧ s.Wrote w.trial s' o) (s.Wrote w.trial)
      (q.run Run.turn (profile P w x dx)) s
      (q.run Collab.turn
        (normAlong P.backend f P.norm (s.store.read x) (s.store.read dx))) s.outside := by
  refine Inquiry.run_follows ?_ (fun alpha a b hs => profile_follows hf h hs alpha)
    (fun _ _ hs => hs) q (Session.Wrote.refl _ s)
  intro change a o hs
  refine Follows.of_ok rfl rfl ⟨hs.outside_eq, ?_⟩
  rw [← hs.outside_eq]
  exact hs.consult _

theorem lineSearch_follows [Magnitude R] (hf : P.residual = Residual.whole f) (h : Laid w x dx s)
    (policy : LineSearch (Fault R)) (reach : Reach (Fault R) S) :
    Follows (fun u s' v o => u = v ∧ s.Wrote w.trial s' o) (s.Wrote w.trial)
      (policy.run (profile P w x dx) reach) s
      (policy.run (normAlong P.backend f P.norm (s.store.read x) (s.store.read dx)) reach)
      s.outside := by
  have hin : policy.run (profile P w x dx) reach =
      (policy.inquiry reach).run Run.turn (profile P w x dx) := LineSearch.run_eq_inquiry policy
  have hval : policy.run (normAlong P.backend f P.norm (s.store.read x) (s.store.read dx)) reach =
      (policy.inquiry reach).run (Collab.turn (σ := σ)) _ := LineSearch.run_eq_inquiry policy
  rw [hin, hval]
  exact search_follows hf h _

end Simulation

/-! ## The start of a run -/

theorem Laid.of_index {n : Nat} (hx : x.index < n) (hdx : dx.index < n ∨ dx.index = n + 5)
    (hne : x.index ≠ dx.index) (hsize : n + 5 ≤ s.store.size) (hvalid : s.store.Valid dx) :
    Laid ⟨⟨n⟩, ⟨n + 1⟩, ⟨n + 2⟩, ⟨n + 3⟩, ⟨n + 4⟩⟩ x dx s where
  nodup := by
    refine List.Nodup.of_map Ref.index ?_
    simp
    omega
  valid := by
    have hvalid : dx.index < s.store.size := hvalid
    simp [Store.Valid]
    omega

variable [Inhabited V]

theorem allocate_run (K : Backend S V) (s : Session V S R σ) :
    ∃ s', Scratch.allocate K s = .ok
        ⟨⟨s.store.size⟩, ⟨s.store.size + 1⟩, ⟨s.store.size + 2⟩, ⟨s.store.size + 3⟩,
          ⟨s.store.size + 4⟩⟩ s' ∧
      s'.store.size = s.store.size + 5 ∧ s'.outside = s.outside ∧
      s.Keeps {r | s.store.Valid r} s' := by
  have hnew : ∀ name (s : Session V S R σ), ∃ s', K.new name s = .ok ⟨s.store.size⟩ s' ∧
      s'.store.size = s.store.size + 1 ∧ s'.outside = s.outside ∧
      s.Keeps {r | s.store.Valid r} s' := fun name s =>
    ⟨_, K.new_run name, Store.size_push, rfl, Session.Keeps.push (fun _ hr => hr) name⟩
  obtain ⟨s₁, hrun₁, hsize₁, hout₁, hkeeps₁⟩ := hnew "f_of_x" s
  obtain ⟨s₂, hrun₂, hsize₂, hout₂, hkeeps₂⟩ := hnew "x_plus_dx" s₁
  obtain ⟨s₃, hrun₃, hsize₃, hout₃, hkeeps₃⟩ := hnew "x_minus_dx" s₂
  obtain ⟨s₄, hrun₄, hsize₄, hout₄, hkeeps₄⟩ := hnew "f_of_x_plus_dx" s₃
  obtain ⟨s₅, hrun₅, hsize₅, hout₅, hkeeps₅⟩ := hnew "f_of_x_minus_dx" s₄
  refine ⟨s₅, ?_, by omega, by rw [hout₅, hout₄, hout₃, hout₂, hout₁], ?_⟩
  · unfold Scratch.allocate
    rw [bind_run_ok hrun₁, bind_run_ok hrun₂, bind_run_ok hrun₃, bind_run_ok hrun₄,
      bind_run_ok hrun₅, hsize₄, hsize₃, hsize₂, hsize₁]
    rfl
  · have hmono : ∀ {s s' : Session V S R σ}, s.Keeps {r | s.store.Valid r} s' →
        {r | s.store.Valid r} ⊆ {r | s'.store.Valid r} := fun h _ hr => h.valid hr
    have h₂ := hkeeps₁.trans (hkeeps₂.mono (hmono hkeeps₁))
    have h₃ := h₂.trans (hkeeps₃.mono (hmono h₂))
    have h₄ := h₃.trans (hkeeps₄.mono (hmono h₃))
    exact h₄.trans (hkeeps₅.mono (hmono h₄))

variable [Scalar S]

/-- The vector that a run from `s` takes for its direction. -/
def directionAt (given : Option Ref) (s : Session V S R σ) : Ref :=
  given.getD ⟨s.store.size + 5⟩

/-- What the direction is at the start: the caller's vector, else a copy of the iterate. -/
def startDirection (K : Backend S V) (x : Ref) (given : Option Ref) (s : Session V S R σ) : V :=
  match given with
  | some dx => s.store.read dx
  | none => K.scale (s.store.read x) (Scalar.ofNat 1)

theorem direction_run (P : NonlinearProblem V S R σ) {given : Option Ref}
    (hsize : s'.store.size = s.store.size + 5) (hkeeps : s.Keeps {r | s.store.Valid r} s')
    (hx : s.store.Valid x) (hgiven : ∀ dx ∈ given, s.store.Valid dx) :
    ∃ s'', direction P x given s' = .ok (directionAt given s) s'' ∧
      s''.store.Valid (directionAt given s) ∧ s'.store.size ≤ s''.store.size ∧
      s''.outside = s'.outside ∧ s.Keeps {r | s.store.Valid r} s'' ∧
      s''.store.read (directionAt given s) = startDirection P.backend x given s := by
  cases given with
  | some dx =>
    have hdx := hgiven dx rfl
    exact ⟨s', rfl, hkeeps.valid hdx, Nat.le_refl _, rfl, hkeeps, hkeeps.read_eq dx hdx⟩
  | none =>
    have hnext : s'.store.next = ⟨s.store.size + 5⟩ := congrArg Ref.mk hsize
    have hpush := Session.Keeps.push (S := S) (R := R) (fun r (hr : s'.store.Valid r) => hr) "dx"
      (v := P.backend.zero ())
    have hvalid : (s'.push "dx" (P.backend.zero ())).store.Valid (directionAt none s) := by
      rw [directionAt, Option.getD_none, ← hnext]
      exact Store.valid_next "dx"
    have hread : (s'.push "dx" (P.backend.zero ())).store.read x = s.store.read x :=
      (hpush.read_eq x (hkeeps.valid hx)).trans (hkeeps.read_eq x hx)
    refine ⟨(s'.push "dx" (P.backend.zero ())).write (directionAt none s)
      (P.backend.scale (s.store.read x) (Scalar.ofNat 1)), ?_, hvalid.write _, ?_, rfl, ?_, ?_⟩
    · have hdirection : (direction P x none : Run V S R σ Ref) = P.backend.new "dx" >>= fun dx =>
          P.backend.scaleInto dx x (Scalar.ofNat 1) >>= fun _ => pure dx := rfl
      rw [hdirection, bind_run_ok (P.backend.new_run "dx"), hnext,
        bind_run_ok (P.backend.scaleInto_run _ x _), hread]
      rfl
    · rw [Session.store_write, Store.size_write]
      exact hpush.size_le
    · refine (hkeeps.trans (hpush.mono fun r hr => hkeeps.valid hr)).trans
        (Session.Keeps.write fun h => ?_)
      have hlt : s.store.size + 5 < s.store.size := h
      omega
    · exact Store.read_write_self hvalid

/-- A session in which the iterations may begin. -/
structure Opened (K : Backend S V) (w : Scratch) (x : Ref) (given : Option Ref)
    (s s' : Session V S R σ) : Prop where
  laid : Laid w x (directionAt given s) s'
  no_buffers : s'.buffers = {}
  outside_eq : s'.outside = s.outside
  keeps : s.Keeps {r | s.store.Valid r} s'
  direction_eq : s'.store.read (directionAt given s) = startDirection K x given s

theorem Opened.apart {K : Backend S V} {given : Option Ref} (h : Opened K w x given s s') :
    s'.Apart (workspace w x (directionAt given s)) := by
  refine Session.Apart.of_no_buffers ?_ h.no_buffers
  rintro r (rfl | (rfl | rfl) | rfl | rfl | rfl | rfl)
  all_goals exact h.laid.valid _ (by simp)

omit [Inhabited V] in
theorem given_second {store : Store V} (h : 1 < store.size) :
    ∀ dx ∈ some (⟨1⟩ : Ref), store.Valid dx ∧ (⟨0⟩ : Ref) ≠ dx := by
  intro dx hdx
  obtain rfl := Option.some.inj hdx
  exact ⟨h, by decide⟩

variable (P : NonlinearProblem V S R σ)

/-- What a run does before its iterations. -/
def opening (x : Ref) (given : Option Ref) : Run V S R σ (Scratch × Ref) := do
  let w ← Scratch.allocate P.backend
  let dx ← direction P x given
  modify fun s => { s with buffers := {} }
  pure (w, dx)

theorem opening_run {given : Option Ref} (hx : s.store.Valid x)
    (hgiven : ∀ dx ∈ given, s.store.Valid dx ∧ x ≠ dx) :
    ∃ w s', opening P x given s = .ok (w, directionAt given s) s' ∧
      Opened P.backend w x given s s' := by
  obtain ⟨s₁, hrun₁, hsize₁, hout₁, hkeeps₁⟩ := allocate_run P.backend s
  obtain ⟨s₂, hrun₂, hvalid, hsize₂, hout₂, hkeeps₂, hread⟩ :=
    direction_run P hsize₁ hkeeps₁ hx fun dx h => (hgiven dx h).1
  have hdx : (directionAt given s).index < s.store.size ∨
      (directionAt given s).index = s.store.size + 5 := by
    cases given with
    | some dx => exact .inl (hgiven dx rfl).1
    | none => exact .inr rfl
  have hne : x.index ≠ (directionAt given s).index := by
    have hx : x.index < s.store.size := hx
    cases given with
    | some dx => exact fun e => (hgiven dx rfl).2 (by cases x; cases dx; exact congrArg Ref.mk e)
    | none => simp only [directionAt, Option.getD_none]; omega
  refine ⟨_, { s₂ with buffers := {} }, ?_, Laid.of_index hx hdx hne (hsize₁ ▸ hsize₂) hvalid, rfl,
    hout₂.trans hout₁, hkeeps₂.trans (Session.Keeps.of_store_eq rfl rfl rfl), hread⟩
  unfold opening
  rw [bind_run_ok hrun₁, bind_run_ok hrun₂]
  rfl

variable [Magnitude R] (M : Method V S R σ) (notify : Option (R → Nat → Run V S R σ Bool))

theorem run_eq_opening (x : Ref) (given : Option Ref) :
    run P M notify x given = opening P x given >>= fun v => (do
      let n ← Run.demand M.maxiter
      let ending ← iterations P M notify v.1 x v.2 n 0 none
      Run.report (.ended ending)
      pure ending) := by
  simp only [run, opening, bind_assoc, pure_bind]

theorem run_of_opening {given : Option Ref} {w : Scratch}
    (h : opening P x given s = .ok (w, dx) s') :
    run P M notify x given s = (do
      let n ← Run.demand M.maxiter
      let ending ← iterations P M notify w x dx n 0 none
      Run.report (.ended ending)
      pure ending) s' := by
  rw [run_eq_opening, bind_run_ok h]

theorem run_opened {given : Option Ref} (hx : s.store.Valid x)
    (hgiven : ∀ dx ∈ given, s.store.Valid dx ∧ x ≠ dx) :
    ∃ w s', Opened P.backend w x given s s' ∧
      run P M notify x given s = (do
        let n ← Run.demand M.maxiter
        let ending ← iterations P M notify w x (directionAt given s) n 0 none
        Run.report (.ended ending)
        pure ending) s' := by
  obtain ⟨w, s', hopening, hopened⟩ := opening_run P hx hgiven
  exact ⟨w, s', hopened, run_of_opening P M notify hopening⟩

end Newton

end NewtonKrylov
