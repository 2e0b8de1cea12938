import NewtonKrylov.Proofs.Discretion
import NewtonKrylov.Proofs.Newton.Course
import NewtonKrylov.Proofs.Newton.Recurrence

/-!
# The rounds of a run

A round is a completed iteration, with what it asks the collaborators in order: the residual at the
iterate and its norm, the callback, the solver, the line search; then it reports and steps
(`Newton.Rounds`). After its rounds a run ends in one of four ways (`Newton.Exits`), the first three in
an iteration that asks neither the solver nor the line search, or a collaborator fails
(`Newton.Raises`).

`Newton.run_rounds`: every run is such a course, with one report for each round and one for its ending.
Nothing is assumed of the residual function, the norm and the callback, nor of the arithmetic; the
solver and the line search may do anything but report and look into the log.
-/

namespace NewtonKrylov

variable {V S R σ : Type}

namespace Newton

/-- What a completed iteration has seen and done: the residual norm, then a step along a direction. -/
structure Round (V S R : Type) where
  residual : R
  direction : V
  alpha : S
  line : Option R

/-- What rounds report. -/
def written (rs : List (Round V S R)) : List (Record S R) :=
  rs.mapIdx fun i r => .update (i + 1) r.residual r.alpha r.line

/-- What the callback is told in rounds. -/
def told (rs : List (Round V S R)) : List (Nat × R) := rs.mapIdx fun i r => (i + 1, r.residual)

/-- Where the steps of rounds lead from `v`. -/
def walk [Scalar S] (K : Backend S V) (v : V) (rs : List (Round V S R)) : V :=
  rs.foldl (fun v r => K.addScaled v r.direction (-r.alpha)) v

section Lists

variable (rs : List (Round V S R)) (r : Round V S R)

theorem written_concat :
    written (rs ++ [r]) = written rs ++ [.update (rs.length + 1) r.residual r.alpha r.line] :=
  List.mapIdx_concat

theorem told_concat : told (rs ++ [r]) = told rs ++ [(rs.length + 1, r.residual)] :=
  List.mapIdx_concat

theorem walk_concat [Scalar S] (K : Backend S V) (v : V) :
    walk K v (rs ++ [r]) = K.addScaled (walk K v rs) r.direction (-r.alpha) :=
  List.foldl_concat ..

theorem level_written : (written rs).map Record.level = List.replicate rs.length Level.debug := by
  refine List.eq_replicate_iff.mpr ⟨by simp [written], fun level hlevel => ?_⟩
  obtain ⟨record, hrecord, rfl⟩ := List.mem_map.mp hlevel
  obtain ⟨i, hi, rfl⟩ := List.mem_mapIdx.mp hrecord
  rfl

end Lists

/-- What the callback is told in the iteration that a run ends in; nothing where the norm may not be
seen. -/
def lastTold : EStateM.Result (Fault R) (Session V S R σ) (Ending R) → List (Nat × R)
  | .ok (.stopped k err) _ => [(k, err)]
  | .ok (.converged k err) _ => [(k, err)]
  | _ => []

/-- The callback remembers what it is told, also where it fails. -/
def Remembers (notify : Option (R → Nat → Run V S R σ Bool)) : Prop :=
  ∀ err k s, Ends (fun _ s' => s'.history = s.history ++ [(k, err)])
    (fun s' => s'.history = s.history ++ [(k, err)]) (answer notify k err) s

/-! ## The parts of an iteration -/

section Measure

variable {w : Scratch} {x : Ref} {s s' : Session V S R σ}

/-- The residual has been put in its place; the collaborators may have changed their state. -/
def Refilled (w : Scratch) (s s' : Session V S R σ) : Prop :=
  ∃ v, Alike (s.write w.residual v) s'

theorem Refilled.alike {s₁ : Session V S R σ} (h : Refilled w s s₁) (h' : Alike s₁ s') :
    Refilled w s s' := by
  obtain ⟨v, halike⟩ := h
  exact ⟨v, h'.store_eq.trans halike.store_eq, h'.buffers_eq.trans halike.buffers_eq,
    h'.log_eq.trans halike.log_eq⟩

theorem Refilled.log_eq (h : Refilled w s s') : s'.log = s.log := by
  obtain ⟨v, halike⟩ := h
  exact halike.log_eq

variable [Inhabited V]

theorem Refilled.refl (w : Scratch) (s : Session V S R σ) (o : σ) :
    Refilled w s { s with outside := o } :=
  ⟨s.store.read w.residual, by rw [Session.write_read], rfl, rfl⟩

theorem Refilled.read_eq (h : Refilled w s s') {r : Ref} (hr : w.residual ≠ r) :
    s'.store.read r = s.store.read r := by
  obtain ⟨v, halike⟩ := h
  rw [halike.store_eq, Session.store_write, Store.read_write_of_ne hr]

/-- The residual at the iterate, put in its place, and its norm. -/
def measure (P : NonlinearProblem V S R σ) (w : Scratch) (x : Ref) : Run V S R σ R := do
  P.residual.into w.residual x
  normAt P w.residual

variable {P : NonlinearProblem V S R σ}

theorem measure_ends (s : Session V S R σ) :
    Ends (fun _ s' => Refilled w s s' ∧ s'.history = s.history)
      (fun s' => Refilled w s s' ∧ s'.history = s.history) (measure P w x) s := by
  unfold measure Residual.into
  simp only [bind_assoc]
  refine Ends.skip (Run.contents_run w.residual) (Ends.skip (Run.contents_run x) ?_)
  refine Ends.bind_mono (Run.consult_follows _ s).ends ?_ ?_
  · rintro _ ⟨o, rfl⟩
    exact ⟨.refl w s o, rfl⟩
  rintro y _ ⟨_, o, -, rfl⟩
  refine Ends.skip (Run.overwrite_run w.residual y) (Ends.skip (Run.contents_run w.residual) ?_)
  refine (Run.consult_follows _ _).ends.mono ?_ ?_
  · rintro _ _ ⟨_, o', -, rfl⟩
    exact ⟨⟨y, rfl, rfl, rfl⟩, rfl⟩
  · rintro _ ⟨o', rfl⟩
    exact ⟨⟨y, rfl, rfl, rfl⟩, rfl⟩

end Measure

section Answer

variable [Inhabited V] [Magnitude R]

/-- In iteration `k` the callback was told a norm that may be seen, and answered whether to stop. -/
structure Heard (P : NonlinearProblem V S R σ) (M : Method V S R σ)
    (notify : Option (R → Nat → Run V S R σ Bool)) (w : Scratch) (x : Ref) (k : Nat) (stop : Bool)
    (err : R) (s s' : Session V S R σ) : Prop where
  measured : ∃ s₁, measure P w x s = .ok err s₁ ∧ answer notify k err s₁ = .ok stop s'
  finite : M.checkFinite = true → Magnitude.isFinite err = true

variable {P : NonlinearProblem V S R σ} {M : Method V S R σ}
variable {notify : Option (R → Nat → Run V S R σ Bool)} {w : Scratch} {x : Ref}
variable {s s' : Session V S R σ} {k : Nat} {err : R}

theorem Heard.refilled {stop : Bool} (hquiet : Quiet notify)
    (h : Heard P M notify w x k stop err s s') : Refilled w s s' := by
  obtain ⟨s₁, hmeasure, hanswer⟩ := h.measured
  exact ((measure_ends s).run_ok hmeasure).1.alike ((hquiet err k s₁).run_ok hanswer)

theorem Heard.history_eq {stop : Bool} (hremembers : Remembers notify)
    (h : Heard P M notify w x k stop err s s') : s'.history = s.history ++ [(k, err)] := by
  obtain ⟨s₁, hmeasure, hanswer⟩ := h.measured
  rw [(hremembers err k s₁).run_ok hanswer, ((measure_ends s).run_ok hmeasure).2]

theorem assess_eq (k : Nat) : assess P M notify w x k = (do
    let err ← measure P w x
    let ending ← endsAt M notify k err
    pure (err, ending)) := by
  simp only [assess, measure, bind_assoc]

theorem heard_of_assess {ending : Option (Ending R)}
    (h : assess P M notify w x k s = .ok (err, ending) s') :
    ∃ stop, Heard P M notify w x k stop err s s' ∧ ending = verdict M k err stop := by
  rw [assess_eq] at h
  obtain ⟨err', s₁, hmeasure, h⟩ := bind_eq_ok h
  obtain ⟨ending', s₂, hends, h⟩ := bind_eq_ok h
  obtain ⟨hseen, rfl⟩ := EStateM.Result.ok.inj h
  obtain ⟨rfl, rfl⟩ := Prod.mk.inj hseen
  obtain ⟨hfinite, stop, hanswer, hverdict⟩ := endsAt_ok hends
  exact ⟨stop, ⟨⟨s₁, hmeasure, hanswer⟩, hfinite⟩, hverdict⟩

theorem going_of_assess (h : assess P M notify w x k s = .ok (err, none) s') :
    Heard P M notify w x k false err s s' ∧ M.accepts err = false := by
  obtain ⟨stop, hheard, hverdict⟩ := heard_of_assess h
  cases stop with
  | true => exact nomatch hverdict
  | false => exact ⟨hheard, verdict_eq_none hverdict.symm⟩

end Answer

section Update

variable [Inhabited V] [Scalar S]

/-- The session after a round has reported and stepped. -/
def stepped (P : NonlinearProblem V S R σ) (x dx : Ref) (k : Nat) (err : R) (alpha : S)
    (line : Option R) (s : Session V S R σ) : Session V S R σ :=
  Session.write { s with log := s.log ++ [.update k err alpha line] } x
    (P.backend.addScaled (s.store.read x) (s.store.read dx) (-alpha))

variable {P : NonlinearProblem V S R σ} {M : Method V S R σ} {w : Scratch} {x dx : Ref}
variable {s s' : Session V S R σ} {k : Nat} {err : R}

theorem update_eq_ok (h : update P M w x dx k err s = .ok () s') :
    ∃ s₁ alpha line s₂, M.solver (directionProblem P M w x dx) s = .ok () s₁ ∧
      M.search (profile P w x dx) M.reach s₁ = .ok (alpha, line) s₂ ∧
      s' = stepped P x dx k err alpha line s₂ := by
  obtain ⟨⟨⟩, s₁, hsolver, h⟩ := bind_eq_ok h
  obtain ⟨⟨alpha, line⟩, s₂, hsearch, h⟩ := bind_eq_ok h
  exact ⟨s₁, alpha, line, s₂, hsolver, hsearch, (EStateM.Result.ok.inj h).2.symm⟩

theorem update_of_ok {s₁ s₂ : Session V S R σ} {alpha : S} {line : Option R} (k : Nat) (err : R)
    (hsolver : M.solver (directionProblem P M w x dx) s = .ok () s₁)
    (hsearch : M.search (profile P w x dx) M.reach s₁ = .ok (alpha, line) s₂) :
    update P M w x dx k err s = .ok () (stepped P x dx k err alpha line s₂) := by
  unfold update
  rw [bind_run_ok hsolver, bind_run_ok hsearch]
  rfl

theorem update_eq_error {e : Fault R} (h : update P M w x dx k err s = .error e s') :
    M.solver (directionProblem P M w x dx) s = .error e s' ∨
      ∃ s₁, M.solver (directionProblem P M w x dx) s = .ok () s₁ ∧
        M.search (profile P w x dx) M.reach s₁ = .error e s' := by
  rcases bind_eq_error h with hsolver | ⟨⟨⟩, s₁, hsolver, h⟩
  · exact .inl hsolver
  rcases bind_eq_error h with hsearch | ⟨⟨alpha, line⟩, s₂, hsearch, h⟩
  · exact .inr ⟨s₁, hsolver, hsearch⟩
  · exact nomatch h

theorem opening_keeps (P : NonlinearProblem V S R σ) (given : Option Ref) (hx : s.store.Valid x) :
    ∃ w dx s₀, opening P x given s = .ok (w, dx) s₀ ∧ w.residual ≠ x ∧
      s.Keeps {r | s.store.Valid r} s₀ ∧ s₀.outside = s.outside := by
  cases given with
  | none =>
    have hnone : ∀ dx ∈ (none : Option Ref), s.store.Valid dx ∧ x ≠ dx := nofun
    obtain ⟨w, s₀, hrun, hopened⟩ := opening_run P hx hnone
    exact ⟨w, _, s₀, hrun, hopened.laid.distinct.2.1.symm, hopened.keeps, hopened.outside_eq⟩
  | some dx =>
    obtain ⟨s₁, hrun, -, hout, hkeeps⟩ := allocate_run P.backend s
    have hopening : opening P x (some dx) s = .ok (_, dx) { s₁ with buffers := {} } :=
      (bind_run_ok hrun _).trans rfl
    refine ⟨_, dx, _, hopening, ?_, hkeeps.trans (Session.Keeps.of_store_eq rfl rfl rfl), hout⟩
    rintro rfl
    exact Nat.lt_irrefl _ hx

end Update

/-! ## Rounds and what follows them -/

/-- The session that is left, also by a failure. -/
def left {ε s α : Type} : EStateM.Result ε s α → s
  | .ok _ a => a
  | .error _ a => a

/-- What a run reports at its end: its ending, and nothing where it fails. -/
def closing : EStateM.Result (Fault R) (Session V S R σ) (Ending R) → List (Record S R)
  | .ok ending _ => [.ended ending]
  | .error _ _ => []

theorem left_reported (result : EStateM.Result (Fault R) (Session V S R σ) (Ending R)) :
    (left (reported result)).store = (left result).store ∧
      (left (reported result)).history = (left result).history ∧
      (left (reported result)).log = (left result).log ++ closing result := by
  cases result with
  | ok ending s => exact ⟨rfl, rfl, rfl⟩
  | error e s => exact ⟨rfl, rfl, (List.append_nil _).symm⟩

section Course

variable [Inhabited V] [Scalar S] [Magnitude R]
variable (P : NonlinearProblem V S R σ) (M : Method V S R σ)
variable (notify : Option (R → Nat → Run V S R σ Bool)) (w : Scratch) (x dx : Ref)

/-- From `s₀` on, these are the rounds so far, and the session that they leave. -/
inductive Rounds (s₀ : Session V S R σ) : List (Round V S R) → Session V S R σ → Prop
  | start : Rounds s₀ [] s₀
  | next {rs : List (Round V S R)} {s s₁ s₂ s₃ : Session V S R σ} {err : R} {alpha : S}
      {line : Option R} (h : Rounds s₀ rs s)
      (hheard : Heard P M notify w x (rs.length + 1) false err s s₁)
      (haccepts : M.accepts err = false)
      (hsolver : M.solver (directionProblem P M w x dx) s₁ = .ok () s₂)
      (hsearch : M.search (profile P w x dx) M.reach s₂ = .ok (alpha, line) s₃) :
      Rounds s₀ (rs ++ [⟨err, s₃.store.read dx, alpha, line⟩])
        (stepped P x dx (rs.length + 1) err alpha line s₃)

/-- How iterations end after rounds that left `s`, of at most `n`. -/
inductive Exits (n : Nat) (rs : List (Round V S R)) (s : Session V S R σ) :
    EStateM.Result (Fault R) (Session V S R σ) (Ending R) → Prop
  | nonFinite {err : R} {s' : Session V S R σ} (hlt : rs.length < n)
      (hmeasure : measure P w x s = .ok err s') (hcheck : M.checkFinite = true)
      (hinfinite : Magnitude.isFinite err = false) :
      Exits n rs s (.error (.nonFinite (rs.length + 1) err) s')
  | stopped {err : R} {s' : Session V S R σ} (hlt : rs.length < n)
      (hheard : Heard P M notify w x (rs.length + 1) true err s s') :
      Exits n rs s (.ok (.stopped (rs.length + 1) err) s')
  | converged {err : R} {s' : Session V S R σ} (hlt : rs.length < n)
      (hheard : Heard P M notify w x (rs.length + 1) false err s s')
      (haccepts : M.accepts err = true) : Exits n rs s (.ok (.converged (rs.length + 1) err) s')
  | exhausted (hlength : rs.length = n) :
      Exits n rs s (.ok (.exhausted n (rs.getLast?.map Round.residual)) s)

/-- A collaborator fails in iteration `k`, begun in `s`. -/
inductive Raises (k : Nat) (s : Session V S R σ) (e : Fault R) (s' : Session V S R σ) : Prop
  | measure (hmeasure : measure P w x s = .error e s')
  | callback {err : R} {s₁ : Session V S R σ} (hmeasure : Newton.measure P w x s = .ok err s₁)
      (hfinite : M.checkFinite = true → Magnitude.isFinite err = true)
      (hanswer : answer notify k err s₁ = .error e s')
  | solver {err : R} {s₁ : Session V S R σ} (hheard : Heard P M notify w x k false err s s₁)
      (haccepts : M.accepts err = false)
      (hsolver : M.solver (directionProblem P M w x dx) s₁ = .error e s')
  | search {err : R} {s₁ s₂ : Session V S R σ} (hheard : Heard P M notify w x k false err s s₁)
      (haccepts : M.accepts err = false)
      (hsolver : M.solver (directionProblem P M w x dx) s₁ = .ok () s₂)
      (hsearch : M.search (profile P w x dx) M.reach s₂ = .error e s')

variable {P M notify w x dx} {s₀ s s' : Session V S R σ} {rs : List (Round V S R)} {k n : Nat}
variable {err : R}

/-! ## Iterations as rounds -/

theorem Passes.rounds {last : Option R} (h : Passes P M notify w x dx s₀ k last s) :
    ∃ rs, rs.length = k ∧ last = rs.getLast?.map Round.residual ∧
      Rounds P M notify w x dx s₀ rs s := by
  induction h with
  | start => exact ⟨[], rfl, rfl, .start⟩
  | next h hassess hupdate ih =>
    obtain ⟨rs, rfl, -, hrounds⟩ := ih
    obtain ⟨hheard, haccepts⟩ := going_of_assess hassess
    obtain ⟨s₁, alpha, line, s₂, hsolver, hsearch, rfl⟩ := update_eq_ok hupdate
    exact ⟨_, by simp, by simp, hrounds.next hheard haccepts hsolver hsearch⟩

theorem Closes.exits_or_raises {result : EStateM.Result (Fault R) (Session V S R σ) (Ending R)}
    (h : Closes P M notify w x dx (rs.length + 1) s result) (hlt : rs.length < n) :
    Exits P M notify w x n rs s result ∨ ∃ e s', result = .error e s' ∧
      Raises P M notify w x dx (rs.length + 1) s e s' := by
  cases h with
  | ended hassess =>
    obtain ⟨stop, hheard, hverdict⟩ := heard_of_assess hassess
    rcases verdict_eq_some hverdict.symm with ⟨rfl, rfl⟩ | ⟨rfl, haccepts⟩
    · exact .inl (.stopped hlt hheard)
    · cases stop with
      | true => exact nomatch hverdict
      | false => exact .inl (.converged hlt hheard haccepts)
  | refused hassess =>
    rw [assess_eq] at hassess
    rcases bind_eq_error hassess with hmeasure | ⟨err, s₁, hmeasure, hassess⟩
    · exact .inr ⟨_, _, rfl, .measure hmeasure⟩
    rcases bind_eq_error hassess with hends | ⟨ending, s₂, -, hpure⟩
    · by_cases hfinite : M.checkFinite = true → Magnitude.isFinite err = true
      · rcases endsAt_error hends with ⟨hcheck, hinfinite, -⟩ | hanswer
        · exact absurd (hfinite hcheck) (by simp [hinfinite])
        · exact .inr ⟨_, _, rfl, .callback hmeasure hfinite hanswer⟩
      · obtain ⟨hcheck, hinfinite⟩ := Classical.not_imp.mp hfinite
        rw [Bool.not_eq_true] at hinfinite
        rw [endsAt_of_not_finite hcheck hinfinite] at hends
        obtain ⟨rfl, rfl⟩ := EStateM.Result.error.inj hends
        exact .inl (.nonFinite hlt hmeasure hcheck hinfinite)
    · exact nomatch hpure
  | broken hassess hupdate =>
    obtain ⟨hheard, haccepts⟩ := going_of_assess hassess
    rcases update_eq_error hupdate with hsolver | ⟨s₂, hsolver, hsearch⟩
    · exact .inr ⟨_, _, rfl, .solver hheard haccepts hsolver⟩
    · exact .inr ⟨_, _, rfl, .search hheard haccepts hsolver hsearch⟩

variable (P M notify w x dx) in
/-- Iterations go through rounds, and then end or fail. -/
theorem iterations_rounds (n : Nat) (s₀ : Session V S R σ) :
    ∃ rs s, Rounds P M notify w x dx s₀ rs s ∧
      (Exits P M notify w x n rs s (iterations P M notify w x dx n 0 none s₀) ∨
        rs.length < n ∧ ∃ e s', iterations P M notify w x dx n 0 none s₀ = .error e s' ∧
          Raises P M notify w x dx (rs.length + 1) s e s') := by
  rcases iterations_cases n s₀ with ⟨last, s, hpasses, hiter⟩ | ⟨k, last, s, hk, hpasses, hcloses⟩
  · obtain ⟨rs, hlength, rfl, hrounds⟩ := hpasses.rounds
    rw [hiter]
    exact ⟨rs, s, hrounds, .inl (.exhausted hlength)⟩
  · obtain ⟨rs, rfl, -, hrounds⟩ := hpasses.rounds
    refine ⟨rs, s, hrounds, ?_⟩
    rcases hcloses.exits_or_raises hk with hexits | ⟨e, s', hiter, hraises⟩
    · exact .inl hexits
    · exact .inr ⟨hk, e, s', hiter, hraises⟩

/-! ## What rounds leave -/

theorem Rounds.log_eq (hM : M.Discreet) (hquiet : Quiet notify)
    (h : Rounds P M notify w x dx s₀ rs s) : s.log = s₀.log ++ written rs := by
  induction h with
  | start => exact (List.append_nil _).symm
  | next h hheard haccepts hsolver hsearch ih =>
    rw [written_concat, ← List.append_assoc, ← ih, ← (hheard.refilled hquiet).log_eq,
      ← (hM.keeps_of_ok hsolver hsearch).log_eq]
    rfl

theorem Rounds.history_eq (hM : M.Discreet) (hremembers : Remembers notify)
    (h : Rounds P M notify w x dx s₀ rs s) : s.history = s₀.history ++ told rs := by
  induction h with
  | start => exact (List.append_nil _).symm
  | next h hheard haccepts hsolver hsearch ih =>
    rw [told_concat, ← List.append_assoc, ← ih, ← hheard.history_eq hremembers,
      ← (hM.keeps_of_ok hsolver hsearch).history_eq]
    rfl

/-- Where the iterate is left alone but for the steps, it is where they lead. -/
theorem Rounds.walks {f : V → Collab R σ V} {q : Inquiry S R (Fault R) σ} (hM : M.Discreet)
    (hquiet : Quiet notify) (hf : P.residual = Residual.whole f) (hsolver : M.solver.Confined)
    (hsearch : ∀ profile, M.search profile M.reach = q.run Run.turn profile)
    (h₀ : Settled w x dx s₀) (h : Rounds P M notify w x dx s₀ rs s) :
    Settled w x dx s ∧ s.store.read x = walk P.backend (s₀.store.read x) rs := by
  induction h with
  | start => exact ⟨h₀, rfl⟩
  | @next rs s s₁ s₂ s₃ err alpha line h hheard haccepts hsolved hsearched ih =>
    obtain ⟨hsettled, hwalk⟩ := ih
    obtain ⟨v, halike⟩ := hheard.refilled hquiet
    have h₁ := hsettled.of_alike halike
    have hupdate := update_of_ok (rs.length + 1) err hsolved hsearched
    have hupdated := (update_ends hf hsolver hsearch h₁ _ _).run_ok hupdate
    obtain ⟨alpha', line', hread, hlog⟩ := hupdated.step
    refine ⟨hupdated.settled, ?_⟩
    -- the step that is reported is the one that was taken
    have hrecord : s₃.log ++ [Record.update (rs.length + 1) err alpha line] =
      s₁.log ++ [.update (rs.length + 1) err alpha' line'] := hlog
    rw [(hM.keeps_of_ok hsolved hsearched).log_eq, List.append_cancel_left_eq, List.cons.injEq,
      Record.update.injEq] at hrecord
    obtain ⟨⟨-, -, rfl, -⟩, -⟩ := hrecord
    have hdx : (stepped P x dx (rs.length + 1) err alpha line s₃).store.read dx =
        s₃.store.read dx := Store.read_write_of_ne hsettled.laid.distinct.1
    rw [walk_concat, ← hwalk, hread, hdx,
      (hheard.refilled hquiet).read_eq hsettled.laid.distinct.2.1.symm]

/-! ## Whole runs -/

omit [Scalar S] in
theorem Exits.log_eq (hquiet : Quiet notify)
    {result : EStateM.Result (Fault R) (Session V S R σ) (Ending R)}
    (h : Exits P M notify w x n rs s result) : (left result).log = s.log := by
  cases h with
  | nonFinite hlt hmeasure => exact ((measure_ends s).run_ok hmeasure).1.log_eq
  | stopped hlt hheard => exact (hheard.refilled hquiet).log_eq
  | converged hlt hheard => exact (hheard.refilled hquiet).log_eq
  | exhausted => rfl

theorem Raises.log_eq (hM : M.Discreet) (hquiet : Quiet notify) {e : Fault R}
    (h : Raises P M notify w x dx k s e s') : s'.log = s.log := by
  cases h with
  | measure hmeasure => exact ((measure_ends s).run_error hmeasure).1.log_eq
  | callback hmeasure hfinite hanswer =>
    exact ((hquiet _ _ _).run_error hanswer).log_eq.trans ((measure_ends s).run_ok hmeasure).1.log_eq
  | solver hheard haccepts hsolver =>
    exact ((hM.solve_ends P w x dx _).run_error hsolver).log_eq.trans (hheard.refilled hquiet).log_eq
  | search hheard haccepts hsolver hsearch =>
    exact ((hM.search_ends P w x dx _).run_error hsearch).log_eq.trans
      (((hM.solve_ends P w x dx _).run_ok hsolver).log_eq.trans (hheard.refilled hquiet).log_eq)

omit [Scalar S] in
theorem Exits.read_eq (hquiet : Quiet notify) (hne : w.residual ≠ x)
    {result : EStateM.Result (Fault R) (Session V S R σ) (Ending R)}
    (h : Exits P M notify w x n rs s result) :
    (left result).store.read x = s.store.read x := by
  cases h with
  | nonFinite hlt hmeasure => exact ((measure_ends s).run_ok hmeasure).1.read_eq hne
  | stopped hlt hheard => exact (hheard.refilled hquiet).read_eq hne
  | converged hlt hheard => exact (hheard.refilled hquiet).read_eq hne
  | exhausted => rfl

omit [Scalar S] in
theorem Exits.history_eq (hremembers : Remembers notify)
    {result : EStateM.Result (Fault R) (Session V S R σ) (Ending R)}
    (h : Exits P M notify w x n rs s result) :
    (left result).history = s.history ++ lastTold result := by
  cases h with
  | nonFinite hlt hmeasure =>
    exact ((measure_ends s).run_ok hmeasure).2.trans (List.append_nil _).symm
  | stopped hlt hheard => exact hheard.history_eq hremembers
  | converged hlt hheard => exact hheard.history_eq hremembers
  | exhausted => exact (List.append_nil _).symm

/-- A run of at most `n` iterations goes through rounds from where it opens, and then exits or is failed
by a collaborator. An exit leaves the iterate as the rounds did, and a callback that remembers has been
told the norm of each round, then the one that the run ended with. For each round there is one report,
and one for the ending. Where the solver and the search keep to their vectors, the iterate is its start
less the steps of the rounds. -/
theorem run_rounds (hM : M.Discreet) (hquiet : Quiet notify) (given : Option Ref)
    (hx : s.store.Valid x) (hmax : M.maxiter = .ok n) :
    ∃ w dx s₀ rs s₁ result,
      opening P x given s = .ok (w, dx) s₀ ∧ s₀.store.read x = s.store.read x ∧
      s₀.outside = s.outside ∧ Rounds P M notify w x dx s₀ rs s₁ ∧
      run P M notify x given s = reported result ∧
      (Exits P M notify w x n rs s₁ result ∧
          (left (reported result)).store.read x = s₁.store.read x ∧
          (Remembers notify →
            (left (reported result)).history = s.history ++ told rs ++ lastTold result) ∨
        rs.length < n ∧ ∃ e s', result = .error e s' ∧
          Raises P M notify w x dx (rs.length + 1) s₁ e s') ∧
      (left (reported result)).log = s.log ++ written rs ++ closing result ∧
      (written rs).map Record.level = List.replicate rs.length Level.debug ∧
      ∀ (f : V → Collab R σ V) (q : Inquiry S R (Fault R) σ), P.residual = Residual.whole f →
        M.solver.Confined → (∀ profile, M.search profile M.reach = q.run Run.turn profile) →
        (∀ dx ∈ given, s.store.Valid dx ∧ x ≠ dx) →
        s₁.store.read x = walk P.backend (s.store.read x) rs := by
  obtain ⟨w, dx, s₀, hopening, hne, hkeeps, hout⟩ := opening_keeps P given hx
  obtain ⟨rs, s₁, hrounds, hended⟩ := iterations_rounds P M notify w x dx n s₀
  have hread₀ : s₀.store.read x = s.store.read x := hkeeps.read_eq x hx
  obtain ⟨hstore, hhistory, hlog⟩ :=
    left_reported (iterations P M notify w x dx n 0 none s₀)
  refine ⟨w, dx, s₀, rs, s₁, _, hopening, hread₀, hout, hrounds,
    run_eq_reported notify hopening hmax, ?_, ?_, level_written rs, ?_⟩
  · rcases hended with hexits | hraises
    · refine .inl ⟨hexits, ?_, fun hremembers => ?_⟩
      · rw [hstore, hexits.read_eq hquiet hne]
      · rw [hhistory, hexits.history_eq hremembers, hrounds.history_eq hM hremembers,
          hkeeps.history_eq]
    · exact .inr hraises
  · have hlast : (left (iterations P M notify w x dx n 0 none s₀)).log = s₁.log := by
      rcases hended with hexits | ⟨-, e, s', hiter, hraises⟩
      · exact hexits.log_eq hquiet
      · rw [hiter]
        exact hraises.log_eq hM hquiet
    rw [hlog, hlast, hrounds.log_eq hM hquiet, hkeeps.log_eq]
  · intro f q hf hsolver hsearch hgiven
    obtain ⟨w', s₀', hopening', hopened⟩ := opening_run P hx hgiven
    rw [hopening] at hopening'
    obtain ⟨hrefs, rfl⟩ := EStateM.Result.ok.inj hopening'
    obtain ⟨rfl, rfl⟩ := Prod.mk.inj hrefs
    rw [← hread₀]
    exact (hrounds.walks hM hquiet hf hsolver hsearch ⟨hopened.laid, hopened.apart⟩).2

end Course

theorem crossMethod_discreet : crossMethod.Discreet :=
  .of_gmres rfl fun _ => LineSearch.run_eq_inquiry (S := Float) (R := Float) ⟨.bisection, .ok 20⟩

theorem run_cross_rounds :
    crossMethod.Discreet ∧ crossMethod.maxiter = .ok 100 ∧ ∃ rs result,
      run crossProblem crossMethod (some (recording (some crossTell))) ⟨0⟩ (some ⟨1⟩) crossSession =
        reported result ∧ rs.length ≤ 100 ∧
      (left (reported result)).log = written (V := Vector Float 3) rs ++ closing result := by
  refine ⟨crossMethod_discreet, rfl, ?_⟩
  obtain ⟨w, dx, s₀, rs, s₁, result, -, -, -, -, hrun, hended, hlog, -, -⟩ :=
    run_rounds (P := crossProblem) (s := crossSession) (x := ⟨0⟩) crossMethod_discreet
      (quiet_recording (some crossTell)) (some ⟨1⟩) Nat.zero_lt_two rfl
  refine ⟨rs, result, hrun, ?_, hlog⟩
  rcases hended with ⟨hexits, -, -⟩ | ⟨hlt, -⟩
  · cases hexits with
    | nonFinite hlt => exact hlt.le
    | stopped hlt => exact hlt.le
    | converged hlt => exact hlt.le
    | exhausted hlength => exact hlength.le
  · exact hlt.le

end Newton

end NewtonKrylov
