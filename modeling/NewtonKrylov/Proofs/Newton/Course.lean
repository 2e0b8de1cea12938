import NewtonKrylov.Proofs.Newton.Workspace

/-!
# The course of a run

An iteration first assesses the iterate (`Newton.assess`): it takes the residual and its norm and finds
out whether they end the run. If not, it updates the iterate. `Newton.Passes` are the sessions between
iterations, and a run either passes through all the iterations it is allowed or is closed by one of
them, at its assessment or by a failure of its update (`Newton.iterations_cases`). `Newton.Reaches`
says the same of a whole run, from the session in which it is called.

None of this depends on what the collaborators do. Where residual and norm are functions of the point
(`Newton.Evaluates`) an assessment sees the norm at the iterate and changes one scratch vector, and the
ways it ends a run are those of `Newton.Assessed`; a solver that keeps to its vectors then makes every
update a step along the direction (`Newton.update_ends`).
-/

namespace NewtonKrylov

variable {V S R σ : Type}

namespace Newton

/-! ## Iterations one by one -/

section Iterations

variable [Inhabited V] [Scalar S] [Magnitude R]
variable (P : NonlinearProblem V S R σ) (M : Method V S R σ)
variable (notify : Option (R → Nat → Run V S R σ Bool)) (w : Scratch) (x dx : Ref)

/-- The residual norm at the iterate, and how it ends the run in iteration `k` if it does. -/
def assess (k : Nat) : Run V S R σ (R × Option (Ending R)) := do
  P.residual.into w.residual x
  let err ← normAt P w.residual
  let ending ← endsAt M notify k err
  pure (err, ending)

theorem iterations_succ (remaining done : Nat) (last : Option R) :
    iterations P M notify w x dx (remaining + 1) done last = (do
      match ← assess P M notify w x (done + 1) with
      | (_, some ending) => pure ending
      | (err, none) =>
        update P M w x dx (done + 1) err
        iterations P M notify w x dx remaining (done + 1) (some err)) := by
  simp only [iterations, assess, bind_assoc, pure_bind]
  congr 1
  funext _
  congr 1
  funext err
  congr 1
  funext ending
  cases ending with
  | none => rfl
  | some ending => rfl

/-- From `s₀`, so many iterations have been completed and none has ended the run; the residual norm seen
last and the session that is left. -/
inductive Passes (s₀ : Session V S R σ) : Nat → Option R → Session V S R σ → Prop
  | start : Passes s₀ 0 none s₀
  | next {k : Nat} {last : Option R} {s s₁ s' : Session V S R σ} {err : R} (h : Passes s₀ k last s)
      (hassess : assess P M notify w x (k + 1) s = .ok (err, none) s₁)
      (hupdate : update P M w x dx (k + 1) err s₁ = .ok () s') : Passes s₀ (k + 1) (some err) s'

/-- How iteration `k`, begun in `s`, closes the run. -/
inductive Closes (k : Nat) (s : Session V S R σ) :
    EStateM.Result (Fault R) (Session V S R σ) (Ending R) → Prop
  | ended {err : R} {ending : Ending R} {s' : Session V S R σ}
      (hassess : assess P M notify w x k s = .ok (err, some ending) s') : Closes k s (.ok ending s')
  | refused {e : Fault R} {s' : Session V S R σ}
      (hassess : assess P M notify w x k s = .error e s') : Closes k s (.error e s')
  | broken {err : R} {e : Fault R} {s₁ s' : Session V S R σ}
      (hassess : assess P M notify w x k s = .ok (err, none) s₁)
      (hupdate : update P M w x dx k err s₁ = .error e s') : Closes k s (.error e s')

variable {P M notify w x dx} {s₀ s s' : Session V S R σ} {last : Option R} {k remaining : Nat} {err : R}

theorem iterations_of_ended {ending : Ending R}
    (h : assess P M notify w x (k + 1) s = .ok (err, some ending) s') :
    iterations P M notify w x dx (remaining + 1) k last s = .ok ending s' := by
  rw [iterations_succ, bind_run_ok h]
  rfl

theorem iterations_of_refused {e : Fault R}
    (h : assess P M notify w x (k + 1) s = .error e s') :
    iterations P M notify w x dx (remaining + 1) k last s = .error e s' := by
  rw [iterations_succ, bind_run_error h]

theorem iterations_of_going (h : assess P M notify w x (k + 1) s = .ok (err, none) s') :
    iterations P M notify w x dx (remaining + 1) k last s = (do
      update P M w x dx (k + 1) err
      iterations P M notify w x dx remaining (k + 1) (some err)) s' := by
  rw [iterations_succ, bind_run_ok h]

theorem Passes.iterations_cases (h : Passes P M notify w x dx s₀ k last s) (remaining : Nat) :
    (∃ last' s', Passes P M notify w x dx s₀ (k + remaining) last' s' ∧
      iterations P M notify w x dx remaining k last s =
        .ok (.exhausted (k + remaining) last') s') ∨
    ∃ j last' s', j < k + remaining ∧ Passes P M notify w x dx s₀ j last' s' ∧
      Closes P M notify w x dx (j + 1) s' (iterations P M notify w x dx remaining k last s) := by
  induction remaining generalizing k last s with
  | zero => exact .inl ⟨last, s, h, rfl⟩
  | succ remaining ih =>
    have hlt : k < k + (remaining + 1) := by omega
    cases hassess : assess P M notify w x (k + 1) s with
    | error e s₁ =>
      rw [iterations_of_refused hassess]
      exact .inr ⟨k, last, s, hlt, h, .refused hassess⟩
    | ok seen s₁ =>
      obtain ⟨err, _ | ending⟩ := seen
      · rw [iterations_of_going hassess]
        cases hupdate : update P M w x dx (k + 1) err s₁ with
        | error e s₂ =>
          rw [bind_run_error hupdate]
          exact .inr ⟨k, last, s, hlt, h, .broken hassess hupdate⟩
        | ok _ s₂ =>
          rw [bind_run_ok hupdate, Nat.add_comm remaining, ← Nat.add_assoc]
          exact ih (h.next hassess hupdate)
      · rw [iterations_of_ended hassess]
        exact .inr ⟨k, last, s, hlt, h, .ended hassess⟩

/-- The iterations pass through all they are allowed, or one of them closes the run. -/
theorem iterations_cases (n : Nat) (s₀ : Session V S R σ) :
    (∃ last s, Passes P M notify w x dx s₀ n last s ∧
      iterations P M notify w x dx n 0 none s₀ = .ok (.exhausted n last) s) ∨
    ∃ k last s, k < n ∧ Passes P M notify w x dx s₀ k last s ∧
      Closes P M notify w x dx (k + 1) s (iterations P M notify w x dx n 0 none s₀) := by
  have hstart : Passes P M notify w x dx s₀ 0 none s₀ := .start
  simpa only [Nat.zero_add] using hstart.iterations_cases n

theorem Passes.iterations_eq (h : Passes P M notify w x dx s₀ k last s) (remaining : Nat) :
    iterations P M notify w x dx (k + remaining) 0 none s₀ =
      iterations P M notify w x dx remaining k last s := by
  induction h generalizing remaining with
  | start => rw [Nat.zero_add]
  | next h hassess hupdate ih =>
    rw [Nat.add_assoc, Nat.add_comm 1, ih, iterations_of_going hassess, bind_run_ok hupdate]

end Iterations

/-- `k` iterations of a run from `s` have been completed without ending it, and left `s'`. -/
def Reaches [Inhabited V] [Scalar S] [Magnitude R] (P : NonlinearProblem V S R σ) (M : Method V S R σ)
    (notify : Option (R → Nat → Run V S R σ Bool)) (x : Ref) (given : Option Ref)
    (s : Session V S R σ) (k : Nat) (last : Option R) (s' : Session V S R σ) : Prop :=
  ∃ w dx s₀ n, opening P x given s = .ok (w, dx) s₀ ∧ M.maxiter = .ok n ∧ k ≤ n ∧
    Passes P M notify w x dx s₀ k last s'

section Reached

variable [Inhabited V] [Scalar S] [Magnitude R]
variable {P : NonlinearProblem V S R σ} {M : Method V S R σ}
variable {notify : Option (R → Nat → Run V S R σ Bool)} {w : Scratch} {x dx : Ref} {given : Option Ref}
variable {s s₀ s' : Session V S R σ} {n k : Nat} {last : Option R}

theorem Reaches.passes (h : Reaches P M notify x given s k last s')
    (hopening : opening P x given s = .ok (w, dx) s₀) : Passes P M notify w x dx s₀ k last s' := by
  obtain ⟨w', dx', s₀', -, hopening', -, -, hpasses⟩ := h
  rw [hopening] at hopening'
  obtain ⟨hrefs, rfl⟩ := EStateM.Result.ok.inj hopening'
  obtain ⟨rfl, rfl⟩ := Prod.mk.inj hrefs
  exact hpasses

/-- What a run makes of the way its iterations went: an ending is reported. -/
def reported : EStateM.Result (Fault R) (Session V S R σ) (Ending R) →
    EStateM.Result (Fault R) (Session V S R σ) (Ending R)
  | .ok ending s => .ok ending { s with log := s.log ++ [.ended ending] }
  | .error e s => .error e s

variable (notify) in
theorem run_eq_reported (hopening : opening P x given s = .ok (w, dx) s₀) (hmax : M.maxiter = .ok n) :
    run P M notify x given s = reported (iterations P M notify w x dx n 0 none s₀) := by
  have hdemand : (Run.demand M.maxiter : Run V S R σ Nat) s₀ = .ok n s₀ := by
    simp only [Run.demand, hmax]
  rw [run_of_opening P M notify hopening, bind_run_ok hdemand]
  cases hiterations : iterations P M notify w x dx n 0 none s₀ with
  | ok ending s' =>
    rw [bind_run_ok hiterations]
    rfl
  | error e s' => exact bind_run_error hiterations _

end Reached

/-! ## How an assessment ends a run -/

section Ending

variable {s : Type} (M : Method V S R σ) (notify : Option (R → Nat → EStateM (Fault R) s Bool))
variable (k : Nat) (err : R)

/-- What the callback answers; without one, not to stop. -/
def answer : EStateM (Fault R) s Bool :=
  match notify with
  | none => pure false
  | some tell => tell err k

/-- How an answer and the norm end iteration `k`. -/
def verdict (stop : Bool) : Option (Ending R) :=
  if stop then some (.stopped k err) else if M.accepts err then some (.converged k err) else none

variable {M notify k err} {a a' : s}

theorem verdict_eq_none {stop : Bool} (h : verdict M k err stop = none) :
    M.accepts err = false := by
  unfold verdict at h
  split at h
  · exact nomatch h
  · split at h
    · exact nomatch h
    · exact Bool.eq_false_iff.mpr ‹_›

theorem verdict_eq_some {stop : Bool} {ending : Ending R} (h : verdict M k err stop = some ending) :
    ending = .stopped k err ∧ stop = true ∨ ending = .converged k err ∧ M.accepts err = true := by
  unfold verdict at h
  split at h
  · exact .inl ⟨(Option.some.inj h).symm, ‹_›⟩
  · split at h
    · exact .inr ⟨(Option.some.inj h).symm, ‹_›⟩
    · exact nomatch h

variable [Magnitude R]

theorem endsAt_of_finite (h : M.checkFinite = true → Magnitude.isFinite err = true) :
    endsAt M notify k err = (do
      let stop ← answer notify k err
      pure (verdict M k err stop)) := by
  have hfine : ¬(M.checkFinite && !Magnitude.isFinite err) = true := by
    cases hcheck : M.checkFinite with
    | false => simp
    | true => simp [h hcheck]
  have hverdict : ∀ stop, (if stop then pure (some (.stopped k err))
      else if M.accepts err then pure (some (.converged k err)) else pure none :
        EStateM (Fault R) s (Option (Ending R))) = pure (verdict M k err stop) := by
    intro stop
    unfold verdict
    split
    · rfl
    · split
      · rfl
      · rfl
  unfold endsAt answer
  rw [if_neg hfine]
  cases notify with
  | none => exact congrArg (pure false >>= ·) (funext hverdict)
  | some tell => exact congrArg (tell err k >>= ·) (funext hverdict)

theorem endsAt_of_not_finite (hcheck : M.checkFinite = true)
    (herr : Magnitude.isFinite err = false) :
    endsAt M notify k err a = .error (.nonFinite k err) a := by
  unfold endsAt
  rw [hcheck, herr]
  rfl

theorem endsAt_ok {ending : Option (Ending R)} (h : endsAt M notify k err a = .ok ending a') :
    (M.checkFinite = true → Magnitude.isFinite err = true) ∧
      ∃ stop, answer notify k err a = .ok stop a' ∧ ending = verdict M k err stop := by
  have hfinite : M.checkFinite = true → Magnitude.isFinite err = true := by
    intro hcheck
    by_contra herr
    rw [endsAt_of_not_finite hcheck (Bool.eq_false_iff.mpr herr)] at h
    exact nomatch h
  rw [endsAt_of_finite hfinite] at h
  refine ⟨hfinite, ?_⟩
  cases hanswer : answer notify k err a with
  | ok stop a₁ =>
    rw [bind_run_ok hanswer] at h
    obtain ⟨rfl, rfl⟩ := EStateM.Result.ok.inj h
    exact ⟨stop, rfl, rfl⟩
  | error e a₁ =>
    rw [bind_run_error hanswer] at h
    exact nomatch h

theorem endsAt_error {e : Fault R} (h : endsAt M notify k err a = .error e a') :
    (M.checkFinite = true ∧ Magnitude.isFinite err = false ∧ e = .nonFinite k err ∧ a' = a) ∨
      answer notify k err a = .error e a' := by
  by_cases hfinite : M.checkFinite = true → Magnitude.isFinite err = true
  · rw [endsAt_of_finite hfinite] at h
    cases hanswer : answer notify k err a with
    | ok stop a₁ =>
      rw [bind_run_ok hanswer] at h
      exact nomatch h
    | error e' a₁ =>
      rw [bind_run_error hanswer] at h
      obtain ⟨rfl, rfl⟩ := EStateM.Result.error.inj h
      exact .inr rfl
  · obtain ⟨hcheck, herr⟩ := Classical.not_imp.mp hfinite
    rw [endsAt_of_not_finite hcheck (Bool.eq_false_iff.mpr herr)] at h
    obtain ⟨rfl, rfl⟩ := EStateM.Result.error.inj h
    exact .inl ⟨hcheck, Bool.eq_false_iff.mpr herr, rfl, rfl⟩

end Ending

/-- How a run ends in iteration `k` before an update, where the norm is `err`. -/
inductive Assessed [Magnitude R] (M : Method V S R σ)
    (notify : Option (R → Nat → Run V S R σ Bool)) (k : Nat) (err : R) :
    EStateM.Result (Fault R) (Session V S R σ) (Ending R) → Prop
  | stopped {s s₁ s' : Session V S R σ}
      (hfinite : M.checkFinite = true → Magnitude.isFinite err = true)
      (hanswer : answer notify k err s = .ok true s₁) : Assessed M notify k err (.ok (.stopped k err) s')
  | converged {s' : Session V S R σ}
      (hfinite : M.checkFinite = true → Magnitude.isFinite err = true)
      (haccepts : M.accepts err = true) : Assessed M notify k err (.ok (.converged k err) s')
  | nonFinite {s' : Session V S R σ} (hcheck : M.checkFinite = true)
      (hinfinite : Magnitude.isFinite err = false) :
      Assessed M notify k err (.error (.nonFinite k err) s')
  | refused {e : Fault R} {s s' : Session V S R σ} (hanswer : answer notify k err s = .error e s') :
      Assessed M notify k err (.error e s')

theorem Assessed.finite [Magnitude R] {M : Method V S R σ}
    {notify : Option (R → Nat → Run V S R σ Bool)} {k : Nat} {err : R} {ending : Ending R}
    {s' : Session V S R σ} (h : Assessed M notify k err (.ok ending s')) (hcheck : M.checkFinite = true) :
    Magnitude.isFinite err = true := by
  cases h with
  | stopped hfinite hanswer => exact hfinite hcheck
  | converged hfinite haccepts => exact hfinite hcheck

/-! ## Residuals and norms that are functions of the point -/

/-- Residual and norm depend on the point alone. -/
structure Evaluates (P : NonlinearProblem V S R σ) (f : V → V) (m : V → R) : Prop where
  residual_eq : P.residual = Residual.whole fun v => pure (f v)
  norm_eq : P.norm = fun v => pure (m v)

/-- The vectors, the buffers and the log are the same. -/
structure Alike (s s' : Session V S R σ) : Prop where
  store_eq : s'.store = s.store
  buffers_eq : s'.buffers = s.buffers
  log_eq : s'.log = s.log

/-- The callback changes neither vectors nor the log. -/
def Quiet (notify : Option (R → Nat → Run V S R σ Bool)) : Prop :=
  ∀ err k s, Ends (fun _ => Alike s) (Alike s) (answer notify k err) s

theorem quiet_consult (callback : Option (Callback R σ)) :
    Quiet (V := V) (S := S) (callback.map fun tell err k => Run.consult (tell err k)) := by
  intro err k s
  cases callback with
  | none => exact Ends.of_ok rfl ⟨rfl, rfl, rfl⟩
  | some tell =>
    refine (Run.consult_follows (tell err k) s).ends.mono ?_ ?_
    · rintro _ s' ⟨_, o, -, rfl⟩
      exact ⟨rfl, rfl, rfl⟩
    · rintro s' ⟨o, rfl⟩
      exact ⟨rfl, rfl, rfl⟩

/-- The norm has been remembered, and nothing else but the collaborators' state has changed. -/
structure Told (s : Session V S R σ) (k : Nat) (err : R) (s' : Session V S R σ) : Prop
    extends Alike s s' where
  history_eq : s'.history = s.history ++ [(k, err)]

theorem recording_ends (callback : Option (Callback R σ)) (err : R) (k : Nat)
    (s : Session V S R σ) :
    Ends (fun _ => Told s k err) (Told s k err) (recording callback err k) s := by
  unfold recording
  refine Ends.skip rfl ?_
  cases callback with
  | none => exact Ends.of_ok rfl ⟨⟨rfl, rfl, rfl⟩, rfl⟩
  | some tell =>
    refine (Run.consult_follows (tell err k) _).ends.mono ?_ ?_
    · rintro _ s' ⟨_, o, -, rfl⟩
      exact ⟨⟨rfl, rfl, rfl⟩, rfl⟩
    · rintro s' ⟨o, rfl⟩
      exact ⟨⟨rfl, rfl, rfl⟩, rfl⟩

theorem quiet_recording (callback : Option (Callback R σ)) :
    Quiet (V := V) (S := S) (some (recording callback)) := fun err k s =>
  (recording_ends callback err k s).mono (fun _ _ h => h.toAlike) fun _ h => h.toAlike

section Pure

variable [Inhabited V] [Magnitude R]
variable {P : NonlinearProblem V S R σ} {M : Method V S R σ} {f : V → V} {m : V → R}
variable {notify : Option (R → Nat → Run V S R σ Bool)} {w : Scratch} {x dx : Ref}
variable {s s' : Session V S R σ} {k : Nat} {err : R}

theorem assess_run (hP : Evaluates P f m) (hvalid : s.store.Valid w.residual) (k : Nat) :
    assess P M notify w x k s = (do
      let ending ← endsAt M notify k (m (f (s.store.read x)))
      pure (m (f (s.store.read x)), ending)) (s.write w.residual (f (s.store.read x))) := by
  have hinto : P.residual.into w.residual x s =
      .ok () (s.write w.residual (f (s.store.read x))) := by
    rw [hP.residual_eq]
    rfl
  have hnorm : normAt P w.residual (s.write w.residual (f (s.store.read x))) =
      .ok (m (f (s.store.read x))) (s.write w.residual (f (s.store.read x))) := by
    unfold normAt
    rw [bind_run_ok (Run.contents_run w.residual), hP.norm_eq, Session.store_write,
      Store.read_write_self hvalid]
    rfl
  unfold assess
  rw [bind_run_ok hinto, bind_run_ok hnorm]

theorem assess_ok (hP : Evaluates P f m) (hvalid : s.store.Valid w.residual)
    {ending : Option (Ending R)} (h : assess P M notify w x k s = .ok (err, ending) s') :
    err = m (f (s.store.read x)) ∧ (M.checkFinite = true → Magnitude.isFinite err = true) ∧
      ∃ stop, answer notify k err (s.write w.residual (f (s.store.read x))) = .ok stop s' ∧
        ending = verdict M k err stop := by
  rw [assess_run hP hvalid] at h
  cases hends : endsAt M notify k (m (f (s.store.read x)))
      (s.write w.residual (f (s.store.read x))) with
  | ok ending' s₁ =>
    rw [bind_run_ok hends] at h
    obtain ⟨hseen, rfl⟩ := EStateM.Result.ok.inj h
    obtain ⟨rfl, rfl⟩ := Prod.mk.inj hseen
    exact ⟨rfl, endsAt_ok hends⟩
  | error e s₁ =>
    rw [bind_run_error hends] at h
    exact nomatch h

theorem assess_error (hP : Evaluates P f m) (hvalid : s.store.Valid w.residual) {e : Fault R}
    (h : assess P M notify w x k s = .error e s') :
    (M.checkFinite = true ∧ Magnitude.isFinite (m (f (s.store.read x))) = false ∧
        e = .nonFinite k (m (f (s.store.read x))) ∧
        s' = s.write w.residual (f (s.store.read x))) ∨
      answer notify k (m (f (s.store.read x))) (s.write w.residual (f (s.store.read x))) =
        .error e s' := by
  rw [assess_run hP hvalid] at h
  cases hends : endsAt M notify k (m (f (s.store.read x)))
      (s.write w.residual (f (s.store.read x))) with
  | ok ending' s₁ =>
    rw [bind_run_ok hends] at h
    exact nomatch h
  | error e' s₁ =>
    rw [bind_run_error hends] at h
    obtain ⟨rfl, rfl⟩ := EStateM.Result.error.inj h
    exact endsAt_error hends

theorem assessed_of_ok (hP : Evaluates P f m) (hvalid : s.store.Valid w.residual)
    {ending : Ending R} {s₁ : Session V S R σ} (h : assess P M notify w x k s = .ok (err, some ending) s') :
    Assessed M notify k (m (f (s.store.read x))) (.ok ending s₁) := by
  obtain ⟨rfl, hfinite, stop, hanswer, hverdict⟩ := assess_ok hP hvalid h
  rcases verdict_eq_some hverdict.symm with ⟨rfl, rfl⟩ | ⟨rfl, haccepts⟩
  · exact .stopped hfinite hanswer
  · exact .converged hfinite haccepts

theorem assessed_of_error (hP : Evaluates P f m) (hvalid : s.store.Valid w.residual) {e : Fault R}
    (h : assess P M notify w x k s = .error e s') :
    Assessed M notify k (m (f (s.store.read x))) (.error e s') := by
  rcases assess_error hP hvalid h with ⟨hcheck, hinfinite, rfl, -⟩ | hanswer
  · exact .nonFinite hcheck hinfinite
  · exact .refused hanswer

theorem assess_told (hP : Evaluates P f m) (hvalid : s.store.Valid w.residual)
    (callback : Option (Callback R σ)) (k : Nat) :
    Ends (fun _ s' => s'.history = s.history ++ [(k, m (f (s.store.read x)))])
      (fun s' => s'.history = s.history ∨ s'.history = s.history ++ [(k, m (f (s.store.read x)))])
      (assess P M (some (recording callback)) w x k) s := by
  have hrecording := recording_ends callback (m (f (s.store.read x))) k
    (s.write w.residual (f (s.store.read x)))
  cases hassess : assess P M (some (recording callback)) w x k s with
  | ok seen s' =>
    obtain ⟨err, ending⟩ := seen
    obtain ⟨rfl, -, stop, hstop, -⟩ := assess_ok hP hvalid hassess
    exact Ends.of_ok hassess (hrecording.run_ok hstop).history_eq
  | error e s' =>
    rcases assess_error hP hvalid hassess with ⟨-, -, -, rfl⟩ | hstop
    · exact Ends.of_error hassess (.inl rfl)
    · exact Ends.of_error hassess (.inr (hrecording.run_error hstop).history_eq)

end Pure

/-! ## Updates -/

section Update

variable {w : Scratch} {x dx : Ref} {s s' : Session V S R σ}

/-- Between iterations: the vectors are where they were laid, apart from the kept ones. -/
structure Settled (w : Scratch) (x dx : Ref) (s : Session V S R σ) : Prop where
  laid : Laid w x dx s
  apart : s.Apart (workspace w x dx)

theorem Settled.of_size_le (h : Settled w x dx s) (hbuffers : s'.buffers = s.buffers)
    (hsize : s.store.size ≤ s'.store.size) : Settled w x dx s' :=
  ⟨h.laid.of_size_le hsize, h.apart.of_buffers_eq hbuffers hsize⟩

variable [Inhabited V]
variable {P : NonlinearProblem V S R σ} {M : Method V S R σ} {f : V → Collab R σ V}
variable {q : Inquiry S R (Fault R) σ}

/-- What an update makes of the iterate, with the direction that it leaves. -/
structure Updated [Scalar S] (K : Backend S V) (w : Scratch) (x dx : Ref) (k : Nat) (err : R)
    (s s' : Session V S R σ) : Prop where
  settled : Settled w x dx s'
  history_eq : s'.history = s.history
  step : ∃ alpha line,
    s'.store.read x = K.addScaled (s.store.read x) (s'.store.read dx) (-alpha) ∧
      s'.log = s.log ++ [.update k err alpha line]

theorem update_ends [Scalar S] (hf : P.residual = Residual.whole f) (hsolver : M.solver.Confined)
    (hsearch : ∀ profile, M.search profile M.reach = q.run Run.turn profile)
    (h : Settled w x dx s) (k : Nat) (err : R) :
    Ends (fun _ => Updated P.backend w x dx k err s)
      (fun s' => s'.store.read x = s.store.read x ∧ s'.history = s.history ∧ s'.log = s.log)
      (update P M w x dx k err) s := by
  have hposed := directionProblem_posed (M := M) hf h.laid
  have hx_mem := h.laid.not_mem_trial.1
  have hdx_mem := h.laid.not_mem_trial.2.1
  unfold update
  refine Ends.bind_mono (hsolver _ _ _ _ s hposed rfl h.apart) ?_ ?_
  · exact fun s' hkeeps =>
      ⟨hkeeps.read_eq x (Set.mem_insert x _), hkeeps.history_eq, hkeeps.log_eq⟩
  rintro ⟨⟩ s₁ ⟨hkeeps, hapart₁⟩
  have h₁ : Settled w x dx s₁ := ⟨h.laid.of_size_le hkeeps.size_le, hapart₁⟩
  have hx₁ : s₁.store.read x = s.store.read x := hkeeps.read_eq x (Set.mem_insert x _)
  rw [hsearch]
  refine Ends.bind_mono (search_follows hf h₁.laid q).ends ?_ ?_
  · rintro s' ⟨o, hwrote⟩
    exact ⟨(hwrote.read_eq (h₁.laid.valid x (by simp)) hx_mem).trans hx₁,
      hwrote.keeps.history_eq.trans hkeeps.history_eq, hwrote.keeps.log_eq.trans hkeeps.log_eq⟩
  rintro ⟨alpha, line⟩ s₂ ⟨_, o, rfl, hwrote⟩
  have h₂ := h₁.of_size_le hwrote.buffers_eq hwrote.keeps.size_le
  have hx₂ := hwrote.read_eq (h₁.laid.valid x (by simp)) hx_mem
  refine Ends.skip rfl (Ends.of_ok (P.backend.addScaledInto_run x x dx (-alpha)) ?_)
  refine ⟨?_, ?_, alpha, line, ?_, ?_⟩
  · exact h₂.of_size_le rfl (Nat.le_of_eq Store.size_write.symm)
  · exact hwrote.keeps.history_eq.trans hkeeps.history_eq
  · rw [Session.store_write, Store.read_write_self (h₂.laid.valid x (by simp)),
      Store.read_write_of_ne h.laid.distinct.1]
    show P.backend.addScaled (s₂.store.read x) _ _ = _
    rw [hx₂, hx₁]
  · exact congrArg (· ++ [Record.update k err alpha line])
      (hwrote.keeps.log_eq.trans hkeeps.log_eq)

end Update

/-! ## Between iterations -/

section Passes

variable [Inhabited V] [Scalar S] [Magnitude R]
variable {P : NonlinearProblem V S R σ} {M : Method V S R σ} {f : V → V} {m : V → R}
variable {notify : Option (R → Nat → Run V S R σ Bool)} {q : Inquiry S R (Fault R) σ}
variable {w : Scratch} {x dx : Ref} {s₀ s s' : Session V S R σ} {k : Nat} {last : Option R}

omit [Inhabited V] [Scalar S] [Magnitude R] in
theorem Settled.of_alike (h : Settled w x dx s) {r : Ref} {v : V} (hs' : Alike (s.write r v) s') :
    Settled w x dx s' := by
  refine h.of_size_le hs'.buffers_eq ?_
  rw [hs'.store_eq, Session.store_write, Store.size_write]

variable (hP : Evaluates P f m) (hsolver : M.solver.Confined)
  (hsearch : ∀ profile, M.search profile M.reach = q.run Run.turn profile) (hquiet : Quiet notify)
include hP hquiet

omit [Scalar S] in
theorem assess_ends (h : Settled w x dx s) (k : Nat) :
    Ends (fun _ => Alike (s.write w.residual (f (s.store.read x))))
      (Alike (s.write w.residual (f (s.store.read x)))) (assess P M notify w x k) s := by
  have hvalid := h.laid.valid w.residual (by simp)
  have hanswer := hquiet (m (f (s.store.read x))) k (s.write w.residual (f (s.store.read x)))
  cases hassess : assess P M notify w x k s with
  | ok seen s' =>
    obtain ⟨err, ending⟩ := seen
    obtain ⟨rfl, -, stop, hstop, -⟩ := assess_ok hP hvalid hassess
    exact Ends.of_ok hassess (hanswer.run_ok hstop)
  | error e s' =>
    rcases assess_error hP hvalid hassess with ⟨-, -, -, rfl⟩ | hstop
    · exact Ends.of_error hassess ⟨rfl, rfl, rfl⟩
    · exact Ends.of_error hassess (hanswer.run_error hstop)

omit [Scalar S] in
theorem assess_read (h : Settled w x dx s) {seen : R × Option (Ending R)}
    (hassess : assess P M notify w x k s = .ok seen s') : s'.store.read x = s.store.read x := by
  rw [((assess_ends hP hquiet h k).run_ok hassess).store_eq]
  exact Store.read_write_of_ne h.laid.distinct.2.1.symm

include hsolver hsearch in
theorem Passes.settled (h : Passes P M notify w x dx s₀ k last s) (h₀ : Settled w x dx s₀) :
    Settled w x dx s := by
  induction h with
  | start => exact h₀
  | next h hassess hupdate ih =>
    have h₁ := ih.of_alike ((assess_ends hP hquiet ih _).run_ok hassess)
    exact ((update_ends hP.residual_eq hsolver hsearch h₁ _ _).run_ok hupdate).settled

include hsolver hsearch in
theorem Passes.assessed_or_going (h : Passes P M notify w x dx s₀ k last s) (h₀ : Settled w x dx s₀)
    {n : Nat} (hk : k < n) :
    Assessed M notify (k + 1) (m (f (s.store.read x)))
        (reported (iterations P M notify w x dx n 0 none s₀)) ∨
      ∃ s₁, assess P M notify w x (k + 1) s = .ok (m (f (s.store.read x)), none) s₁ := by
  have hvalid := (h.settled hP hsolver hsearch hquiet h₀).laid.valid w.residual (by simp)
  obtain ⟨remaining, rfl⟩ := Nat.exists_eq_add_of_lt hk
  rw [Nat.add_assoc, h.iterations_eq]
  cases hassess : assess P M notify w x (k + 1) s with
  | error e s' =>
    rw [iterations_of_refused hassess]
    exact .inl (assessed_of_error hP hvalid hassess)
  | ok seen s₁ =>
    obtain ⟨err, _ | ending⟩ := seen
    · obtain ⟨rfl, -⟩ := assess_ok hP hvalid hassess
      exact .inr ⟨s₁, rfl⟩
    · rw [iterations_of_ended hassess]
      exact .inl (assessed_of_ok hP hvalid hassess)

end Passes

end Newton

end NewtonKrylov
