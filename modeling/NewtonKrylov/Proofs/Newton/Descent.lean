import NewtonKrylov.Proofs.LineSearch.Descent
import NewtonKrylov.Proofs.Newton.Course

/-!
# Runs do not climb

`Newton.run_descends`: in exact arithmetic, with a line search that looks, the residual norms of a run
never increase, whatever directions the Krylov solver returns. All that is asked of the solver is that
it writes the direction and work vectors only (`KrylovSolver.Confined`).

The norm that the search reports for the scale it settles for is the norm of the very vector that the
update then makes, so it is the norm that the next iteration finds (`Descent.foretold`). It is no worse
than the norm at scale zero, and that is the norm of this iteration.
-/

namespace NewtonKrylov

variable {V σ : Type} [Inhabited V]

/-! ## What has been told and reported -/

namespace Newton

/-- The norms told are numbered and never climb; every update has the norm told in its iteration and
foretold the one of the next. -/
structure Descent (errs : List (Nat × Extended)) (steps : List (Record ℝ Extended)) : Prop where
  numbered : errs.map Prod.fst = List.range' 1 errs.length
  antitone : errs.Pairwise fun e e' => Magnitude.le e'.2 e.2 = true
  told : ∀ k err alpha line, .update k err alpha line ∈ steps → (k, err) ∈ errs
  foretold : ∀ k err alpha line e, .update k err alpha line ∈ steps → (k + 1, e) ∈ errs →
    line = some e

/-- Between iterations, `v` being the norm at the iterate. -/
structure Descending (errs : List (Nat × Extended)) (steps : List (Record ℝ Extended)) (v : EReal) :
    Prop extends Descent errs steps where
  above : ∀ e ∈ errs, Magnitude.le (.number v) e.2 = true
  last : ∀ k err alpha line, .update k err alpha line ∈ steps →
    k ≤ errs.length ∧ (k = errs.length → line = some (.number v))

section Records

variable {errs : List (Nat × Extended)} {steps : List (Record ℝ Extended)} {v v' : EReal}

theorem Descent.le_length (h : Descent errs steps) {k : Nat} {e : Extended} (hmem : (k, e) ∈ errs) :
    k ≤ errs.length := by
  have hk : k ∈ List.range' 1 errs.length := h.numbered ▸ List.mem_map_of_mem hmem
  rw [List.mem_range'_1] at hk
  omega

theorem Descent.of_ended (h : Descent errs steps) (ending : Ending Extended) :
    Descent errs (steps ++ [.ended ending]) where
  numbered := h.numbered
  antitone := h.antitone
  told := by
    intro k err alpha line hmem
    rcases List.mem_append.mp hmem with hmem | hmem
    · exact h.told k err alpha line hmem
    · simp at hmem
  foretold := by
    intro k err alpha line e hmem he
    rcases List.mem_append.mp hmem with hmem | hmem
    · exact h.foretold k err alpha line e hmem he
    · simp at hmem

theorem Descending.start (v : EReal) : Descending [] [] v where
  numbered := rfl
  antitone := List.Pairwise.nil
  told := by simp
  foretold := by simp
  above := by simp
  last := by simp

theorem Descending.tell (h : Descending errs steps v) :
    Descent (errs ++ [(errs.length + 1, .number v)]) steps where
  numbered := by
    rw [List.map_append, h.numbered, List.length_append, List.length_singleton, List.range'_concat,
      Nat.one_mul, Nat.add_comm 1]
    rfl
  antitone := by
    refine List.pairwise_append.mpr ⟨h.antitone, List.pairwise_singleton _ _, ?_⟩
    intro e he e' he'
    obtain rfl := List.mem_singleton.mp he'
    exact h.above e he
  told := fun k err alpha line hmem => List.mem_append_left _ (h.told k err alpha line hmem)
  foretold := by
    intro k err alpha line e hmem he
    rcases List.mem_append.mp he with he | he
    · exact h.foretold k err alpha line e hmem he
    · obtain ⟨hk, rfl⟩ := Prod.mk.inj (List.mem_singleton.mp he)
      exact (h.last k err alpha line hmem).2 (Nat.succ.inj hk)

theorem Descending.update (h : Descending errs steps v) (hle : v' ≤ v) (alpha : ℝ) :
    Descending (errs ++ [(errs.length + 1, .number v)])
      (steps ++ [.update (errs.length + 1) (.number v) alpha (some (.number v'))]) v' where
  toDescent := by
    refine ⟨h.tell.numbered, h.tell.antitone, ?_, ?_⟩
    · intro k err alpha' line hmem
      rcases List.mem_append.mp hmem with hmem | hmem
      · exact h.tell.told k err alpha' line hmem
      · rw [List.mem_singleton, Record.update.injEq] at hmem
        obtain ⟨rfl, rfl, -, -⟩ := hmem
        exact List.mem_append_right _ (List.mem_singleton_self _)
    intro k err alpha' line e hmem he
    rcases List.mem_append.mp hmem with hmem | hmem
    · exact h.tell.foretold k err alpha' line e hmem he
    · -- nothing has been told after the update that was just made
      have hlast := h.tell.le_length he
      rw [List.mem_singleton, Record.update.injEq] at hmem
      rw [List.length_append, List.length_singleton] at hlast
      omega
  above := by
    intro e he
    rcases List.mem_append.mp he with he | he
    · obtain ⟨k, ⟨w⟩ | _⟩ := e
      · have hv := (Extended.le_number _ _).mp (h.above _ he)
        exact (Extended.le_number _ _).mpr (hle.trans hv)
      · exact absurd (h.above _ he) (by simp [Magnitude.le])
    · obtain rfl := List.mem_singleton.mp he
      exact (Extended.le_number _ _).mpr hle
  last := by
    intro k err alpha' line hmem
    rw [List.length_append, List.length_singleton]
    rcases List.mem_append.mp hmem with hmem | hmem
    · have hk := (h.last k err alpha' line hmem).1
      exact ⟨by omega, fun he => by omega⟩
    · rw [List.mem_singleton, Record.update.injEq] at hmem
      obtain ⟨rfl, -, -, rfl⟩ := hmem
      exact ⟨Nat.le_refl _, fun _ => rfl⟩

end Records

/-! ## Runs -/

section Runs

variable {w : Scratch} {x dx : Ref} {s s' : Session V ℝ Extended σ}
variable {P : NonlinearProblem V ℝ Extended σ} {M : Method V ℝ Extended σ}
variable {f : V → V} {m : V → EReal}

/-- The problem is pure: its residual and norm depend on the point alone, and the norm is a number. -/
structure Pure (P : NonlinearProblem V ℝ Extended σ) (f : V → V) (m : V → EReal) : Prop where
  residual_eq : P.residual = Residual.whole fun v => pure (f v)
  norm_eq : P.norm = fun v => pure (.number (m v))
  stay : ∀ u v, P.backend.addScaled u v (-0) = u

def normOf (f : V → V) (m : V → EReal) (x : Ref) (s : Session V ℝ Extended σ) : EReal :=
  m (f (s.store.read x))

/-- The solver keeps the iterate, and the search settles for a scale that is no worse than zero. -/
theorem update_descends (hP : Pure P f m) (hsolver : M.solver.Confined)
    {search : LineSearch (Fault Extended)} (hsearch : M.search = search.run)
    (hpolicy : search.policy ≠ .full) {n : Nat} (hbudget : search.budget = .ok n) {a : ℝ}
    (hreach : M.reach = Reach.upTo a) (hlaid : Laid w x dx s)
    (hapart : s.Apart (workspace w x dx)) (k : Nat) (err : Extended) :
    Ends
      (fun _ s' => Laid w x dx s' ∧ s'.Apart (workspace w x dx) ∧ s'.history = s.history ∧
        normOf f m x s' ≤ normOf f m x s ∧
        ∃ alpha, s'.log = s.log ++ [.update k err alpha (some (.number (normOf f m x s')))])
      (fun s' => s'.history = s.history ∧ s'.log = s.log) (update P M w x dx k err) s := by
  have hposed := directionProblem_posed (M := M) hP.residual_eq hlaid
  unfold update
  refine Ends.bind_mono (hsolver _ _ _ _ s hposed rfl hapart) ?_ ?_
  · exact fun s' hkeeps => ⟨hkeeps.history_eq, hkeeps.log_eq⟩
  rintro ⟨⟩ s₁ ⟨hkeeps, hapart₁⟩
  have hlaid₁ := hlaid.of_size_le hkeeps.size_le
  have hx₁ : s₁.store.read x = s.store.read x := hkeeps.read_eq x (Set.mem_insert x _)
  -- the search on shared vectors settles for the scale of the search on numbers
  obtain ⟨alpha, hrun, hle⟩ := LineSearch.run_no_worse (ε := Fault Extended) hpolicy hbudget a
    (fun alpha => m (f (P.backend.addScaled (s₁.store.read x) (s₁.store.read dx) (-alpha)))) s₁.outside
  have hlook := lineSearch_follows hP.residual_eq hlaid₁ search (.upTo a)
  rw [hP.norm_eq] at hlook
  obtain ⟨_, s₂, hrun₂, rfl, hwrote⟩ := hlook.exists_ok hrun
  rw [hsearch, hreach]
  refine Ends.skip hrun₂ (Ends.skip rfl ?_)
  have hx₂ := hwrote.read_eq (hlaid₁.valid x (by simp)) hlaid.not_mem_trial.1
  have hdx₂ := hwrote.read_eq (hlaid₁.valid dx (by simp)) hlaid.not_mem_trial.2.1
  have hlaid₂ := hlaid₁.of_size_le hwrote.keeps.size_le
  have hnorm : ∀ log, normOf f m x (Session.write { s₂ with log := log } x
      (P.backend.addScaled (s₂.store.read x) (s₂.store.read dx) (-alpha))) =
        m (f (P.backend.addScaled (s₁.store.read x) (s₁.store.read dx) (-alpha))) := fun log => by
    rw [normOf, Session.store_write, Store.read_write_self (hlaid₂.valid x (by simp)), hx₂, hdx₂]
  refine Ends.of_ok (P.backend.addScaledInto_run x x dx (-alpha)) ⟨?_, ?_, ?_, ?_, alpha, ?_⟩
  · exact hlaid₂.of_size_le (Nat.le_of_eq Store.size_write.symm)
  · exact (hapart₁.of_buffers_eq hwrote.buffers_eq hwrote.keeps.size_le).of_buffers_eq rfl
      (Nat.le_of_eq Store.size_write.symm)
  · exact hwrote.keeps.history_eq.trans hkeeps.history_eq
  · refine (hnorm _).trans_le (hle.trans_eq ?_)
    rw [hP.stay, hx₁]
    rfl
  · refine (congrArg (· ++ [_]) (hwrote.keeps.log_eq.trans hkeeps.log_eq)).trans ?_
    rw [hnorm]

omit [Inhabited V] in
/-- A run that ends here is not out of iterations; one that fails here may not have told the norm. -/
theorem endsAt_ends (M : Method V ℝ Extended σ) (callback : Option (Callback Extended σ)) (k : Nat)
    (err : Extended) (s : Session V ℝ Extended σ) :
    Ends
      (fun ending s' => Told s k err s' ∧ ∀ done last, ending ≠ some (.exhausted done last))
      (fun s' => s' = s ∨ Told s k err s') (endsAt M (some (recording callback)) k err) s := by
  unfold endsAt
  refine Ends.ite (fun _ => Ends.of_error rfl (.inl rfl)) fun _ => ?_
  refine Ends.bind_mono (recording_ends callback err k s) (fun _ h => .inr h) ?_
  rintro stop s' hs'
  refine Ends.ite (fun _ => Ends.of_ok rfl ⟨hs', by simp⟩) fun _ => ?_
  exact Ends.ite (fun _ => Ends.of_ok rfl ⟨hs', by simp⟩) fun _ => Ends.of_ok rfl ⟨hs', by simp⟩

/-- What has been told and reported since a run began. -/
structure Descends (w : Scratch) (x dx : Ref) (v : EReal) (s₀ s : Session V ℝ Extended σ)
    (errs : List (Nat × Extended)) (steps : List (Record ℝ Extended)) : Prop where
  laid : Laid w x dx s
  apart : s.Apart (workspace w x dx)
  history_eq : s.history = s₀.history ++ errs
  log_eq : s.log = s₀.log ++ steps
  descending : Descending errs steps v

/-- The records since `s₀` are a descent. -/
def Descended (s₀ s : Session V ℝ Extended σ) (errs : List (Nat × Extended))
    (steps : List (Record ℝ Extended)) : Prop :=
  s.history = s₀.history ++ errs ∧ s.log = s₀.log ++ steps ∧ Descent errs steps

theorem iterations_descend (hP : Pure P f m) (hsolver : M.solver.Confined)
    {search : LineSearch (Fault Extended)} (hsearch : M.search = search.run)
    (hpolicy : search.policy ≠ .full) {n : Nat} (hbudget : search.budget = .ok n) {a : ℝ}
    (hreach : M.reach = Reach.upTo a) (callback : Option (Callback Extended σ))
    {s₀ : Session V ℝ Extended σ} (remaining : Nat) (last : Option Extended)
    {errs : List (Nat × Extended)} {steps : List (Record ℝ Extended)}
    (h : Descends w x dx (normOf f m x s) s₀ s errs steps) :
    Ends
      (fun ending s' => ∃ errs steps, Descended s₀ s' errs steps ∧
        ∀ done last, ending = .exhausted done last →
          ∀ e ∈ errs, Magnitude.le (.number (normOf f m x s')) e.2 = true)
      (fun s' => ∃ errs steps, Descended s₀ s' errs steps)
      (iterations P M (some (recording callback)) w x dx remaining errs.length last) s := by
  induction remaining generalizing s last errs steps with
  | zero =>
    exact Ends.of_ok rfl ⟨errs, steps, ⟨h.history_eq, h.log_eq, h.descending.toDescent⟩,
      fun _ _ _ => h.descending.above⟩
  | succ remaining ih =>
    have hinto := Residual.into_follows (fun v => pure (f v)) (Session.Wrote.refl {w.residual} s)
      (h.laid.valid w.residual (by simp)) rfl x
    obtain ⟨_, s₁, hrun₁, hwrote, hread, -⟩ := hinto.exists_ok rfl
    have hx₁ := hwrote.read_eq (h.laid.valid x (by simp)) h.laid.distinct.2.1
    have hnorm : normAt P w.residual s₁ = .ok (.number (normOf f m x s)) s₁ := by
      unfold normAt
      rw [bind_run_ok (Run.contents_run w.residual), hP.norm_eq, hread]
      rfl
    have hlog₁ := hwrote.keeps.log_eq.trans h.log_eq
    have hhistory₁ := hwrote.keeps.history_eq.trans h.history_eq
    have htold : ∀ {s₂}, Told s₁ (errs.length + 1) (.number (normOf f m x s)) s₂ → s₂.history =
        s₀.history ++ (errs ++ [(errs.length + 1, .number (normOf f m x s))]) := fun htold => by
      rw [htold.history_eq, hhistory₁, List.append_assoc]
    unfold iterations
    rw [hP.residual_eq]
    refine Ends.skip hrun₁ (Ends.skip hnorm ?_)
    refine Ends.bind_mono (endsAt_ends M callback (errs.length + 1) _ s₁) ?_ ?_
    · rintro s' (rfl | hs')
      · exact ⟨errs, steps, hhistory₁, hlog₁, h.descending.toDescent⟩
      · exact ⟨_, steps, htold hs', hs'.log_eq.trans hlog₁, h.descending.tell⟩
    rintro ending s₂ ⟨hs₂, hending⟩
    have hlog₂ := hs₂.log_eq.trans hlog₁
    cases ending with
    | some ending =>
      refine Ends.of_ok rfl ⟨_, steps, ⟨htold hs₂, hlog₂, h.descending.tell⟩, ?_⟩
      exact fun done last he => absurd (congrArg some he) (hending done last)
    | none =>
      have hsize₂ : s.store.size ≤ s₂.store.size := hs₂.store_eq ▸ hwrote.keeps.size_le
      have hlaid₂ := h.laid.of_size_le hsize₂
      have hapart₂ := h.apart.of_buffers_eq (hs₂.buffers_eq.trans hwrote.buffers_eq) hsize₂
      have hnorm₂ : normOf f m x s₂ = normOf f m x s := by
        rw [normOf, hs₂.store_eq, hx₁]
        rfl
      refine Ends.bind_mono (update_descends hP hsolver hsearch hpolicy hbudget hreach hlaid₂ hapart₂
        (errs.length + 1) (.number (normOf f m x s))) ?_ ?_
      · rintro s' ⟨hhistory, hlog⟩
        exact ⟨_, steps, hhistory.trans (htold hs₂), hlog.trans hlog₂, h.descending.tell⟩
      rintro ⟨⟩ s₃ ⟨hlaid₃, hapart₃, hhistory₃, hle, alpha, hlog₃⟩
      rw [hnorm₂] at hle
      have hnext : Descends w x dx (normOf f m x s₃) s₀ s₃ _ _ :=
        ⟨hlaid₃, hapart₃, hhistory₃.trans (htold hs₂),
          hlog₃.trans ((congrArg (· ++ [_]) hlog₂).trans (List.append_assoc _ _ _)),
          h.descending.update hle alpha⟩
      have hlength : (errs ++ [(errs.length + 1, Extended.number (normOf f m x s))]).length =
          errs.length + 1 := by simp
      rw [← hlength]
      exact ih _ hnext

end Runs

/-! ## Real vectors -/

variable {d : Nat}

/-- The problem of real vectors with a pure residual function and a pure norm. -/
noncomputable def exactProblem (f : Vector ℝ d → Vector ℝ d) (measure : Vector ℝ d → Extended) :
    NonlinearProblem (Vector ℝ d) ℝ Extended σ where
  backend := (Component.plain ℝ).backend d
  residual := Residual.whole fun v => pure (f v)
  norm v := pure (measure v)

theorem exactProblem_pure (f : Vector ℝ d → Vector ℝ d) (m : Vector ℝ d → EReal) :
    Pure (exactProblem (σ := σ) f fun v => .number (m v)) f m where
  residual_eq := rfl
  norm_eq := rfl
  stay := by
    intro u v
    ext i hi
    simp [exactProblem, Component.backend, Component.plain]

/-- The norms told in a run never climb, every update reports the norm that is told next, and a run that
ends out of iterations leaves a norm that is no worse than any of them. -/
theorem run_descends (f : Vector ℝ d → Vector ℝ d) {measure : Vector ℝ d → Extended}
    (hnumber : ∀ v, measure v ≠ .notANumber) {M : Method (Vector ℝ d) ℝ Extended σ}
    (hsolver : M.solver.Confined) {search : LineSearch (Fault Extended)}
    (hsearch : M.search = search.run) (hpolicy : search.policy ≠ .full) {n : Nat}
    (hbudget : search.budget = .ok n) {a : ℝ} (hreach : M.reach = Reach.upTo a)
    (callback : Option (Callback Extended σ)) {s : Session (Vector ℝ d) ℝ Extended σ} {x : Ref}
    {given : Option Ref} (hx : s.store.Valid x) (hgiven : ∀ dx ∈ given, s.store.Valid dx ∧ x ≠ dx) :
    Ends
      (fun ending s' => ∃ errs steps, Descended s s' errs steps ∧
        ∀ done last, ending = .exhausted done last →
          ∀ e ∈ errs, Magnitude.le (measure (f (s'.store.read x))) e.2 = true)
      (fun s' => ∃ errs steps, Descended s s' errs steps)
      (run (exactProblem f measure) M (some (recording callback)) x given) s := by
  have hvalues : ∀ v, ∃ y, measure v = .number y := by
    intro v
    cases hv : measure v with
    | number y => exact ⟨y, rfl⟩
    | notANumber => exact absurd hv (hnumber v)
  choose m hm using hvalues
  obtain rfl : measure = fun v => .number (m v) := funext hm
  obtain ⟨w, s₁, hopened, hrun⟩ :=
    run_opened (exactProblem f fun v => .number (m v)) M (some (recording callback)) hx hgiven
  have hstart : Descends w x (directionAt given s) (normOf f m x s₁) s s₁ [] [] :=
    ⟨hopened.laid, hopened.apart, by simp [hopened.keeps.history_eq],
      by simp [hopened.keeps.log_eq], Descending.start _⟩
  refine Ends.of_eq hrun ?_
  refine Run.demand_ends M.maxiter
    ⟨[], [], hstart.history_eq, hstart.log_eq, hstart.descending.toDescent⟩ fun n' => ?_
  refine Ends.bind (iterations_descend (exactProblem_pure f m) hsolver hsearch hpolicy hbudget hreach
    callback n' none hstart) ?_
  rintro ending s₂ ⟨errs, steps, ⟨hhistory, hlog, hdescent⟩, hlast⟩
  refine Ends.skip rfl (Ends.of_ok rfl ⟨errs, steps ++ [.ended ending], ⟨hhistory, ?_, ?_⟩, hlast⟩)
  · rw [← List.append_assoc, ← hlog]
  · exact hdescent.of_ended ending

/-- Bisection along directions that GMRES makes of useless coefficients. -/
noncomputable def slackMethod : Method (Vector ℝ 1) ℝ Extended Unit where
  accepts _ := false
  maxiter := .ok 3
  reach := .upTo 1
  halfWidth := .ok 1
  solver := Gmres.solve ⟨.ok 0, .ok 1, 1, .ok 0⟩ fun k _ _ => Vector.replicate k 7
  search := LineSearch.run ⟨.bisection, .ok 20⟩
  checkFinite := true

def lineSession : Session (Vector ℝ 1) ℝ Extended Unit where
  store := (({} : Store (Vector ℝ 1)).push "x" #v[1]).push "dx" #v[1 + 1]
  outside := ()

theorem run_slack_descends :
    Ends
      (fun ending s' => ∃ errs steps, Descended lineSession s' errs steps ∧
        ∀ done last, ending = .exhausted done last →
          ∀ e ∈ errs, Magnitude.le (.number (s'.store.read ⟨0⟩)[0]) e.2 = true)
      (fun s' => ∃ errs steps, Descended lineSession s' errs steps)
      (run (exactProblem (fun v => v) fun v => .number v[0]) slackMethod (some (recording none)) ⟨0⟩
        (some ⟨1⟩)) lineSession := by
  have hpolicy : (⟨.bisection, .ok 20⟩ : LineSearch (Fault Extended)).policy ≠ .full := by decide
  refine run_descends (fun v => v) (by simp) (M := slackMethod) (Gmres.solve_confined _ _) rfl
    hpolicy rfl rfl none Nat.zero_lt_two ?_
  intro dx hdx
  obtain rfl := Option.some.inj hdx
  exact ⟨Nat.one_lt_two, by decide⟩

end Newton

end NewtonKrylov
