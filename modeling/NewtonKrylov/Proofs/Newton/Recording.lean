import NewtonKrylov.Proofs.Newton.Rounds

/-!
# Recording changes nothing else

Solving with a record tells another callback than solving does, one that first remembers what it is
told. Nothing that a discreet method does depends on what has been remembered, so both runs go the same
way: from sessions that are the same but for that, they end in such sessions (`Newton.run_mirrors`).

`Newton.solveWithHistory_follows`: solving with a record fails where solving fails and for the same
cause, and leaves the same session but for the record. Where it returns, the record is what the rounds
of the run tell, and what the run ended with. The state of the collaborators is part of the session and
open, so they may keep in it what they were asked and in which order: that is the same as well.
-/

namespace NewtonKrylov

variable {V S R σ : Type} [Inhabited V]

namespace Newton

omit [Inhabited V] in
theorem recording_remembers (callback : Option (Callback R σ)) :
    Remembers (V := V) (S := S) (some (recording callback)) := fun err k s =>
  (recording_ends callback err k s).mono (fun _ _ h => h.history_eq) fun _ h => h.history_eq

/-- The callback of a run without a record. -/
def consulting (callback : Option (Callback R σ)) : Option (R → Nat → Run V S R σ Bool) :=
  callback.map fun tell err k => Run.consult (tell err k)

theorem recording_mirrors (h : List (Nat × R)) (callback : Option (Callback R σ)) (err : R) (k : Nat) :
    Run.Mirrors (V := V) (S := S) h (recording callback err k) (answer (consulting callback) k err) := by
  intro s
  unfold recording
  rw [bind_run_ok (show Run.remember k err s = .ok () _ from rfl)]
  cases callback with
  | none => rfl
  | some tell =>
    exact (Run.Discreet.consult (V := V) (S := S) (tell err k)).blind h
      (s.withHistory (s.history ++ [(k, err)]))

section Mirrored

variable [Scalar S] [Magnitude R] (P : NonlinearProblem V S R σ) {M : Method V S R σ}
variable (h : List (Nat × R)) (callback : Option (Callback R σ)) (w : Scratch) (x dx : Ref)

omit [Scalar S] in
theorem endsAt_mirrors (k : Nat) (err : R) :
    Run.Mirrors (V := V) (S := S) h (endsAt M (some (recording callback)) k err)
      (endsAt M (consulting callback) k err) := by
  by_cases hfinite : M.checkFinite = true → Magnitude.isFinite err = true
  · rw [endsAt_of_finite hfinite, endsAt_of_finite hfinite]
    exact (recording_mirrors h callback err k).bind fun _ _ => rfl
  · obtain ⟨hcheck, herr⟩ := Classical.not_imp.mp hfinite
    rw [Bool.not_eq_true] at herr
    intro s
    rw [endsAt_of_not_finite hcheck herr, endsAt_of_not_finite hcheck herr]
    rfl

variable (hM : M.Discreet)
include hM

omit [Magnitude R] in
theorem update_mirrors (k : Nat) (err : R) :
    Run.Mirrors h (update P M w x dx k err) (update P M w x dx k err) := by
  refine .bind ((hM.solver _ (directionProblem_discreet P w x dx)).blind h) fun _ => ?_
  refine .bind ((hM.search _ (profile_discreet P w x dx)).blind h) fun step => ?_
  refine .bind (fun _ => rfl) fun _ => ?_
  exact (P.backend.addScaledInto_discreet x x dx (-step.1)).blind h

theorem iterations_mirror (remaining done : Nat) (last : Option R) :
    Run.Mirrors h (iterations P M (some (recording callback)) w x dx remaining done last)
      (iterations P M (consulting callback) w x dx remaining done last) := by
  induction remaining generalizing done last with
  | zero => exact fun _ => rfl
  | succ remaining ih =>
    unfold iterations
    refine .bind ((P.residual.into_discreet w.residual x).blind h) fun _ => ?_
    refine .bind ((normAt_discreet P w.residual).blind h) fun err => ?_
    refine .bind (endsAt_mirrors h callback (done + 1) err) fun ending => ?_
    cases ending with
    | some ending => exact fun _ => rfl
    | none =>
      exact .bind (update_mirrors P h w x dx hM (done + 1) err) fun _ => ih (done + 1) (some err)

/-- A run with a record and one without go the same way. -/
theorem run_mirrors (given : Option Ref) :
    Run.Mirrors h (run P M (some (recording callback)) x given)
      (run P M (consulting callback) x given) := by
  rw [run_eq_opening, run_eq_opening]
  refine .bind ((opening_discreet P x given).blind h) fun v => ?_
  refine .bind ((Run.Discreet.demand M.maxiter).blind h) fun n => ?_
  refine .bind (iterations_mirror P h callback v.1 x v.2 hM n 0 none) fun ending => ?_
  exact .bind (fun _ => rfl) fun _ _ => rfl

theorem run_recorded {given : Option Ref} {s s' : Session V S R σ} {ending : Ending R}
    (hrun : run P M (some (recording callback)) x given s = .ok ending s') :
    ∃ w dx s₀ n rs s₁ s₂, opening P x given s = .ok (w, dx) s₀ ∧ M.maxiter = .ok n ∧
      Rounds P M (some (recording callback)) w x dx s₀ rs s₁ ∧
      Exits P M (some (recording callback)) w x n rs s₁ (.ok ending s₂) ∧
      s'.history = s.history ++ told rs ++ lastTold (.ok ending s₂) := by
  have hremembers := recording_remembers (V := V) (S := S) callback
  have hopens := (opening_discreet P x given).keeps s
  rw [run_eq_opening] at hrun
  obtain ⟨⟨w, dx⟩, s₀, hopening, hrun⟩ := bind_eq_ok hrun
  obtain ⟨n, s₀', hdemand, hrun⟩ := bind_eq_ok hrun
  obtain ⟨ending', s₂, hiter, hrun⟩ := bind_eq_ok hrun
  obtain ⟨rfl, rfl⟩ := EStateM.Result.ok.inj hrun
  have hmax : M.maxiter = .ok n ∧ s₀' = s₀ := by
    cases hmax : M.maxiter with
    | error e =>
      rw [hmax] at hdemand
      exact nomatch hdemand
    | ok m =>
      rw [hmax] at hdemand
      obtain ⟨rfl, rfl⟩ := EStateM.Result.ok.inj hdemand
      exact ⟨rfl, rfl⟩
  obtain ⟨hmax, rfl⟩ := hmax
  obtain ⟨rs, s₁, hrounds, hended⟩ := iterations_rounds P M (some (recording callback)) w x dx n s₀'
  rw [hiter] at hended
  rcases hended with hexits | ⟨-, e, s'', herror, -⟩
  · refine ⟨w, dx, s₀', n, rs, s₁, s₂, hopening, hmax, hrounds, hexits, ?_⟩
    rw [← (hopens.run_ok hopening).history_eq, ← hrounds.history_eq hM hremembers]
    exact hexits.history_eq hremembers
  · exact nomatch herror

/-- Solving with a record fails where solving fails, for the same cause, and leaves the same session but
for the record. Where it returns, the record holds what the callback was told in each round and in the
iteration that the run ended with; without such an iteration all that are allowed have been rounds. -/
theorem solveWithHistory_follows (given : Option Ref) (s : Session V S R σ) :
    Follows
      (fun history recorded ending plain => plain = recorded.withHistory s.history ∧
        ∃ w dx s₀ n rs s₁ s₂, opening P x given (s.withHistory []) = .ok (w, dx) s₀ ∧
          M.maxiter = .ok n ∧ Rounds P M (some (recording callback)) w x dx s₀ rs s₁ ∧
          Exits P M (some (recording callback)) w x n rs s₁ (.ok ending s₂) ∧
          history = told rs ++ lastTold (.ok ending s₂))
      (fun recorded plain => plain = recorded.withHistory s.history)
      (solveWithHistory P M callback x given) s (solve P M callback x given) s := by
  have hmirrors := run_mirrors P s.history callback x hM given (s.withHistory [])
  rw [show (s.withHistory []).withHistory s.history = s from rfl] at hmirrors
  have hsolve : solve P M callback x given = run P M (consulting callback) x given := rfl
  rw [hsolve]
  unfold solveWithHistory
  refine Follows.skip_left (show _ = EStateM.Result.ok _ (s.withHistory []) from rfl) ?_
  cases hrun : run P M (some (recording callback)) x given (s.withHistory []) with
  | error e s' =>
    rw [hrun] at hmirrors
    exact Follows.of_error (bind_run_error hrun _) hmirrors rfl
  | ok ending s' =>
    rw [hrun] at hmirrors
    refine Follows.of_ok ((bind_run_ok hrun _).trans rfl) hmirrors ⟨rfl, ?_⟩
    exact run_recorded P callback x hM hrun

end Mirrored

theorem solveWithHistory_cross :
    crossMethod.Discreet ∧
      Follows (fun _ recorded _ plain => plain = recorded.withHistory [])
        (fun recorded plain => plain = recorded.withHistory [])
        (solveWithHistory crossProblem crossMethod (some crossTell) ⟨0⟩ (some ⟨1⟩)) crossSession
        (solve crossProblem crossMethod (some crossTell) ⟨0⟩ (some ⟨1⟩)) crossSession := by
  refine ⟨crossMethod_discreet, ?_⟩
  exact (solveWithHistory_follows crossProblem (some crossTell) ⟨0⟩ crossMethod_discreet (some ⟨1⟩)
    crossSession).mono (fun _ _ _ _ h => h.1) fun _ _ h => h

end Newton

end NewtonKrylov
