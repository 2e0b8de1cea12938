import NewtonKrylov.Krylov.GmresOptions
import NewtonKrylov.Proofs.Newton.Course

/-!
# What a run knows of the iterate it returns

A run takes the residual norm where an iteration begins and updates the iterate where it ends, so a run
that is out of iterations has not looked at the iterate that it returns. The norm it reports is the one
from before the last update (`Newton.run_exhausted`), and where every norm has to be finite, the last
iterate is the one that may not be (`Newton.run_finite`). All other iterates have been looked at.

Residual and norm are taken to be functions of the point. Solver, search and callback are open, but for
the vectors that they may change.
-/

namespace NewtonKrylov

namespace Newton

section Pure

variable {V S R σ : Type} [Inhabited V] [Scalar S] [Magnitude R]
variable {P : NonlinearProblem V S R σ} {M : Method V S R σ} {f : V → V} {m : V → R}
variable {notify : Option (R → Nat → Run V S R σ Bool)} {q : Inquiry S R (Fault R) σ}
variable {w : Scratch} {x dx : Ref} {given : Option Ref} {s s₀ s' : Session V S R σ}
variable {n k : Nat} {last : Option R}

/-- A run that completes all its iterations is out of them. -/
theorem Reaches.run_eq (hmax : M.maxiter = .ok n) (h : Reaches P M notify x given s n last s') :
    run P M notify x given s = reported (.ok (.exhausted n last) s') := by
  obtain ⟨w, dx, s₀, -, hopening, -, -, hpasses⟩ := h
  rw [run_eq_reported notify hopening hmax]
  exact congrArg reported (hpasses.iterations_eq 0)

variable (hP : Evaluates P f m) (hsolver : M.solver.Confined)
  (hsearch : ∀ profile, M.search profile M.reach = q.run Run.turn profile) (hquiet : Quiet notify)
include hP hquiet

theorem Closes.returns (h : Settled w x dx s) {ending : Ending R}
    (hcloses : Closes P M notify w x dx k s (.ok ending s')) (s₁ : Session V S R σ) :
    s'.store.read x = s.store.read x ∧
      Assessed M notify k (m (f (s.store.read x))) (.ok ending s₁) := by
  cases hcloses with
  | ended hassess =>
    exact ⟨assess_read hP hquiet h hassess,
      assessed_of_ok hP (h.laid.valid w.residual (by simp)) hassess⟩

include hsolver hsearch

/-- What a run that returns has looked at: the iterate that it returns, unless it is out of iterations. -/
theorem run_returns (hx : s.store.Valid x) (hgiven : ∀ dx ∈ given, s.store.Valid dx ∧ x ≠ dx)
    (hmax : M.maxiter = .ok n) :
    Ends
      (fun ending s' =>
        (∃ last s₁, Reaches P M notify x given s n last s₁ ∧ ending = .exhausted n last ∧
          s'.store = s₁.store) ∨
        ∃ k last s₁, k < n ∧ Reaches P M notify x given s k last s₁ ∧
          s'.store.read x = s₁.store.read x ∧
          Assessed M notify (k + 1) (m (f (s₁.store.read x))) (.ok ending s'))
      (fun _ => True) (run P M notify x given) s := by
  obtain ⟨w, s₀, hopening, hopened⟩ := opening_run P hx hgiven
  have hrun := run_eq_reported notify hopening hmax
  rcases iterations_cases n s₀ with ⟨last, s', hpasses, hiter⟩ | ⟨k, last, s₁, hk, hpasses, hcloses⟩
  · rw [hiter] at hrun
    exact Ends.of_ok hrun (.inl ⟨last, s', ⟨w, _, s₀, n, hopening, hmax, le_rfl, hpasses⟩, rfl, rfl⟩)
  · have h₁ := hpasses.settled hP hsolver hsearch hquiet ⟨hopened.laid, hopened.apart⟩
    cases hiter : iterations P M notify w x (directionAt given s) n 0 none s₀ with
    | ok ending s' =>
      rw [hiter] at hrun hcloses
      obtain ⟨hread, hassessed⟩ := hcloses.returns hP hquiet h₁ _
      exact Ends.of_ok hrun (.inr ⟨k, last, s₁, hk,
        ⟨w, _, s₀, n, hopening, hmax, hk.le, hpasses⟩, hread, hassessed⟩)
    | error e s' =>
      rw [hiter] at hrun
      exact Ends.of_error hrun trivial

theorem Reaches.last_eq (hx : s.store.Valid x) (hgiven : ∀ dx ∈ given, s.store.Valid dx ∧ x ≠ dx)
    (h : Reaches P M notify x given s (k + 1) last s') :
    ∃ before s₁ alpha, Reaches P M notify x given s k before s₁ ∧
      s'.store.read x = P.backend.addScaled (s₁.store.read x)
        (s'.store.read (directionAt given s)) (-alpha) ∧
      last = some (m (f (s₁.store.read x))) ∧ M.accepts (m (f (s₁.store.read x))) = false := by
  obtain ⟨w, s₀, hopening, hopened⟩ := opening_run P hx hgiven
  have hpasses := h.passes hopening
  obtain ⟨-, -, -, n, -, hmax, hk, -⟩ := h
  cases hpasses with
  | next hbefore hassess hupdate =>
    rename_i before s₁ s₂ err
    have h₁ := hbefore.settled hP hsolver hsearch hquiet ⟨hopened.laid, hopened.apart⟩
    have h₂ := h₁.of_alike ((assess_ends hP hquiet h₁ _).run_ok hassess)
    obtain ⟨rfl, -, stop, -, hverdict⟩ := assess_ok hP (h₁.laid.valid w.residual (by simp)) hassess
    obtain ⟨alpha, -, hstep, -⟩ :=
      ((update_ends hP.residual_eq hsolver hsearch h₂ _ _).run_ok hupdate).step
    rw [assess_read hP hquiet h₁ hassess] at hstep
    exact ⟨before, s₁, alpha, ⟨w, _, s₀, n, hopening, hmax, Nat.le_of_succ_le hk, hbefore⟩, hstep,
      rfl, verdict_eq_none hverdict.symm⟩

theorem Reaches.fails (hx : s.store.Valid x) (hgiven : ∀ dx ∈ given, s.store.Valid dx ∧ x ≠ dx)
    (hmax : M.maxiter = .ok n) (hcheck : M.checkFinite = true) (hk : k < n)
    (h : Reaches P M notify x given s k last s')
    (hinfinite : Magnitude.isFinite (m (f (s'.store.read x))) = false) :
    ∃ s'', run P M notify x given s = .error (.nonFinite (k + 1) (m (f (s'.store.read x)))) s'' ∧
      s''.store.read x = s'.store.read x := by
  obtain ⟨w, s₀, hopening, hopened⟩ := opening_run P hx hgiven
  have hpasses := h.passes hopening
  have h' := hpasses.settled hP hsolver hsearch hquiet ⟨hopened.laid, hopened.apart⟩
  obtain ⟨remaining, rfl⟩ := Nat.exists_eq_add_of_lt hk
  have hassess : assess P M notify w x (k + 1) s' =
      .error (.nonFinite (k + 1) (m (f (s'.store.read x))))
        (s'.write w.residual (f (s'.store.read x))) := by
    rw [assess_run hP (h'.laid.valid w.residual (by simp))]
    exact bind_run_error (endsAt_of_not_finite hcheck hinfinite) _
  refine ⟨s'.write w.residual (f (s'.store.read x)), ?_,
    Store.read_write_of_ne h'.laid.distinct.2.1.symm⟩
  rw [run_eq_reported notify hopening hmax, Nat.add_assoc, hpasses.iterations_eq,
    iterations_of_refused hassess]
  rfl

/-- A run that is out of iterations reports the norm at the iterate before the last update, which was
not accepted. That is the norm at the iterate it returns exactly if the update left the norm as it was. -/
theorem run_exhausted (hx : s.store.Valid x) (hgiven : ∀ dx ∈ given, s.store.Valid dx ∧ x ≠ dx)
    (hmax : M.maxiter = .ok n) (hpos : 0 < n) :
    Ends
      (fun ending s' => ∀ done last, ending = .exhausted done last →
        done = n ∧ ∃ before s₁ alpha, Reaches P M notify x given s (n - 1) before s₁ ∧
          s'.store.read x = P.backend.addScaled (s₁.store.read x)
            (s'.store.read (directionAt given s)) (-alpha) ∧
          last = some (m (f (s₁.store.read x))) ∧ M.accepts (m (f (s₁.store.read x))) = false ∧
          (last = some (m (f (s'.store.read x))) ∧ M.accepts (m (f (s'.store.read x))) = false ↔
            m (f (s'.store.read x)) = m (f (s₁.store.read x))))
      (fun _ => True) (run P M notify x given) s := by
  refine (run_returns hP hsolver hsearch hquiet hx hgiven hmax).mono ?_ fun _ h => h
  rintro ending s' hreturns done last rfl
  rcases hreturns with ⟨last', s₂, hreaches, hending, hstore⟩ | ⟨_, _, _, -, -, -, hassessed⟩
  · obtain ⟨rfl, rfl⟩ := Ending.exhausted.inj hending
    obtain ⟨k, rfl⟩ := Nat.exists_eq_succ_of_ne_zero hpos.ne'
    obtain ⟨before, s₁, alpha, hbefore, hstep, hlast, haccepts⟩ :=
      hreaches.last_eq hP hsolver hsearch hquiet hx hgiven
    rw [← hstore] at hstep
    refine ⟨rfl, before, s₁, alpha, hbefore, hstep, hlast, haccepts, ?_⟩
    rw [hlast, Option.some.injEq]
    exact ⟨fun h => h.1.symm, fun h => ⟨h.symm, h ▸ haccepts⟩⟩
  · exact nomatch hassessed

/-- Where norms have to be finite, a run fails in the first iteration that begins at an iterate where
the norm is not. A run that returns does so with a finite norm, unless it is out of iterations: exactly
if the norm is finite also where all iterations have been completed. -/
theorem run_finite (hx : s.store.Valid x) (hgiven : ∀ dx ∈ given, s.store.Valid dx ∧ x ≠ dx)
    (hmax : M.maxiter = .ok n) (hcheck : M.checkFinite = true) :
    (∀ k last s₁, k < n → Reaches P M notify x given s k last s₁ →
      Magnitude.isFinite (m (f (s₁.store.read x))) = false →
      ∃ s', run P M notify x given s = .error (.nonFinite (k + 1) (m (f (s₁.store.read x)))) s' ∧
        s'.store.read x = s₁.store.read x) ∧
    Ends
      (fun _ s' => Magnitude.isFinite (m (f (s'.store.read x))) = true ↔
        ∀ last s₁, Reaches P M notify x given s n last s₁ →
          Magnitude.isFinite (m (f (s₁.store.read x))) = true)
      (fun _ => True) (run P M notify x given) s := by
  refine ⟨fun k last s₁ hk h => h.fails hP hsolver hsearch hquiet hx hgiven hmax hcheck hk, ?_⟩
  have hreturns := run_returns hP hsolver hsearch hquiet hx hgiven hmax
  cases hrun : run P M notify x given s with
  | error e s' => exact Ends.of_error hrun trivial
  | ok ending s' =>
    refine Ends.of_ok hrun ?_
    -- no other iterate has been updated so often
    have hunique : ∀ last s₁, Reaches P M notify x given s n last s₁ →
        ending = .exhausted n last ∧ s'.store = s₁.store := by
      intro last s₁ h
      rw [h.run_eq hmax] at hrun
      obtain ⟨rfl, rfl⟩ := EStateM.Result.ok.inj hrun
      exact ⟨rfl, rfl⟩
    rcases hreturns.run_ok hrun with ⟨last, s₁, h, -, hstore⟩ | ⟨k, _, s₁, -, -, hread, hassessed⟩
    · rw [hstore]
      refine ⟨fun hfinite last' s₂ h' => ?_, fun hfinite => hfinite last s₁ h⟩
      rwa [← (hunique last' s₂ h').2, hstore]
    · refine iff_of_true (hread ▸ hassessed.finite hcheck) fun last s₂ h => ?_
      rw [(hunique last s₂ h).1] at hassessed
      exact nomatch hassessed

end Pure

/-! ## Runs of one iteration -/

/-- The mean square of a residual function of one number, in binary64. -/
def lineNorm (f : Float → Float) (v : Vector Float 1) : Float :=
  ((Component.plain Float).backend 1).meanSquare (v.map f)

def lineProblem (f : Float → Float) : NonlinearProblem (Vector Float 1) Float Float Unit where
  backend := (Component.plain Float).backend 1
  residual := Residual.whole fun v => pure (v.map f)
  norm v := pure (((Component.plain Float).backend 1).meanSquare v)

theorem lineProblem_evaluates (f : Float → Float) :
    Evaluates (lineProblem f) (Vector.map f) ((Component.plain Float).backend 1).meanSquare :=
  ⟨rfl, rfl⟩

/-- One iteration, with the step that a search chooses up to `alpha`. -/
def onceMethod (alpha : Float) (search : LineSearch (Fault Float)) :
    Method (Vector Float 1) Float Float Unit where
  accepts err := err < 1e-10
  maxiter := .ok 1
  reach := .upTo alpha
  halfWidth := .ok 0.5
  solver := GmresOptions.solver {}
  search := search.run
  checkFinite := true

theorem onceMethod_search (alpha : Float) (search : LineSearch (Fault Float))
    (profile : Float → Run (Vector Float 1) Float Float Unit Float) :
    (onceMethod alpha search).search profile (onceMethod alpha search).reach =
      (search.inquiry (.upTo alpha)).run Run.turn profile :=
  LineSearch.run_eq_inquiry search

/-- A session with an iterate and a direction, both one. -/
def unitSession : Session (Vector Float 1) Float Float Unit where
  store := (({} : Store (Vector Float 1)).push "x" #v[1]).push "dx" #v[1]
  outside := ()

theorem unitSession_valid : unitSession.store.Valid ⟨0⟩ := Nat.zero_lt_two

/-- What a run that is out of iterations reports, and the iterate that it returns. -/
def leftOver (r : EStateM.Result (Fault Float) (Session (Vector Float 1) Float Float Unit)
    (Ending Float)) : Option (Nat × Option Float × Vector Float 1) :=
  match r with
  | .ok (.exhausted done last) s => some (done, last, s.store.read ⟨0⟩)
  | _ => none

theorem exists_of_leftOver {r : EStateM.Result (Fault Float)
      (Session (Vector Float 1) Float Float Unit) (Ending Float)}
    {done : Nat} {last : Option Float} {v : Vector Float 1} (h : leftOver r = some (done, last, v)) :
    ∃ s', r = .ok (.exhausted done last) s' ∧ s'.store.read ⟨0⟩ = v := by
  unfold leftOver at h
  split at h
  · obtain ⟨rfl, hrest⟩ := Prod.mk.inj (Option.some.inj h)
    obtain ⟨rfl, rfl⟩ := Prod.mk.inj hrest
    exact ⟨_, rfl, rfl⟩
  · exact nomatch h

theorem run_line_exhausted :
    Ends
      (fun ending s' => ∀ done last, ending = .exhausted done last →
        done = 1 ∧ ∃ before s₁ alpha,
          Reaches (lineProblem id) (onceMethod 0.5 ⟨.grid, .ok 1⟩) none ⟨0⟩ (some ⟨1⟩) unitSession 0
            before s₁ ∧
          s'.store.read ⟨0⟩ = (lineProblem id).backend.addScaled (s₁.store.read ⟨0⟩)
            (s'.store.read ⟨1⟩) (-alpha) ∧
          last = some (lineNorm id (s₁.store.read ⟨0⟩)) ∧
          (onceMethod 0.5 ⟨.grid, .ok 1⟩).accepts (lineNorm id (s₁.store.read ⟨0⟩)) = false ∧
          (last = some (lineNorm id (s'.store.read ⟨0⟩)) ∧
              (onceMethod 0.5 ⟨.grid, .ok 1⟩).accepts (lineNorm id (s'.store.read ⟨0⟩)) = false ↔
            lineNorm id (s'.store.read ⟨0⟩) = lineNorm id (s₁.store.read ⟨0⟩)))
      (fun _ => True)
      (run (lineProblem id) (onceMethod 0.5 ⟨.grid, .ok 1⟩) none ⟨0⟩ (some ⟨1⟩)) unitSession :=
  run_exhausted (M := onceMethod 0.5 ⟨.grid, .ok 1⟩) (lineProblem_evaluates id)
    (Gmres.solve_confined _ _) (onceMethod_search _ _) (quiet_consult none)
    unitSession_valid (given_second Nat.one_lt_two) rfl Nat.zero_lt_one

/-- Half a step from one towards the root zero, and a whole step: both runs report the norm one, from
before the step. The first leaves a quarter of it, the second a norm that is small enough. -/
theorem run_line_stale :
    (∃ s', run (lineProblem id) (onceMethod 0.5 ⟨.grid, .ok 1⟩) none ⟨0⟩ (some ⟨1⟩) unitSession =
        .ok (.exhausted 1 (some 1)) s' ∧ lineNorm id (s'.store.read ⟨0⟩) = 0.25) ∧
    ∃ s', run (lineProblem id) (onceMethod 1 ⟨.grid, .ok 1⟩) none ⟨0⟩ (some ⟨1⟩) unitSession =
        .ok (.exhausted 1 (some 1)) s' ∧
      (onceMethod 1 ⟨.grid, .ok 1⟩).accepts (lineNorm id (s'.store.read ⟨0⟩)) = true := by
  have hhalf : leftOver (run (lineProblem id) (onceMethod 0.5 ⟨.grid, .ok 1⟩) none ⟨0⟩ (some ⟨1⟩)
      unitSession) = some (1, some 1, #v[0.5]) := by decide +kernel
  have hwhole : leftOver (run (lineProblem id) (onceMethod 1 ⟨.grid, .ok 1⟩) none ⟨0⟩ (some ⟨1⟩)
      unitSession) = some (1, some 1, #v[0]) := by decide +kernel
  obtain ⟨s₁, hrun₁, hread₁⟩ := exists_of_leftOver hhalf
  obtain ⟨s₂, hrun₂, hread₂⟩ := exists_of_leftOver hwhole
  refine ⟨⟨s₁, hrun₁, ?_⟩, s₂, hrun₂, ?_⟩
  · rw [hread₁]
    decide +kernel
  · rw [hread₂]
    decide +kernel

/-- A residual that is not a number below a quarter. -/
def cut (y : Float) : Float := if y < 0.25 then 0 / 0 else y

theorem run_cut_finite :
    (∀ k last s₁, k < 1 →
      Reaches (lineProblem cut) (onceMethod 1 ⟨.full, .ok 1⟩) none ⟨0⟩ (some ⟨1⟩) unitSession k last
        s₁ →
      Magnitude.isFinite (lineNorm cut (s₁.store.read ⟨0⟩)) = false →
      ∃ s', run (lineProblem cut) (onceMethod 1 ⟨.full, .ok 1⟩) none ⟨0⟩ (some ⟨1⟩) unitSession =
          .error (.nonFinite (k + 1) (lineNorm cut (s₁.store.read ⟨0⟩))) s' ∧
        s'.store.read ⟨0⟩ = s₁.store.read ⟨0⟩) ∧
    Ends
      (fun _ s' => Magnitude.isFinite (lineNorm cut (s'.store.read ⟨0⟩)) = true ↔
        ∀ last s₁, Reaches (lineProblem cut) (onceMethod 1 ⟨.full, .ok 1⟩) none ⟨0⟩ (some ⟨1⟩)
            unitSession 1 last s₁ →
          Magnitude.isFinite (lineNorm cut (s₁.store.read ⟨0⟩)) = true)
      (fun _ => True)
      (run (lineProblem cut) (onceMethod 1 ⟨.full, .ok 1⟩) none ⟨0⟩ (some ⟨1⟩)) unitSession :=
  run_finite (M := onceMethod 1 ⟨.full, .ok 1⟩) (lineProblem_evaluates cut)
    (Gmres.solve_confined _ _) (onceMethod_search _ _) (quiet_consult none)
    unitSession_valid (given_second Nat.one_lt_two) rfl rfl

/-- A step from one to zero in the only iteration: the run returns zero although every norm has to be
finite. -/
theorem run_cut_not_finite :
    (onceMethod 1 ⟨.full, .ok 1⟩).checkFinite = true ∧
    ∃ s', run (lineProblem cut) (onceMethod 1 ⟨.full, .ok 1⟩) none ⟨0⟩ (some ⟨1⟩) unitSession =
        .ok (.exhausted 1 (some 1)) s' ∧
      Magnitude.isFinite (lineNorm cut (s'.store.read ⟨0⟩)) = false := by
  have hleft : leftOver (run (lineProblem cut) (onceMethod 1 ⟨.full, .ok 1⟩) none ⟨0⟩ (some ⟨1⟩)
      unitSession) = some (1, some 1, #v[0]) := by decide +kernel
  obtain ⟨s', hrun, hread⟩ := exists_of_leftOver hleft
  refine ⟨rfl, s', hrun, ?_⟩
  rw [hread]
  decide +kernel

end Newton

end NewtonKrylov
