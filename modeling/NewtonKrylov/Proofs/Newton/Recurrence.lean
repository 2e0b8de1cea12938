import NewtonKrylov.Krylov.GmresOptions
import NewtonKrylov.Problems.CrossProduct
import NewtonKrylov.Proofs.Newton.Workspace

/-!
# Newton's method as a recurrence on values

`Newton.recurrence` is the method without a store: the residual `F` at `x`, a direction from a solver
that starts at the last one and works on zero vectors of its own (`KrylovSolver.onFresh`), a step scale
from the norm along it, and the next `x`. Only the order of the operations is that of the program, so
nothing is assumed of the scalars.

`Newton.run_eq_recurrence`: a run with GMRES on shared vectors does the same. What its caller can see
is a `Trail`: the iterate and the direction, what was reported, and the state of the collaborators. The
callback may look at both vectors and remember them in that state, so they agree in every iteration.
Between iterations (`Tracks`) nothing but these matters: work vectors and scratch vectors may hold
anything.
-/

namespace NewtonKrylov

variable {V S R σ α : Type}

/-- What a run leaves to its caller. -/
structure Trail (V S R σ : Type) where
  x : V
  dx : V
  log : List (Record S R)
  outside : σ

/-- What acts on a trail. -/
abbrev OnTrail (V S R σ α : Type) := EStateM (Fault R) (Trail V S R σ) α

namespace OnTrail

def consult (act : Collab R σ α) : OnTrail V S R σ α :=
  within Trail.outside (fun t o => { t with outside := o }) act

def refining (act : OnUnknown V R σ α) : OnTrail V S R σ α :=
  within (fun t => ⟨t.dx, t.outside⟩) (fun t u => { t with dx := u.value, outside := u.outside }) act

def report (r : Record S R) : OnTrail V S R σ Unit := fun t =>
  .ok () { t with log := t.log ++ [r] }

section Follows

variable {s β : Type} {x : EStateM (Fault R) s β} {a : s} {t : Trail V S R σ}

theorem consult_follows {J : β → s → α → σ → Prop} {E : s → σ → Prop} {act : Collab R σ α}
    (h : Follows J E x a act t.outside) :
    Follows (fun q a' v t' => ∃ o, J q a' v o ∧ t' = { t with outside := o })
      (fun a' t' => ∃ o, E a' o ∧ t' = { t with outside := o }) x a (consult act) t :=
  h.within

theorem refining_follows {J : β → s → α → Unknown V σ → Prop} {E : s → Unknown V σ → Prop}
    {act : OnUnknown V R σ α} (h : Follows J E x a act ⟨t.dx, t.outside⟩) :
    Follows (fun q a' v t' => ∃ u, J q a' v u ∧ t' = { t with dx := u.value, outside := u.outside })
      (fun a' t' => ∃ u, E a' u ∧ t' = { t with dx := u.value, outside := u.outside })
      x a (refining act) t :=
  Follows.within (b := t) h

end Follows

end OnTrail

variable [Inhabited V]

def Trail.of (x dx : Ref) (s : Session V S R σ) : Trail V S R σ :=
  ⟨s.store.read x, s.store.read dx, s.log, s.outside⟩

namespace Newton

/-! ## The recurrence -/

section Values

variable [Scalar S] [Magnitude R] (K : Backend S V)
variable (f : V → Collab R σ V) (measure : V → Collab R σ R)
variable (M : Method V S R σ) (search : Inquiry S R (Fault R) σ)
variable (tell : Option (V → V → R → Nat → Collab R σ Bool))

/-- Refines the direction, chooses the step and takes it. -/
def advance (k : Nat) (err : R) (F : V) : OnTrail V S R σ Unit := do
  let x := (← get).x
  OnTrail.refining (M.solver.onFresh K (M.jacobian K f x) F)
  let dx := (← get).dx
  let (alpha, line) ← OnTrail.consult (search.run Collab.turn (normAlong K f measure x dx))
  OnTrail.report (.update k err alpha line)
  modify fun t => { t with x := K.addScaled x dx (-alpha) }

/-- At most `remaining` iterations after `done` complete ones. -/
def recurrenceFrom : (remaining done : Nat) → (last : Option R) → OnTrail V S R σ (Ending R)
  | 0, done, last => pure (.exhausted done last)
  | remaining + 1, done, _ => do
    let F ← OnTrail.consult (f (← get).x)
    let err ← OnTrail.consult (measure F)
    let notify := tell.map fun tell err k => do
      let t ← get
      OnTrail.consult (tell t.x t.dx err k)
    match ← endsAt M notify (done + 1) err with
    | some ending => pure ending
    | none =>
      advance K f measure M search (done + 1) err F
      recurrenceFrom remaining (done + 1) (some err)

/-- A whole run. -/
def recurrence : OnTrail V S R σ (Ending R) := do
  let n ← LineSearch.orFail M.maxiter
  let ending ← recurrenceFrom K f measure M search tell n 0 none
  OnTrail.report (.ended ending)
  pure ending

end Values

/-! ## Runs on shared vectors -/

/-- A callback that may look at the iterate and the direction. -/
def watching (x dx : Ref) (tell : V → V → R → Nat → Collab R σ Bool) (err : R) (k : Nat) :
    Run V S R σ Bool := do
  let u ← Run.contents x
  let v ← Run.contents dx
  Run.consult (tell u v err k)

/-- Between iterations: the vectors are where they were laid, and the trail is as given. -/
structure Tracks (w : Scratch) (x dx : Ref) (s : Session V S R σ) (t : Trail V S R σ) : Prop where
  laid : Laid w x dx s
  apart : s.Apart (workspace w x dx)
  trail_eq : Trail.of x dx s = t

variable {w : Scratch} {x dx : Ref} {s s' : Session V S R σ} {t : Trail V S R σ} {W : Set Ref} {o : σ}

theorem Tracks.of_wrote (h : Tracks w x dx s t) (hwrote : s.Wrote W s' o) (hx : x ∉ W)
    (hdx : dx ∉ W) : Tracks w x dx s' { t with outside := o } where
  laid := h.laid.of_size_le hwrote.keeps.size_le
  apart := h.apart.of_buffers_eq hwrote.buffers_eq hwrote.keeps.size_le
  trail_eq := by
    rw [← h.trail_eq]
    simp only [Trail.of, Trail.mk.injEq]
    exact ⟨hwrote.read_eq (h.laid.valid x (by simp)) hx,
      hwrote.read_eq (h.laid.valid dx (by simp)) hdx, hwrote.keeps.log_eq, hwrote.outside_eq⟩

theorem Tracks.consult (h : Tracks w x dx s t) (o : σ) :
    Tracks w x dx { s with outside := o } { t with outside := o } :=
  h.of_wrote ((Session.Wrote.refl ∅ s).consult o) id id

/-- Both runs end with the same change of the collaborators' state. -/
def Consulted (s : Session V S R σ) (t : Trail V S R σ) (s' : Session V S R σ) (t' : Trail V S R σ) :
    Prop :=
  ∃ o, s' = { s with outside := o } ∧ t' = { t with outside := o }

theorem consult_follows (h : Tracks w x dx s t) (act : Collab R σ α) :
    Follows (fun u s' v t' => u = v ∧ Consulted s t s' t') (Consulted s t)
      (Run.consult act) s (OnTrail.consult act) t := by
  have hact := Run.consult_follows (S := S) act s
  have hout : s.outside = t.outside := by rw [← h.trail_eq]; rfl
  rw [hout] at hact
  refine (OnTrail.consult_follows hact).mono ?_ ?_
  · rintro u _ v _ ⟨o, ⟨rfl, rfl⟩, rfl⟩
    exact ⟨rfl, o, rfl, rfl⟩
  · rintro _ _ ⟨o, rfl, rfl⟩
    exact ⟨o, rfl, rfl⟩

theorem normAt_follows (h : Tracks w x dx s t) (P : NonlinearProblem V S R σ) (r : Ref) :
    Follows (fun u s' v t' => u = v ∧ Consulted s t s' t') (Consulted s t)
      (normAt P r) s (OnTrail.consult (P.norm (s.store.read r))) t :=
  Follows.skip_left (Run.contents_run r) (consult_follows h _)

theorem watching_follows (h : Tracks w x dx s t) (tell : V → V → R → Nat → Collab R σ Bool) (err : R)
    (k : Nat) :
    Follows (fun u s' v t' => u = v ∧ Consulted s t s' t') (Consulted s t)
      (watching x dx tell err k) s
      (do
        let t ← get
        OnTrail.consult (tell t.x t.dx err k)) t := by
  refine Follows.skip_left (Run.contents_run x) (Follows.skip_left (Run.contents_run dx) ?_)
  refine Follows.skip_right (v := t) rfl ?_
  have hconsult := consult_follows h (tell t.x t.dx err k)
  rwa [← h.trail_eq] at hconsult ⊢

variable {P : NonlinearProblem V S R σ} {M : Method V S R σ} {f : V → Collab R σ V}
variable {search : Inquiry S R (Fault R) σ}

theorem endsAt_follows [Magnitude R] (h : Tracks w x dx s t)
    (tell : Option (V → V → R → Nat → Collab R σ Bool))
    (k : Nat) (err : R) :
    Follows (fun u s' v t' => u = v ∧ Consulted s t s' t') (Consulted s t)
      (endsAt M (tell.map (watching x dx)) k err) s
      (endsAt M (tell.map fun tell err k => do
        let t ← get
        OnTrail.consult (tell t.x t.dx err k)) k err) t := by
  have hsame : Consulted s t s t := ⟨s.outside, rfl, by rw [← h.trail_eq]; rfl⟩
  unfold endsAt
  refine Follows.ite (fun _ => Follows.of_error rfl rfl hsame) fun _ => ?_
  have hstop : ∀ (stop : Bool) s' t', Consulted s t s' t' →
      Follows (ε := Fault R) (fun u s' v t' => u = v ∧ Consulted s t s' t') (Consulted s t)
        (if stop then pure (some (Ending.stopped k err))
          else if M.accepts err then pure (some (Ending.converged k err)) else pure none) s'
        (if stop then pure (some (Ending.stopped k err))
          else if M.accepts err then pure (some (Ending.converged k err)) else pure none) t' := by
    intro stop s' t' hs'
    refine Follows.ite (fun _ => Follows.of_ok rfl rfl ⟨rfl, hs'⟩) fun _ => ?_
    exact Follows.ite (fun _ => Follows.of_ok rfl rfl ⟨rfl, hs'⟩) fun _ =>
      Follows.of_ok rfl rfl ⟨rfl, hs'⟩
  cases tell with
  | none => exact hstop false s t hsame
  | some tell =>
    refine Follows.bind (watching_follows h tell err k) ?_
    rintro stop s' _ t' ⟨rfl, hs'⟩
    exact hstop stop s' t' hs'

variable [Scalar S]

theorem update_follows (hf : P.residual = Residual.whole f) {g : Gmres S R} {lsq : LeastSquares S}
    (hsolver : M.solver = g.solve lsq)
    (hsearch : ∀ profile, M.search profile M.reach = search.run Run.turn profile)
    (h : Tracks w x dx s t) (k : Nat) (err : R) :
    Follows (fun _ s' _ t' => Tracks w x dx s' t') (fun s' t' => Trail.of x dx s' = t')
      (update P M w x dx k err) s
      (advance P.backend f P.norm M search k err (s.store.read w.residual)) t := by
  obtain rfl := h.trail_eq
  unfold update advance
  refine Follows.skip_right rfl ?_
  rw [hsolver]
  have hposed := directionProblem_posed (M := M) hf h.laid
  have hsolve := g.solve_follows lsq (Supply.kept P.backend (workspace w x dx)) hposed h.apart
  rw [← Gmres.solve_onFresh] at hsolve
  have hx := h.laid.valid x (by simp)
  have hdx := h.laid.valid dx (by simp)
  refine Follows.bind_mono (OnTrail.refining_follows hsolve) ?_ ?_
  · rintro s' _ ⟨u, ⟨⟨hvalue, hout, hkeeps⟩, -⟩, rfl⟩
    simp only [Trail.of, Trail.mk.injEq]
    exact ⟨hkeeps.read_eq x (Set.mem_insert x _), hvalue, hkeeps.log_eq, hout⟩
  rintro ⟨⟩ s₁ ⟨⟩ _ ⟨u, ⟨hvalue, hout, hkeeps, hapart⟩, rfl⟩
  have hread_x : s₁.store.read x = s.store.read x := hkeeps.read_eq x (Set.mem_insert x _)
  have h₁ : Tracks w x dx s₁ (Trail.of x dx s₁) :=
    ⟨h.laid.of_size_le hkeeps.size_le, hapart, rfl⟩
  have htrail : { Trail.of x dx s with dx := u.value, outside := u.outside } = Trail.of x dx s₁ := by
    simp only [Trail.of, Trail.mk.injEq]
    exact ⟨hread_x.symm, hvalue.symm, hkeeps.log_eq.symm, hout.symm⟩
  rw [htrail]
  refine Follows.skip_right rfl ?_
  rw [hsearch, ← show s₁.store.read x = (Trail.of x dx s).x from hread_x]
  have hlook := OnTrail.consult_follows (t := Trail.of x dx s₁) (search_follows hf h₁.laid search)
  refine Follows.bind_mono hlook ?_ ?_
  · rintro s' _ ⟨o, hwrote, rfl⟩
    exact (h₁.of_wrote hwrote h.laid.not_mem_trial.1 h.laid.not_mem_trial.2.1).trail_eq
  rintro ⟨alpha, line⟩ s₂ _ _ ⟨o, ⟨rfl, hwrote⟩, rfl⟩
  have h₂ := h₁.of_wrote hwrote h.laid.not_mem_trial.1 h.laid.not_mem_trial.2.1
  refine Follows.skip_left rfl (Follows.skip_right rfl ?_)
  refine Follows.of_ok (P.backend.addScaledInto_run x x dx (-alpha)) rfl ⟨?_, ?_, ?_⟩
  · exact h₂.laid.of_size_le (Nat.le_of_eq Store.size_write.symm)
  · exact h₂.apart.of_buffers_eq rfl (Nat.le_of_eq Store.size_write.symm)
  · have hx₂ := hwrote.read_eq (h₁.laid.valid x (by simp)) h.laid.not_mem_trial.1
    have hdx₂ := hwrote.read_eq (h₁.laid.valid dx (by simp)) h.laid.not_mem_trial.2.1
    simp only [Trail.of, Trail.mk.injEq, Session.store_write, hx₂, hdx₂]
    refine ⟨Store.read_write_self (h₂.laid.valid x (by simp)), ?_, ?_, hwrote.outside_eq⟩
    · exact (Store.read_write_of_ne h.laid.distinct.1).trans hdx₂
    · exact congrArg (· ++ [Record.update k err alpha line]) hwrote.keeps.log_eq

def startTrail (K : Backend S V) (x : Ref) (given : Option Ref) (s : Session V S R σ) :
    Trail V S R σ :=
  ⟨s.store.read x, startDirection K x given s, s.log, s.outside⟩

theorem Opened.tracks {K : Backend S V} {given : Option Ref} (h : Opened K w x given s s')
    (hx : s.store.Valid x) : Tracks w x (directionAt given s) s' (startTrail K x given s) where
  laid := h.laid
  apart := h.apart
  trail_eq := by
    simp only [Trail.of, startTrail, Trail.mk.injEq]
    exact ⟨h.keeps.read_eq x hx, h.direction_eq, h.keeps.log_eq, h.outside_eq⟩

variable [Magnitude R]

theorem iterations_follows (hf : P.residual = Residual.whole f) {g : Gmres S R}
    {lsq : LeastSquares S} (hsolver : M.solver = g.solve lsq)
    (hsearch : ∀ profile, M.search profile M.reach = search.run Run.turn profile)
    (tell : Option (V → V → R → Nat → Collab R σ Bool)) (remaining done : Nat) (last : Option R)
    (h : Tracks w x dx s t) :
    Follows (fun u s' v t' => u = v ∧ Tracks w x dx s' t') (fun s' t' => Trail.of x dx s' = t')
      (iterations P M (tell.map (watching x dx)) w x dx remaining done last) s
      (recurrenceFrom P.backend f P.norm M search tell remaining done last) t := by
  induction remaining generalizing s t done last with
  | zero => exact Follows.of_ok rfl rfl ⟨rfl, h⟩
  | succ remaining ih =>
    obtain rfl := h.trail_eq
    have hx : x ∉ ({w.residual} : Set Ref) := h.laid.distinct.2.1
    have hdx : dx ∉ ({w.residual} : Set Ref) := h.laid.distinct.2.2
    unfold iterations recurrenceFrom
    refine Follows.skip_right rfl ?_
    rw [hf]
    have hinto := Residual.into_follows f (Session.Wrote.refl {w.residual} s)
      (h.laid.valid w.residual (by simp)) rfl x
    have hinto := OnTrail.consult_follows (t := Trail.of x dx s) hinto
    refine Follows.bind_mono hinto ?_ ?_
    · rintro s' _ ⟨o, hwrote, rfl⟩
      exact (h.of_wrote hwrote hx hdx).trail_eq
    rintro ⟨⟩ s₁ F _ ⟨o, ⟨hwrote, rfl, -⟩, rfl⟩
    have h₁ := h.of_wrote hwrote hx hdx
    refine Follows.bind_mono (normAt_follows h₁ P w.residual) ?_ ?_
    · rintro _ _ ⟨o', rfl, rfl⟩
      exact (h₁.consult o').trail_eq
    rintro err _ _ _ ⟨rfl, o', rfl, rfl⟩
    have h₂ := h₁.consult o'
    refine Follows.bind_mono (endsAt_follows h₂ tell (done + 1) err) ?_ ?_
    · rintro _ _ ⟨o'', rfl, rfl⟩
      exact (h₂.consult o'').trail_eq
    rintro ending _ _ _ ⟨rfl, o'', rfl, rfl⟩
    have h₃ := h₂.consult o''
    cases ending with
    | some ending => exact Follows.of_ok rfl rfl ⟨rfl, h₃⟩
    | none =>
      refine Follows.bind (update_follows hf hsolver hsearch h₃ (done + 1) err) ?_
      rintro ⟨⟩ s₄ ⟨⟩ t₄ h₄
      exact ih (done + 1) (some err) h₄

theorem run_follows (hf : P.residual = Residual.whole f) {g : Gmres S R}
    {lsq : LeastSquares S} (hsolver : M.solver = g.solve lsq)
    (hsearch : ∀ profile, M.search profile M.reach = search.run Run.turn profile)
    (tell : Option (V → V → R → Nat → Collab R σ Bool)) {given : Option Ref}
    (hx : s.store.Valid x) (hgiven : ∀ dx ∈ given, s.store.Valid dx ∧ x ≠ dx) :
    Follows (fun u s' v t' => u = v ∧ ∃ w, Tracks w x (directionAt given s) s' t')
      (fun s' t' => Trail.of x (directionAt given s) s' = t')
      (run P M (tell.map (watching x (directionAt given s))) x given) s
      (recurrence P.backend f P.norm M search tell) (startTrail P.backend x given s) := by
  obtain ⟨w, s', hopened, hrun⟩ :=
    run_opened P M (tell.map (watching x (directionAt given s))) hx hgiven
  have h := hopened.tracks hx
  rw [Follows, hrun]
  show Follows _ _ _ s' _ _
  unfold recurrence
  refine Run.demand_bind M.maxiter h.trail_eq fun n => ?_
  refine Follows.bind (iterations_follows hf hsolver hsearch tell n 0 none h) ?_
  rintro ending s₁ _ t₁ ⟨rfl, h₁⟩
  refine Follows.skip_left rfl (Follows.skip_right rfl (Follows.of_ok rfl rfl ⟨rfl, w, ?_⟩))
  refine ⟨h₁.laid.of_size_le (Nat.le_refl _), h₁.apart.of_buffers_eq rfl (Nat.le_refl _), ?_⟩
  rw [← h₁.trail_eq]
  rfl

/-- A run with GMRES on shared vectors is the recurrence on values: it returns or fails alike, and its
caller sees the same trail. The vector of the direction is the caller's if there is one, else the one
that the run allocates after its scratch. -/
theorem run_eq_recurrence (hf : P.residual = Residual.whole f) {g : Gmres S R}
    {lsq : LeastSquares S} (hsolver : M.solver = g.solve lsq)
    (hsearch : ∀ profile, M.search profile M.reach = search.run Run.turn profile)
    (tell : Option (V → V → R → Nat → Collab R σ Bool)) {given : Option Ref}
    (hx : s.store.Valid x) (hgiven : ∀ dx ∈ given, s.store.Valid dx ∧ x ≠ dx) :
    seenThrough (Trail.of x (directionAt given s))
        (run P M (tell.map (watching x (directionAt given s))) x given s) =
      recurrence P.backend f P.norm M search tell (startTrail P.backend x given s) := by
  refine Follows.seenThrough_eq
    ((run_follows hf hsolver hsearch tell hx hgiven).mono ?_ fun _ _ h => h)
  rintro ending s' _ t' ⟨rfl, w, h⟩
  exact ⟨rfl, h.trail_eq⟩

theorem solve_eq_run (callback : Option (Callback R σ)) (x dx : Ref) (given : Option Ref) :
    solve P M callback x given =
      run P M ((callback.map fun tell (_ _ : V) => tell).map (watching x dx)) x given := by
  cases callback with
  | none => rfl
  | some tell => rfl

/-- The singular problem `a × x = c` in binary64. -/
def crossProblem : NonlinearProblem (Vector Float 3) Float Float (List Float) where
  backend := (Component.plain Float).backend 3
  residual := Residual.whole fun x => pure (CrossProduct.residual x)
  norm r := pure (((Component.plain Float).backend 3).meanSquare r)

/-- GMRES and bisection as they are unless something else is asked for. -/
def crossMethod : Method (Vector Float 3) Float Float (List Float) where
  accepts err := err < 1e-5
  maxiter := .ok 100
  reach := .upTo 1.0
  halfWidth := .ok 1e-8
  solver := GmresOptions.solver {}
  search := LineSearch.run ⟨.bisection, .ok 20⟩
  checkFinite := true

/-- A session with the iterate and the direction. -/
def crossSession : Session (Vector Float 3) Float Float (List Float) where
  store := (({} : Store (Vector Float 3)).push "x" CrossProduct.start).push "dx" CrossProduct.wanted
  outside := []

/-- A callback that remembers what it is told. -/
def crossCallback (_x _dx : Vector Float 3) (err : Float) (_k : Nat) :
    Collab Float (List Float) Bool :=
  fun told => .ok false (told ++ [err])

/-- The same one, looking at neither vector. -/
def crossTell : Callback Float (List Float) := crossCallback CrossProduct.start CrossProduct.wanted

theorem run_cross_eq_recurrence :
    seenThrough (Trail.of ⟨0⟩ ⟨1⟩)
        (run crossProblem crossMethod (some (watching ⟨0⟩ ⟨1⟩ crossCallback)) ⟨0⟩ (some ⟨1⟩)
          crossSession) =
      recurrence ((Component.plain Float).backend 3) (fun x => pure (CrossProduct.residual x))
        crossProblem.norm crossMethod
        (LineSearch.inquiry ⟨.bisection, .ok 20⟩ (.upTo 1.0)) (some crossCallback)
        ⟨CrossProduct.start, CrossProduct.wanted, [], []⟩ := by
  refine run_eq_recurrence (P := crossProblem) (M := crossMethod) (s := crossSession) rfl rfl
    (fun profile => ?_) (some crossCallback) Nat.zero_lt_two ?_
  · exact LineSearch.run_eq_inquiry (S := Float) (R := Float) ⟨.bisection, .ok 20⟩
  · intro dx hdx
    obtain rfl := Option.some.inj hdx
    exact ⟨Nat.one_lt_two, by decide⟩

end Newton

end NewtonKrylov
