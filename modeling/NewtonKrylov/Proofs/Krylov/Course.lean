import Mathlib.Algebra.Ring.Nat
import NewtonKrylov.Krylov.Gmres
import NewtonKrylov.Proofs.Frame

/-!
# The course of a call

`Gmres.course` is a call of GMRES that tells what it went through: its cycles one by one
(`Gmres.Round`), and in each of them what had been built after each step. It does the operations of
`Gmres.call` in the same order, for any operator and any arithmetic, and with its record left out it is
that call (`Gmres.call_eq_course`). What is said about the cycles or the steps of a call is said about
this record.
-/

namespace NewtonKrylov

variable {V S R σ α β : Type}

theorem bind_run_congr {ε s : Type} {x : EStateM ε s α} {f f' : α → EStateM ε s β} {a : s}
    (h : ∀ u a', x a = .ok u a' → f u a' = f' u a') : (x >>= f) a = (x >>= f') a := by
  rw [bind_run, bind_run]
  cases hx : x a with
  | ok u a' => exact h u a' hx
  | error e a' => rfl

theorem bind_run_eq {ε s : Type} {x x' : EStateM ε s α} {f f' : α → EStateM ε s β} {a : s}
    (hx : x a = x' a) (h : ∀ u a', x a = .ok u a' → f u a' = f' u a') :
    (x >>= f) a = (x' >>= f') a :=
  (bind_run_congr h).trans (by rw [bind_run, bind_run, hx])

theorem pure_eq_ok {ε s : Type} {u v : α} {a b : s}
    (h : (pure u : EStateM ε s α) a = .ok v b) : u = v ∧ a = b := EStateM.Result.ok.inj h

theorem Run.demand_eq_ok {x : Except (Fault R) α} {u : α} {s s' : Session V S R σ}
    (h : Run.demand x s = .ok u s') : x = .ok u ∧ s = s' := by
  cases x with
  | ok a => exact (EStateM.Result.ok.inj h).imp_left (congrArg Except.ok)
  | error e => exact nomatch h

theorem Run.reciprocal_eq_ok [Scalar S] {x y : S} {s s' : Session V S R σ}
    (h : Run.reciprocal x s = .ok y s') : s = s' := by
  unfold Run.reciprocal at h
  split at h
  · exact nomatch h
  · exact (pure_eq_ok h).2

/-- The operator notes what it is applied to, and asking for work vectors leaves the notes alone. -/
structure LinearProblem.Notes (p : LinearProblem V S R σ) (notes : σ → List (Ref × Ref)) : Prop where
  operator : ∀ {result v s s'}, p.operator result v s = .ok () s' →
    notes s'.outside = notes s.outside ++ [(result, v)]
  new : ∀ {name v s s'}, p.new name s = .ok v s' → notes s'.outside = notes s.outside

namespace Gmres

/-- How the call ends after a cycle that has completed a step, if it does. -/
def Cycle.exit {B : Type} [Scalar S] (c : Cycle B S) (target : S) : Option Exit :=
  if Scalar.le c.residual target then some .withinTolerance
  else if c.brokeDown then some .brokeDown
  else none

/-- A cycle of a call, from one value of the unknown to the next. -/
structure Round (V S : Type) where
  start : V
  /-- The length of the residual at the start. -/
  beta : S
  /-- What has been built after each application to a basis vector. -/
  stages : List (Cycle Ref S)
  finish : V

namespace Round

variable (ρ : Round V S)

/-- How many applications to basis vectors the cycle makes. -/
def steps : Nat := ρ.stages.length

/-- The basis vectors that the operator is applied to. -/
def applied : List Ref := (ρ.stages.getLast?.elim [] Cycle.basis).take ρ.steps

/-- The values that the tracked residual takes. -/
def residuals : List S := ρ.beta :: ρ.stages.map Cycle.residual

/-- The tracked residual at the end. -/
def residual : S := ρ.stages.getLast?.elim ρ.beta Cycle.residual

end Round

/-- The account of a call that went through these cycles. -/
def Account.of (ρs : List (Round V S)) (exit : Exit) : Account :=
  ⟨exit, (ρs.map Round.steps).sum, ρs.length⟩

variable [Inhabited V] [Scalar S]
variable (g : Gmres S R) (lsq : LeastSquares S) (p : LinearProblem V S R σ) (r w : Ref)

/-- What is built by each of at most `count` steps within the budget. -/
def stages (beta target : S) :
    (count : Nat) → (v : Ref) → Cycle Ref S → Run V S R σ (List (Cycle Ref S))
  | 0, _, _ => pure []
  | count + 1, v, c =>
    if c.spent < g.maxiter then do
      match ← step g lsq p w beta target v c with
      | (c', some next) => do
        let cs ← stages beta target count next c'
        pure (c' :: cs)
      | (c', none) => pure [c']
    else pure []

/-- What a cycle begins with, and what each of its steps builds. -/
def cycleStages (beta target : S) (spent : Nat) :
    Run V S R σ (Cycle Ref S × List (Cycle Ref S)) := do
  let v ← p.new (basisName 0)
  p.backend.scaleInto v r (← Run.reciprocal beta)
  let count ← Run.demand g.restart
  let cs ← stages g lsq p w beta target count v (Cycle.start v beta spent)
  pure (Cycle.start v beta spent, cs)

/-- Ends a cycle with what its last step has built, and tells how the call ends with it, if it does. -/
def close (target beta : S) (x : V) (c : Cycle Ref S) (cs : List (Cycle Ref S)) :
    Run V S R σ (Round V S × Option Exit) := do
  if c.columns.isEmpty then
    return (⟨x, beta, cs, x⟩, some .emptyCycle)
  combine p c.basis c.coefficients
  let x' ← Run.contents p.unknown
  return (⟨x, beta, cs, x'⟩, c.exit target)

/-- One cycle, and how the call ends with it, if it does. -/
def turn (target : S) (spent : Nat) : Run V S R σ (Round V S × Option Exit) := do
  let x ← Run.contents p.unknown
  residualInto p r
  let beta ← p.lengthAt r
  if Scalar.le beta target then
    return (⟨x, beta, [], x⟩, some .withinTolerance)
  if !Scalar.isFinite beta then
    return (⟨x, beta, [], x⟩, some .notFinite)
  let (c₀, cs) ← cycleStages g lsq p r w beta target spent
  close p target beta x (cs.getLastD c₀) cs

/-- The cycles of a call, and how it ends. -/
def rounds (target : S) : (fuel spent : Nat) → Run V S R σ (List (Round V S) × Exit)
  | 0, _ => pure ([], .budgetSpent)
  | fuel + 1, spent =>
    if spent < g.maxiter then do
      match ← turn g lsq p r w target spent with
      | (ρ, some exit) => pure ([ρ], exit)
      | (ρ, none) => do
        let (ρs, exit) ← rounds target fuel (spent + ρ.steps)
        pure (ρ :: ρs, exit)
    else pure ([], .budgetSpent)

/-- Refines the unknown and tells the cycles gone through. -/
def course : Run V S R σ (List (Round V S) × Exit) := do
  let r ← p.new "gmres_r"
  let w ← p.new "gmres_w"
  let rhsLength ← p.lengthAt p.rhs
  if Scalar.isZero rhsLength then
    p.backend.scaleInto p.unknown p.unknown (Scalar.ofNat 0)
    return ([], .zeroRhs)
  let tol ← Run.demand g.tol
  rounds g lsq p r w (tol * rhsLength) g.maxiter 0

/-! ## Steps -/

variable {g lsq p r w} {beta target : S} {s s' : Session V S R σ}

theorem Cycle.exit_isSome {B : Type} (c : Cycle B S) (target : S) :
    (c.exit target).isSome = (Scalar.le c.residual target || c.brokeDown) := by
  unfold exit
  split
  · simp [*]
  · split
    · simp [*]
    · simp [*]

theorem orthogonalise_outside {vs : List Ref} {hs : List S} (h : orthogonalise p w vs s = .ok hs s') :
    s'.outside = s.outside := by
  induction vs generalizing s hs with
  | nil =>
    obtain ⟨-, rfl⟩ := pure_eq_ok h
    rfl
  | cons v vs ih =>
    rw [orthogonalise, bind_run_ok (p.backend.dotAt_run w v),
      bind_run_ok (p.backend.addScaledWideInto_run w w v _)] at h
    obtain ⟨hs', s₁, hrest, h⟩ := bind_eq_ok h
    obtain ⟨-, rfl⟩ := pure_eq_ok h
    exact (ih hrest).trans (Session.outside_write ..)

/-- How a step ends that has led to session `s'`. -/
inductive Stepped (p : LinearProblem V S R σ) (w : Ref) (target : S) (c : Cycle Ref S)
    (s' : Session V S R σ) : Cycle Ref S → Option Ref → Prop
  /-- What is left of the image has no finite length; it gives no column. -/
  | notFinite (h : Scalar.isFinite (p.backend.length (s'.store.read w)) = false) :
    Stepped p w target c s' { c with spent := c.spent + 1, brokeDown := true } none
  /-- The cycle is over with the column that the step has given. -/
  | last {c' : Cycle Ref S} (hspent : c'.spent = c.spent + 1) (hbasis : c'.basis = c.basis)
    (hsize : c'.columns.size = c.columns.size + 1) (hexit : (c'.exit target).isSome) :
    Stepped p w target c s' c' none
  /-- There is another basis vector. -/
  | grown {c' : Cycle Ref S} {next : Ref} (hspent : c'.spent = c.spent + 1)
    (hbasis : c'.basis = c.basis ++ [next]) (hsize : c'.columns.size = c.columns.size + 1)
    (hexit : c'.exit target = none) : Stepped p w target c s' c' (some next)

theorem Stepped.spent_eq {c c' : Cycle Ref S} {next : Option Ref}
    (h : Stepped p w target c s' c' next) : c'.spent = c.spent + 1 := by
  cases h with
  | notFinite => rfl
  | last hspent => exact hspent
  | grown hspent => exact hspent

theorem step_eq_ok {v : Ref} {c c' : Cycle Ref S} {next : Option Ref}
    (h : step g lsq p w beta target v c s = .ok (c', next) s') :
    Stepped p w target c s' c' next ∧
      ∀ notes, p.Notes notes → notes s'.outside = notes s.outside ++ [(w, v)] := by
  unfold step at h
  obtain ⟨⟨⟩, s₁, hoperator, h⟩ := bind_eq_ok h
  rw [bind_run_ok (p.lengthAt_run w s₁)] at h
  obtain ⟨projections, s₂, horthogonalise, h⟩ := bind_eq_ok h
  rw [bind_run_ok (p.lengthAt_run w s₂)] at h
  have hnotes : ∀ notes, p.Notes notes → notes s₂.outside = notes s.outside ++ [(w, v)] :=
    fun notes hp => (congrArg notes (orthogonalise_outside horthogonalise)).trans (hp.operator hoperator)
  dsimp only at h
  split at h
  · rename_i hfinite
    obtain ⟨heq, rfl⟩ := pure_eq_ok h
    cases heq
    exact ⟨.notFinite (by simpa using hfinite), hnotes⟩
  obtain ⟨fraction, s₃, hdemand, h⟩ := bind_eq_ok h
  obtain ⟨-, rfl⟩ := Run.demand_eq_ok hdemand
  split at h
  · rename_i hstop
    obtain ⟨heq, rfl⟩ := pure_eq_ok h
    cases heq
    exact ⟨.last rfl rfl (Array.size_push _) ((Cycle.exit_isSome ..).trans hstop), hnotes⟩
  · rename_i hgo
    obtain ⟨v', s₄, hnew, h⟩ := bind_eq_ok h
    obtain ⟨d, s₅, hreciprocal, h⟩ := bind_eq_ok h
    obtain rfl := Run.reciprocal_eq_ok hreciprocal
    rw [bind_run_ok (p.backend.scaleInto_run v' w d)] at h
    obtain ⟨heq, rfl⟩ := pure_eq_ok h
    cases heq
    refine ⟨.grown rfl rfl (Array.size_push _) ?_, fun notes hp => ?_⟩
    · rw [← Option.not_isSome_iff_eq_none, Cycle.exit_isSome]
      exact hgo
    · exact (hp.new hnew).trans (hnotes notes hp)

/-! ## Stages -/

/-- What the steps of a cycle do that begins with `c` and makes at most `count` of them. -/
structure Staged (g : Gmres S R) (p : LinearProblem V S R σ) (w : Ref) (target : S) (count : Nat)
    (c : Cycle Ref S) (cs : List (Cycle Ref S)) (s' : Session V S R σ) : Prop where
  length_le : cs.length ≤ count
  spent_eq : (cs.getLastD c).spent = c.spent + cs.length
  within : cs ≠ [] → (cs.getLastD c).spent ≤ g.maxiter
  full : cs.length = count ∨ g.maxiter ≤ (cs.getLastD c).spent ∨ ((cs.getLastD c).exit target).isSome
  columns : cs = [] ∨ c.columns.size < (cs.getLastD c).columns.size ∨
    Scalar.isFinite (p.backend.length (s'.store.read w)) = false
  initial : c.basis <+: (cs.getLastD c).basis
  long : c.basis.length + cs.length ≤ (cs.getLastD c).basis.length + 1

theorem Stepped.staged {c c' : Cycle Ref S} (h : Stepped p w target c s' c' none)
    (hbudget : c.spent < g.maxiter) (count : Nat) :
    Staged g p w target (count + 1) c [c'] s' ∧ c'.basis = c.basis := by
  have hspent := h.spent_eq
  have hwithin : c'.spent ≤ g.maxiter := hspent.trans_le hbudget
  cases h with
  | notFinite hfinite =>
    have hexit : (Cycle.exit { c with spent := c.spent + 1, brokeDown := true } target).isSome := by
      rw [Cycle.exit_isSome, Bool.or_true]
    exact ⟨⟨Nat.le_add_left _ _, rfl, fun _ => hwithin, .inr (.inr hexit), .inr (.inr hfinite),
      List.prefix_rfl, le_rfl⟩, rfl⟩
  | last _ hbasis hsize hexit =>
    have hgrown : c.columns.size < c'.columns.size := hsize ▸ Nat.lt_succ_self _
    exact ⟨⟨Nat.le_add_left _ _, hspent, fun _ => hwithin, .inr (.inr hexit), .inr (.inl hgrown),
      hbasis ▸ List.prefix_rfl, Nat.succ_le_succ (congrArg List.length hbasis).ge⟩, hbasis⟩

theorem Staged.cons {count : Nat} {c c₁ : Cycle Ref S} {next : Ref} {cs : List (Cycle Ref S)}
    (h : Staged g p w target count c₁ cs s') (hbudget : c.spent < g.maxiter)
    (hspent : c₁.spent = c.spent + 1) (hbasis : c₁.basis = c.basis ++ [next])
    (hsize : c₁.columns.size = c.columns.size + 1) :
    Staged g p w target (count + 1) c (c₁ :: cs) s' where
  length_le := Nat.succ_le_succ h.length_le
  spent_eq := by
    rw [List.getLastD_cons, h.spent_eq, hspent, List.length_cons]
    omega
  within := by
    intro _
    rw [List.getLastD_cons]
    by_cases hcs : cs = []
    · rw [hcs, List.getLastD_nil, hspent]
      exact hbudget
    · exact h.within hcs
  full := by
    rw [List.getLastD_cons, List.length_cons]
    exact h.full.imp_left (congrArg (· + 1))
  columns := by
    rw [List.getLastD_cons]
    refine .inr ?_
    rcases h.columns with rfl | hgrown | hfinite
    · exact .inl (by rw [List.getLastD_nil, hsize]; exact Nat.lt_succ_self _)
    · exact .inl (by omega)
    · exact .inr hfinite
  initial := by
    rw [List.getLastD_cons]
    exact (hbasis ▸ List.prefix_append c.basis [next]).trans h.initial
  long := by
    have hlong := h.long
    rw [hbasis, List.length_append, List.length_singleton] at hlong
    rw [List.getLastD_cons, List.length_cons]
    omega

theorem stages_eq_ok {count : Nat} {v : Ref} {c : Cycle Ref S} {cs : List (Cycle Ref S)}
    {before : List Ref} (hv : c.basis = before ++ [v])
    (h : stages g lsq p w beta target count v c s = .ok cs s') :
    Staged g p w target count c cs s' ∧
      ∀ notes, p.Notes notes → notes s'.outside = notes s.outside ++
        (((cs.getLastD c).basis.drop before.length).take cs.length).map fun v => (w, v) := by
  induction count generalizing v c cs s before with
  | zero =>
    obtain ⟨rfl, rfl⟩ := pure_eq_ok h
    exact ⟨⟨le_rfl, rfl, nofun, .inl rfl, .inl rfl, List.prefix_rfl, Nat.le_succ _⟩, by simp⟩
  | succ count ih =>
    unfold stages at h
    split at h
    · rename_i hbudget
      obtain ⟨⟨c₁, next⟩, s₁, hstep, h⟩ := bind_eq_ok h
      obtain ⟨hstepped, hnotes⟩ := step_eq_ok hstep
      cases next with
      | none =>
        obtain ⟨rfl, rfl⟩ := pure_eq_ok h
        obtain ⟨hstaged, hbasis⟩ := hstepped.staged hbudget count
        refine ⟨hstaged, fun notes hp => ?_⟩
        simpa [hbasis, hv] using hnotes notes hp
      | some next =>
        obtain ⟨cs', s₂, hrest, h⟩ := bind_eq_ok h
        obtain ⟨rfl, rfl⟩ := pure_eq_ok h
        cases hstepped with
        | grown hspent hbasis hsize hexit =>
          have hv' : c₁.basis = (before ++ [v]) ++ [next] := hbasis.trans (congrArg (· ++ [next]) hv)
          obtain ⟨hstaged, hnotes'⟩ := ih hv' hrest
          refine ⟨hstaged.cons hbudget hspent hbasis hsize, fun notes hp => ?_⟩
          obtain ⟨rest, hbasis'⟩ := hv' ▸ hstaged.initial
          rw [hnotes' notes hp, hnotes notes hp, List.getLastD_cons, ← hbasis']
          simp
    · rename_i hbudget
      obtain ⟨rfl, rfl⟩ := pure_eq_ok h
      exact ⟨⟨Nat.zero_le _, rfl, nofun, .inr (.inl (Nat.le_of_not_lt hbudget)), .inl rfl,
        List.prefix_rfl, Nat.le_succ _⟩, by simp⟩

/-! ## Turns -/

theorem cycleStages_eq_ok {spent : Nat} {c₀ : Cycle Ref S} {cs : List (Cycle Ref S)}
    (h : cycleStages g lsq p r w beta target spent s = .ok (c₀, cs) s') :
    ∃ m v, g.restart = .ok m ∧ c₀ = Cycle.start v beta spent ∧
      Staged g p w target m c₀ cs s' ∧ ∀ notes, p.Notes notes → notes s'.outside =
        notes s.outside ++ ((cs.getLastD c₀).basis.take cs.length).map fun v => (w, v) := by
  obtain ⟨v, s₁, hnew, h⟩ := bind_eq_ok h
  obtain ⟨d, s₂, hreciprocal, h⟩ := bind_eq_ok h
  obtain rfl := Run.reciprocal_eq_ok hreciprocal
  rw [bind_run_ok (p.backend.scaleInto_run v r d)] at h
  obtain ⟨m, s₃, hdemand, h⟩ := bind_eq_ok h
  obtain ⟨hrestart, rfl⟩ := Run.demand_eq_ok hdemand
  obtain ⟨cs', s₄, hstages, h⟩ := bind_eq_ok h
  obtain ⟨heq, rfl⟩ := pure_eq_ok h
  cases heq
  have hbasis : (Cycle.start v beta spent).basis = [] ++ [v] := rfl
  obtain ⟨hstaged, hnotes⟩ := stages_eq_ok hbasis hstages
  refine ⟨m, v, hrestart, rfl, hstaged, fun notes hp => ?_⟩
  rw [hnotes notes hp, Session.outside_write, hp.new hnew]
  rfl

omit [Scalar S] in
theorem combine_outside {vs : List Ref} {ys : List S} (h : combine p vs ys s = .ok () s') :
    s'.outside = s.outside := by
  induction vs generalizing s ys with
  | nil =>
    obtain ⟨-, rfl⟩ := pure_eq_ok h
    rfl
  | cons v vs ih =>
    cases ys with
    | nil =>
      obtain ⟨-, rfl⟩ := pure_eq_ok h
      rfl
    | cons y ys =>
      rw [combine, bind_run_ok (p.backend.addScaledInto_run p.unknown p.unknown v y)] at h
      exact (ih h).trans (Session.outside_write ..)

/-- What is true where a cycle ends the call: the test that the exit is named for has come out so. -/
inductive Shows (p : LinearProblem V S R σ) (r w : Ref) (target : S) (s' : Session V S R σ)
    (ρ : Round V S) : Exit → Prop
  | withinTolerance (h : Scalar.le ρ.residual target = true) : Shows p r w target s' ρ .withinTolerance
  | notFinite (h : Scalar.isFinite (p.backend.length (s'.store.read r)) = false) :
    Shows p r w target s' ρ .notFinite
  /-- The first step has left nothing of finite length. -/
  | emptyCycle (h : Scalar.isFinite (p.backend.length (s'.store.read w)) = false) :
    Shows p r w target s' ρ .emptyCycle
  | brokeDown (h : ∃ c ∈ ρ.stages.getLast?, c.brokeDown = true) :
    Shows p r w target s' ρ .brokeDown

/-- The applications of a cycle: one to the unknown, then those to basis vectors. -/
def Round.applications (ρ : Round V S) (p : LinearProblem V S R σ) (r w : Ref) : List (Ref × Ref) :=
  (r, p.unknown) :: ρ.applied.map fun v => (w, v)

/-- What a cycle does within the budget, of which `spent` is spent, and how it ends the call. -/
structure Turned (g : Gmres S R) (p : LinearProblem V S R σ) (r w : Ref) (target : S) (spent : Nat)
    (ρ : Round V S) (exit : Option Exit) (s' : Session V S R σ) : Prop where
  within : spent + ρ.steps ≤ g.maxiter
  steps_le : ∀ m, g.restart = .ok m → ρ.steps ≤ m
  applied : ρ.applied.length = ρ.steps
  full : exit = none → g.restart = .ok ρ.steps ∨ spent + ρ.steps = g.maxiter
  progress : exit = none → 0 < ρ.steps
  /-- Cycles need room for a step. -/
  shows : g.restart ≠ .ok 0 → ∀ e ∈ exit, Shows p r w target s' ρ e

theorem Turned.idle {spent : Nat} (hbudget : spent < g.maxiter) {x : V} {e : Exit}
    (h : Shows p r w target s' ⟨x, beta, [], x⟩ e) :
    Turned g p r w target spent ⟨x, beta, [], x⟩ (some e) s' where
  within := hbudget.le
  steps_le := fun _ _ => Nat.zero_le _
  applied := rfl
  full := nofun
  progress := nofun
  shows := by
    rintro - _ ⟨⟩
    exact h

theorem residualInto_notes {notes : σ → List (Ref × Ref)} (hp : p.Notes notes)
    (h : residualInto p r s = .ok () s') : notes s'.outside = notes s.outside ++ [(r, p.unknown)] := by
  obtain ⟨⟨⟩, s₁, hoperator, h⟩ := bind_eq_ok h
  obtain ⟨-, rfl⟩ := EStateM.Result.ok.inj h
  show notes s₁.outside = _
  exact hp.operator hoperator

omit [Inhabited V] [Scalar S] in
theorem getLast?_eq_getLastD {cs : List (Cycle Ref S)} (h : cs ≠ []) (c : Cycle Ref S) :
    cs.getLast? = some (cs.getLastD c) := by
  rw [List.getLastD_eq_getLast?, List.getLast?_eq_some_getLast h, Option.getD_some]

omit [Inhabited V] [Scalar S] in
theorem Round.applied_eq (ρ : Round V S) (c : Cycle Ref S) :
    ρ.applied = (ρ.stages.getLastD c).basis.take ρ.steps := by
  by_cases h : ρ.stages = []
  · simp [applied, steps, h]
  · rw [applied, getLast?_eq_getLastD h c, Option.elim_some]

theorem Staged.shows_empty {m spent : Nat} {v : Ref} {ρ : Round V S}
    (h : Staged g p w target m (Cycle.start v beta spent) ρ.stages s') (hm : m ≠ 0)
    (hbudget : spent < g.maxiter) (hlarge : ¬Scalar.le beta target = true)
    (hempty : (ρ.stages.getLastD (Cycle.start v beta spent)).columns.isEmpty = true) :
    Shows p r w target s' ρ .emptyCycle := by
  rcases h.columns with hnone | hgrown | hfinite
  · rcases hnone ▸ h.full with hcount | hspent | hexit
    · exact absurd hcount.symm hm
    · exact absurd hspent (Nat.not_le_of_lt hbudget)
    · have hexit : (Scalar.le beta target || false) = true := (Cycle.exit_isSome ..).symm.trans hexit
      rw [Bool.or_false] at hexit
      exact absurd hexit hlarge
  · rw [Array.isEmpty_iff_size_eq_zero.mp hempty] at hgrown
    exact absurd hgrown (Nat.not_lt_zero _)
  · exact .emptyCycle hfinite

theorem Round.shows_exit {ρ : Round V S} {c : Cycle Ref S} (hlast : ρ.stages.getLast? = some c) :
    ∀ e ∈ c.exit target, Shows p r w target s' ρ e := by
  intro e he
  unfold Cycle.exit at he
  split at he
  · rename_i hle
    obtain rfl := Option.some.inj he
    refine .withinTolerance ?_
    rwa [Round.residual, hlast]
  · split at he
    · rename_i hbroke
      obtain rfl := Option.some.inj he
      exact .brokeDown ⟨c, hlast, hbroke⟩
    · exact nomatch he

/-- What a cycle does that has taken its steps from `s` and been closed in `s'`. -/
theorem Staged.turned {m spent : Nat} {v : Ref} {ρ : Round V S} {exit : Option Exit}
    (h : Staged g p w target m (Cycle.start v beta spent) ρ.stages s) (hrestart : g.restart = .ok m)
    (hbudget : spent < g.maxiter) (hlarge : ¬Scalar.le beta target = true)
    (hclose : (ρ.stages.getLastD (Cycle.start v beta spent)).columns.isEmpty = true ∧
        exit = some .emptyCycle ∧ s' = s ∨
      ¬(ρ.stages.getLastD (Cycle.start v beta spent)).columns.isEmpty = true ∧
        exit = (ρ.stages.getLastD (Cycle.start v beta spent)).exit target) :
    Turned g p r w target spent ρ exit s' := by
  have hwithin : spent + ρ.steps ≤ g.maxiter := by
    by_cases hnone : ρ.stages = []
    · rw [Round.steps, hnone]
      exact hbudget.le
    · exact h.spent_eq ▸ h.within hnone
  have hsteps : ∀ m', g.restart = .ok m' → ρ.steps ≤ m' := by
    intro m' hm'
    obtain rfl := Except.ok.inj (hrestart.symm.trans hm')
    exact h.length_le
  have happlied : ρ.applied.length = ρ.steps := by
    have hlong := h.long
    have hone : (Cycle.start v beta spent).basis.length = 1 := rfl
    rw [Round.applied_eq ρ (Cycle.start v beta spent), List.length_take, Round.steps]
    omega
  rcases hclose with ⟨hempty, rfl, rfl⟩ | ⟨hcolumns, rfl⟩
  · refine ⟨hwithin, hsteps, happlied, nofun, nofun, ?_⟩
    rintro hroom _ ⟨⟩
    have hm : m ≠ 0 := fun hm => hroom (hrestart.trans (congrArg Except.ok hm))
    exact h.shows_empty hm hbudget hlarge hempty
  · have hsome : ρ.stages ≠ [] := fun hnone => hcolumns (hnone ▸ rfl)
    refine ⟨hwithin, hsteps, happlied, fun hnone => ?_, fun _ => List.length_pos_iff.mpr hsome,
      fun _ => Round.shows_exit (getLast?_eq_getLastD hsome _)⟩
    rcases h.full with hm | hover | hexit
    · exact .inl (hrestart.trans (congrArg Except.ok hm.symm))
    · exact .inr (hwithin.antisymm (h.spent_eq ▸ hover))
    · rw [hnone] at hexit
      exact nomatch hexit

theorem close_eq_ok {x : V} {c : Cycle Ref S} {cs : List (Cycle Ref S)} {ρ : Round V S}
    {exit : Option Exit} (h : close p target beta x c cs s = .ok (ρ, exit) s') :
    ρ.start = x ∧ ρ.beta = beta ∧ ρ.stages = cs ∧ s'.outside = s.outside ∧
      (c.columns.isEmpty = true ∧ exit = some .emptyCycle ∧ s' = s ∨
        ¬c.columns.isEmpty = true ∧ exit = c.exit target) := by
  unfold close at h
  split at h
  · rename_i hempty
    obtain ⟨heq, rfl⟩ := pure_eq_ok h
    cases heq
    exact ⟨rfl, rfl, rfl, rfl, .inl ⟨hempty, rfl, rfl⟩⟩
  · rename_i hcolumns
    obtain ⟨⟨⟩, s₁, hcombine, h⟩ := bind_eq_ok h
    obtain ⟨x', s₂, hcontents, h⟩ := bind_eq_ok h
    obtain ⟨rfl, rfl⟩ := EStateM.Result.ok.inj hcontents
    obtain ⟨heq, rfl⟩ := pure_eq_ok h
    cases heq
    exact ⟨rfl, rfl, rfl, combine_outside hcombine, .inr ⟨hcolumns, rfl⟩⟩

theorem turn_eq_ok {spent : Nat} (hbudget : spent < g.maxiter) {ρ : Round V S} {exit : Option Exit}
    (h : turn g lsq p r w target spent s = .ok (ρ, exit) s') :
    Turned g p r w target spent ρ exit s' ∧ ∀ notes, p.Notes notes →
      notes s'.outside = notes s.outside ++ ρ.applications p r w := by
  obtain ⟨x, s₁, hcontents, h⟩ := bind_eq_ok h
  obtain ⟨rfl, rfl⟩ := EStateM.Result.ok.inj hcontents
  obtain ⟨⟨⟩, s₂, hresidual, h⟩ := bind_eq_ok h
  rw [bind_run_ok (p.lengthAt_run r s₂)] at h
  split at h
  · rename_i hle
    obtain ⟨heq, rfl⟩ := pure_eq_ok h
    cases heq
    exact ⟨.idle hbudget (.withinTolerance hle), fun notes hp => residualInto_notes hp hresidual⟩
  rename_i hlarge
  split at h
  · rename_i hfinite
    obtain ⟨heq, rfl⟩ := pure_eq_ok h
    cases heq
    exact ⟨.idle hbudget (.notFinite (by simpa using hfinite)),
      fun notes hp => residualInto_notes hp hresidual⟩
  obtain ⟨⟨c₀, cs⟩, s₄, hstages, h⟩ := bind_eq_ok h
  obtain ⟨m, v, hrestart, hstart, hstaged, hnotes⟩ := cycleStages_eq_ok hstages
  obtain ⟨-, -, rfl, houtside, hclose⟩ := close_eq_ok h
  subst hstart
  refine ⟨hstaged.turned hrestart hbudget hlarge hclose, fun notes hp => ?_⟩
  rw [houtside, hnotes notes hp, residualInto_notes hp hresidual, Round.applications,
    Round.applied_eq ρ (Cycle.start v _ spent), List.append_assoc]
  rfl

theorem rounds_succ_eq_ok {fuel spent : Nat} (hbudget : spent < g.maxiter) {ρs : List (Round V S)}
    {exit : Exit} (h : rounds g lsq p r w target (fuel + 1) spent s = .ok (ρs, exit) s') :
    ∃ ρ next s₁, turn g lsq p r w target spent s = .ok (ρ, next) s₁ ∧
      (next = some exit ∧ ρs = [ρ] ∧ s₁ = s' ∨
        next = none ∧ ∃ ρs', ρs = ρ :: ρs' ∧
          rounds g lsq p r w target fuel (spent + ρ.steps) s₁ = .ok (ρs', exit) s') := by
  rw [rounds, if_pos hbudget] at h
  obtain ⟨⟨ρ, next⟩, s₁, hturn, h⟩ := bind_eq_ok h
  refine ⟨ρ, next, s₁, hturn, ?_⟩
  cases next with
  | some exit' =>
    obtain ⟨heq, rfl⟩ := pure_eq_ok h
    cases heq
    exact .inl ⟨rfl, rfl, rfl⟩
  | none =>
    obtain ⟨⟨ρs', exit'⟩, s₂, hrounds, h⟩ := bind_eq_ok h
    obtain ⟨heq, rfl⟩ := pure_eq_ok h
    cases heq
    exact .inr ⟨rfl, ρs', rfl, hrounds⟩

theorem rounds_of_le {spent : Nat} (h : g.maxiter ≤ spent) (fuel : Nat) :
    rounds g lsq p r w target fuel spent = pure ([], .budgetSpent) := by
  cases fuel with
  | zero => rfl
  | succ fuel => rw [rounds, if_neg (Nat.not_lt_of_le h)]

/-! ## The account of a course -/

theorem steps_eq_stages (count : Nat) (v : Ref) (c : Cycle Ref S) :
    steps g lsq p w beta target count v c =
      (fun cs => cs.getLastD c) <$> stages g lsq p w beta target count v c := by
  induction count generalizing v c with
  | zero => rfl
  | succ count ih =>
    unfold steps stages
    split
    · rw [map_bind]
      congr 1
      funext after
      obtain ⟨c', _ | next⟩ := after
      · rfl
      · simp only [ih, bind_pure_comp, Functor.map_map, List.getLastD_cons]
    · rfl

theorem cycle_eq_stages (spent : Nat) :
    cycle g lsq p r w beta target spent =
      (fun q => q.2.getLastD q.1) <$> cycleStages g lsq p r w beta target spent := by
  unfold cycle cycleStages
  simp only [steps_eq_stages, map_bind, bind_pure_comp, Functor.map_map]

theorem cycles_succ (fuel spent begun : Nat) :
    cycles g lsq p r w target (fuel + 1) spent begun =
      if spent < g.maxiter then do
        match ← turn g lsq p r w target spent with
        | (ρ, some exit) => pure ⟨exit, spent + ρ.steps, begun + 1⟩
        | (ρ, none) => cycles g lsq p r w target fuel (spent + ρ.steps) (begun + 1)
      else pure ⟨.budgetSpent, spent, begun⟩ := by
  rw [cycles]
  congr 1
  funext s
  unfold turn
  rw [bind_assoc, bind_run_ok (Run.contents_run p.unknown)]
  simp only [bind_assoc]
  refine bind_run_congr fun _ s₁ _ => ?_
  rw [bind_run_ok (p.lengthAt_run r s₁), bind_run_ok (p.lengthAt_run r s₁)]
  split
  · rfl
  split
  · rfl
  rw [cycle_eq_stages, bind_map_left, bind_assoc]
  refine bind_run_congr fun q s₂ hq => ?_
  obtain ⟨c₀, cs⟩ := q
  obtain ⟨m, v, -, hstart, hstaged, -⟩ := cycleStages_eq_ok hq
  have hspent : (cs.getLastD c₀).spent = spent + cs.length :=
    hstaged.spent_eq.trans (congrArg (·.spent + cs.length) hstart)
  dsimp only
  rw [hspent]
  generalize cs.getLastD c₀ = c
  unfold close
  split
  · rfl
  rw [bind_assoc]
  refine bind_run_congr fun _ s₃ _ => ?_
  rw [bind_assoc, bind_run_ok (Run.contents_run p.unknown)]
  unfold Cycle.exit
  split
  · rfl
  split
  · rfl
  · rfl

/-- A call is its course with nothing told but the account. -/
theorem cycles_eq_rounds (fuel spent begun : Nat) :
    cycles g lsq p r w target fuel spent begun =
      (fun q => ⟨q.2, spent + (q.1.map Round.steps).sum, begun + q.1.length⟩) <$>
        rounds g lsq p r w target fuel spent := by
  induction fuel generalizing spent begun with
  | zero => rfl
  | succ fuel ih =>
    rw [cycles_succ, rounds]
    split
    · rw [map_bind]
      congr 1
      funext q
      obtain ⟨ρ, _ | exit⟩ := q
      · simp only [ih, bind_pure_comp, Functor.map_map, List.map_cons, List.sum_cons,
          List.length_cons, Nat.add_assoc, Nat.add_comm 1]
      · simp
    · rfl

theorem call_eq_course :
    g.call lsq p = (fun q => Account.of q.1 q.2) <$> g.course lsq p := by
  unfold call course
  simp only [map_bind, cycles_eq_rounds, Nat.zero_add]
  refine bind_congr fun r => bind_congr fun w => bind_congr fun rhsLength => ?_
  split
  · rfl
  · rw [map_bind]
    rfl

end Gmres

end NewtonKrylov
