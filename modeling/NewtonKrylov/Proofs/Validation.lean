import NewtonKrylov.Config
import NewtonKrylov.Proofs.Faults
import NewtonKrylov.Proofs.Newton.Outcome

/-!
# What the checks of options are worth

Options are only compared when a configuration is made, and a budget of a search that is not going to be
built is not even that. So what is accepted (`Options.Valid`) falls short of what a run can use: a budget
of iterations may be a binary64 number, with which nothing can count, and a norm may be any value.

`Options.toConfig_accepts`: a configuration is made exactly where its options are valid, and a run with it
ends in the faults of what it calls, with three exceptions. It fails at once if its own budget is no whole
number, when it takes its first norm if that cannot be called, and in its first search if that has a use
for a budget that is no whole number.
`Options.toConfig_lax` is about options that are accepted although no run, or nothing at all, can use
them.
-/

namespace NewtonKrylov

/-! ## The order of binary64 numbers -/

namespace Binary

open Float.Model (UnpackedFloat)

theorem swap_lexicographic (m m' : Nat) (e e' : Int) :
    ((compare e e').then (compare m m')).swap = (compare e' e).then (compare m' m) := by
  rw [Ordering.swap_then, Int.compare_swap, Nat.compare_swap]

theorem compare_swap (a b : UnpackedFloat) : b.compare a = (a.compare b).map Ordering.swap := by
  rcases a with ⟨_ | _⟩ | _ | ⟨_ | _⟩ | ⟨_ | _, m, e, h⟩ <;>
    rcases b with ⟨_ | _⟩ | _ | ⟨_ | _⟩ | ⟨_ | _, m', e', h'⟩ <;>
    first
    | rfl
    | exact congrArg some (swap_lexicographic m m' e e').symm
    | exact congrArg (fun o => some o.swap) (swap_lexicographic m m' e e').symm

theorem isSome_compare {a b : UnpackedFloat} (ha : a.isNaN = false) (hb : b.isNaN = false) :
    (a.compare b).isSome = true := by
  rcases a with ⟨_ | _⟩ | _ | ⟨_ | _⟩ | ⟨_ | _, m, e, h⟩ <;>
    rcases b with ⟨_ | _⟩ | _ | ⟨_ | _⟩ | ⟨_ | _, m', e', h'⟩ <;>
    first
    | rfl
    | exact absurd ha (by decide)
    | exact absurd hb (by decide)

theorem le_iff_not_lt {x y : Float} (hx : x.isNaN = false) (hy : y.isNaN = false) :
    y ≤ x ↔ ¬ x < y := by
  obtain ⟨o, ho⟩ := Option.isSome_iff_exists.mp (isSome_compare hx hy)
  have hle : y ≤ x ↔ o.swap.isLE = true := by
    show Float.le y x = true ↔ _
    rw [Float.le, decide_eq_true_iff]
    show UnpackedFloat.le _ _ = true ↔ _
    rw [UnpackedFloat.le, compare_swap x.toModel.unpack, ho]
    rfl
  have hlt : x < y ↔ o = .lt := by
    show Float.lt x y = true ↔ _
    rw [Float.lt, decide_eq_true_iff]
    show UnpackedFloat.lt _ _ = true ↔ _
    rw [UnpackedFloat.lt, ho, beq_iff_eq, Option.some_inj]
  rw [hle, hlt]
  cases o <;> decide

end Binary

/-! ## Values -/

namespace Value

variable {R : Type} {v : Value}

/-- A number above zero; a truth value is one or zero. -/
inductive Positive : Value → Prop
  | int {n : Int} (h : 0 < n) : Positive (.int n)
  | bool : Positive (.bool true)
  | float {x : Float} (h : 0.0 < x) : Positive (.float x)

/-- A number that is one or above; a truth value is one or zero. -/
inductive AtLeastOne : Value → Prop
  | int {n : Int} (h : 1 ≤ n) : AtLeastOne (.int n)
  | bool : AtLeastOne (.bool true)
  | float {x : Float} (h : 1.0 ≤ x) : AtLeastOne (.float x)

def isNaN : Value → Bool
  | float x => x.isNaN
  | _ => false

/-- Iterations can be counted with it. -/
def Whole (v : Value) : Prop := ∃ n, v.count? = some n

theorem positive_eq_ok_iff (what : String) :
    (v.positive what : Except (Fault R) Unit) = .ok () ↔ v.Positive := by
  have htest : ∀ c : Prop, [Decidable c] → ((if decide c then .ok () else
      .error (.notPositive what v) : Except (Fault R) Unit) = .ok () ↔ c) := by
    intro c _
    by_cases h : c <;> simp [h]
  constructor
  · intro h
    cases v with
    | int n => exact .int ((htest (0 < n)).mp h)
    | bool b =>
      cases b with
      | true => exact .bool
      | false => exact absurd ((htest ((0 : Int) < 0)).mp h) (by decide)
    | float x => exact .float ((htest (0.0 < x)).mp h)
    | str s => exact nomatch h
    | none => exact nomatch h
    | list items => exact nomatch h
    | search policy maxiter => exact nomatch h
  · rintro (h | _ | h)
    · exact (htest _).mpr h
    · rfl
    · exact (htest _).mpr h

/-- What is not a number is not below one either, so it passes for at least one. -/
theorem atLeastOne_eq_ok_iff (what : String) (hv : v.isNaN = false) :
    (v.atLeastOne what : Except (Fault R) Unit) = .ok () ↔ v.AtLeastOne := by
  have htest : ∀ c : Prop, [Decidable c] → ((if decide c then .error (.belowOne what v) else
      .ok () : Except (Fault R) Unit) = .ok () ↔ ¬ c) := by
    intro c _
    by_cases h : c <;> simp [h]
  have hone : (1.0 : Float).isNaN = false := by decide
  constructor
  · intro h
    cases v with
    | int n => exact .int (Int.not_lt.mp ((htest (n < 1)).mp h))
    | bool b =>
      cases b with
      | true => exact .bool
      | false => exact absurd Int.zero_lt_one ((htest ((0 : Int) < 1)).mp h)
    | float x => exact .float ((Binary.le_iff_not_lt hv hone).mpr ((htest (x < 1.0)).mp h))
    | str s => exact nomatch h
    | none => exact nomatch h
    | list items => exact nomatch h
    | search policy maxiter => exact nomatch h
  · rintro (h | _ | h)
    · exact (htest _).mpr (Int.not_lt.mpr h)
    · rfl
    · exact (htest _).mpr ((Binary.le_iff_not_lt hv hone).mp h)

theorem repetitions_of_not_whole (h : ¬ v.Whole) :
    (v.repetitions : Except (Fault R) Nat) = .error (.notCount v.kind) := by
  cases hv : v.count? with
  | some n => exact absurd ⟨n, hv⟩ h
  | none => rw [repetitions, hv]

theorem AtLeastOne.repetitions (h : v.AtLeastOne) (hwhole : v.Whole) :
    ∃ n, (v.repetitions : Except (Fault R) Nat) = .ok (n + 1) := by
  cases h with
  | @int n h => exact ⟨n.toNat - 1, congrArg Except.ok (by show n.toNat = _; omega)⟩
  | bool => exact ⟨0, rfl⟩
  | float h =>
    obtain ⟨n, hn⟩ := hwhole
    exact nomatch hn

/-! ### Readings of positive numbers -/

variable {S : Type} [Numeral S] {E : Set (Fault R)} (hunfit : ∀ flaw : Unfit, flaw.fault ∈ E)
include hunfit

theorem scalarOfInt_missing (n : Int) : MissingIn E (scalarOfInt n : Except (Fault R) S) := by
  unfold scalarOfInt
  cases (Numeral.ofInt n : Except Unfit S) with
  | ok x => exact .ok E x
  | error flaw => exact .error (hunfit flaw)

theorem Positive.factor_missing (h : v.Positive) : MissingIn E (v.factor : Except (Fault R) S) := by
  cases h with
  | int h => exact scalarOfInt_missing hunfit _
  | bool => exact scalarOfInt_missing hunfit 1
  | float h => exact .ok E _

theorem Positive.largest_missing (h : v.Positive) :
    MissingIn E ((v.reach : Reach (Fault R) S).largest) := by
  have hfactor : MissingIn E (v.factor : Except (Fault R) S) := h.factor_missing hunfit
  show MissingIn E (v.factor.mapError Fault.negated)
  cases hv : (v.factor : Except (Fault R) S) with
  | ok x => exact .ok E x
  | error e =>
    have he : e.negated ∈ E := by
      unfold Fault.negated
      split
      · exact hunfit (.tooWide _)
      · exact hfactor e hv
    exact .error he

theorem Positive.part_missing (h : v.Positive) (hquotient : Fault.quotientBeyondFloat ∈ E)
    (i n : Nat) : MissingIn E ((v.reach : Reach (Fault R) S).part i n) := by
  unfold reach
  dsimp only
  split
  · split
    · exact .ok E _
    · exact .error hquotient
  · have hfloat : MissingIn E (v.factor : Except (Fault R) Float) := h.factor_missing hunfit
    exact hfloat.bind fun x => (scalarOfInt_missing hunfit n).bind fun parts => .ok E _

end Value

/-! ## Options -/

/-- A value or a call is of a type that cannot be used so. -/
def Fault.wrongType {R : Type} : Fault R → Bool
  | abstractSearch | unordered .. | notCount _ | notExtent | unscalable _ | sequenceScaled
  | notWholeKind _ | notNumberKind _ | notCallable _ | missingArgument .. | tooManyArguments ..
  | solverNotCallable | callbackNotCallable | unknownKeyword .. | repeatedPosition .. | repeatedKeyword .. => true
  | _ => false

theorem except_bind_eq_ok {ε α β : Type} {x : Except ε α} {f : α → Except ε β} {b : β} :
    (x >>= f) = .ok b ↔ ∃ a, x = .ok a ∧ f a = .ok b := by
  cases x with
  | ok a =>
    constructor
    · intro h
      exact ⟨a, rfl, h⟩
    · rintro ⟨_, ⟨⟩, h⟩
      exact h
  | error e => exact ⟨nofun, fun ⟨_, h, _⟩ => nomatch h⟩

namespace SearchSetting

variable {R : Type} {choice maxiter : Value}

/-- A search whose policy has a use for a budget, and whose budget cannot count. -/
def Uncounted (t : SearchSetting) : Prop := t.policy ≠ .full ∧ ¬ t.maxiter.Whole

/-- A search that was built before, or the name of one with a budget for it. -/
def Chosen (choice maxiter : Value) : Prop :=
  (∃ policy own, choice = .search policy own) ∨
    (∃ policy : Policy, choice = .str policy.name) ∧ maxiter.AtLeastOne

theorem build_eq_ok_iff (policy : Policy) (hmaxiter : maxiter.isNaN = false) :
    (∃ t, build (R := R) policy maxiter = .ok t) ↔ maxiter.AtLeastOne := by
  simp only [build, except_bind_eq_ok, Value.atLeastOne_eq_ok_iff _ hmaxiter]
  constructor
  · rintro ⟨_, _, h, -⟩
    exact h
  · intro h
    exact ⟨_, (), h, rfl⟩

theorem named_eq_ok_iff (hmaxiter : maxiter.isNaN = false) :
    (∃ t, named (R := R) choice maxiter = .ok t) ↔
      (∃ policy : Policy, choice = .str policy.name) ∧ maxiter.AtLeastOne := by
  constructor
  · rintro ⟨t, h⟩
    unfold named at h
    split at h
    · rename_i s
      cases hs : Policy.ofName? s with
      | none => simp only [hs, reduceCtorEq] at h
      | some policy =>
        simp only [hs] at h
        have hname : policy.name = s := by
          simpa using List.find?_some hs
        exact ⟨⟨policy, hname ▸ rfl⟩, (build_eq_ok_iff policy hmaxiter).mp ⟨t, h⟩⟩
    · exact nomatch h
  · rintro ⟨⟨policy, rfl⟩, hbudget⟩
    simp only [named, Policy.ofName?_name]
    exact (build_eq_ok_iff policy hmaxiter).mpr hbudget

theorem choose_eq_ok_iff (hmaxiter : (∃ policy own, choice = .search policy own) ∨
      maxiter.isNaN = false) :
    (∃ t, choose (R := R) choice maxiter = .ok t) ↔ Chosen choice maxiter := by
  unfold choose Chosen
  split
  · rename_i policy own
    exact ⟨fun _ => .inl ⟨policy, own, rfl⟩, fun _ => ⟨_, rfl⟩⟩
  · rename_i hnot
    have hnot' : ¬ ∃ policy own, choice = .search policy own := fun ⟨policy, own, h⟩ => hnot policy own h
    rw [named_eq_ok_iff (hmaxiter.resolve_left hnot'), or_iff_right hnot']

end SearchSetting

namespace Options

variable {K N C R : Type}

/-- What a configuration is made from. -/
structure Valid (o : Options K N C) : Prop where
  epsilon : o.epsilon.Positive
  maxiter : o.maxiter.AtLeastOne
  alpha : o.alpha.Positive
  halfWidth : o.halfWidth.Positive
  linsolver : o.linsolver.callable = true
  errorCallback : o.errorCallback.callable = true
  search : SearchSetting.Chosen o.lineSearch o.lineSearchMaxiter

variable {o : Options K N C} {c : Config K N C}

theorem checkSolver_eq_ok_iff :
    (o.checkSolver : Except (Fault R) Unit) = .ok () ↔ o.linsolver.callable = true := by
  cases h : o.linsolver.callable <;> simp [checkSolver, h]

theorem checkCallback_eq_ok_iff :
    (o.checkCallback : Except (Fault R) Unit) = .ok () ↔ o.errorCallback.callable = true := by
  cases h : o.errorCallback.callable <;> simp [checkCallback, h]

theorem toConfig_eq_ok_iff : o.toConfig (R := R) = .ok c ↔
    (o.epsilon.positive "epsilon" : Except (Fault R) Unit) = .ok () ∧
    (o.maxiter.atLeastOne "maxiter" : Except (Fault R) Unit) = .ok () ∧
    (o.alpha.positive "alpha" : Except (Fault R) Unit) = .ok () ∧
    (o.halfWidth.positive "jfnk_epsilon" : Except (Fault R) Unit) = .ok () ∧
    (o.checkSolver : Except (Fault R) Unit) = .ok () ∧
    (o.checkCallback : Except (Fault R) Unit) = .ok () ∧
    SearchSetting.choose (R := R) o.lineSearch o.lineSearchMaxiter = .ok c.search ∧
    c.options = o := by
  obtain ⟨options, search⟩ := c
  simp only [toConfig, except_bind_eq_ok]
  constructor
  · rintro ⟨⟨⟩, h₁, ⟨⟩, h₂, ⟨⟩, h₃, ⟨⟩, h₄, ⟨⟩, h₅, ⟨⟩, h₆, t, h₇, ⟨⟩⟩
    exact ⟨h₁, h₂, h₃, h₄, h₅, h₆, h₇, rfl⟩
  · rintro ⟨h₁, h₂, h₃, h₄, h₅, h₆, h₇, rfl⟩
    exact ⟨(), h₁, (), h₂, (), h₃, (), h₄, (), h₅, (), h₆, search, h₇, rfl⟩

/-- A configuration is made exactly where its options are valid, as far as they are numbers. -/
theorem exists_toConfig_iff (hmaxiter : o.maxiter.isNaN = false)
    (hbudget : (∃ policy own, o.lineSearch = .search policy own) ∨
      o.lineSearchMaxiter.isNaN = false) :
    (∃ c, o.toConfig (R := R) = .ok c) ↔ o.Valid := by
  simp only [toConfig_eq_ok_iff, Value.positive_eq_ok_iff, Value.atLeastOne_eq_ok_iff _ hmaxiter,
    checkSolver_eq_ok_iff, checkCallback_eq_ok_iff]
  constructor
  · rintro ⟨c, h₁, h₂, h₃, h₄, h₅, h₆, h₇, -⟩
    exact ⟨h₁, h₂, h₃, h₄, h₅, h₆, (SearchSetting.choose_eq_ok_iff hbudget).mp ⟨_, h₇⟩⟩
  · rintro ⟨h₁, h₂, h₃, h₄, h₅, h₆, h₇⟩
    obtain ⟨t, ht⟩ := (SearchSetting.choose_eq_ok_iff hbudget).mpr h₇
    exact ⟨⟨o, t⟩, h₁, h₂, h₃, h₄, h₅, h₆, ht, rfl⟩

end Options

/-! ## Runs with a configuration -/

section Runs

/-- What the caller of a run brings along: vectors, a residual function, the meaning of the norms, solvers
and callbacks that options may name, and perhaps a callback of its own. -/
structure Caller (K N C V S σ : Type) where
  space : Backend S V
  residual : Residual V Float σ
  norm : N → V → Collab Float σ Float
  solver : K → KrylovSolver V S Float σ
  callback : C → Callback Float σ
  own : Option (Callback Float σ)

variable {K N C S V σ : Type} [Inhabited V] [Scalar S] [Numeral S]

/-- A run with a configuration. -/
def Config.solve (c : Config K N C) (caller : Caller K N C V S σ) (x : Ref) (given : Option Ref) :
    Run V S Float σ (Ending Float) :=
  Newton.solve (c.problem caller.space caller.residual caller.norm)
    (c.toMethod (c.options.linsolver.toSolver caller.solver)) (c.callbackFor caller.callback caller.own) x given

/-- The faults that have nothing to do with types. -/
def Fault.fitting {R : Type} : Set (Fault R) := {e | e.wrongType = false}

theorem Fault.unfit_fitting {R : Type} (flaw : Unfit) : (flaw.fault : Fault R) ∈ Fault.fitting := by
  cases flaw <;> rfl

variable {caller : Caller K N C V S σ}
variable {o : Options K N C} {c : Config K N C} {E F : Set (Fault Float)}

/-- What a run with these options calls fails for causes in `E` only. -/
structure Options.CallsIn (o : Options K N C) (caller : Caller K N C V S σ) (E : Set (Fault Float)) :
    Prop where
  residual : ∀ old point, FailsIn E (caller.residual old point)
  norm : ∀ norm v, FailsIn E (caller.norm norm v)
  solver : KrylovSolver.FaultsIn (o.linsolver.toSolver caller.solver) E
  callback : ∀ tell ∈ o.errorCallback.toCallback caller.callback, ∀ err k, FailsIn E (tell err k)
  own : ∀ tell ∈ caller.own, ∀ err k, FailsIn E (tell err k)

namespace Options.CallsIn

theorem mono (h : o.CallsIn caller E) (hEF : E ⊆ F) : o.CallsIn caller F where
  residual old point := (h.residual old point).mono hEF
  norm norm v := (h.norm norm v).mono hEF
  solver := h.solver.mono hEF
  callback tell htell err k := (h.callback tell htell err k).mono hEF
  own tell htell err k := (h.own tell htell err k).mono hEF

theorem problem (h : c.options.CallsIn caller E)
    (hnorm : ∀ v, c.options.norm = .uncallable v → v.miscalled 1 ∈ E) :
    (c.problem caller.space caller.residual caller.norm).FaultsIn E where
  residual := h.residual
  norm v := by
    show FailsIn E (c.options.norm.toNorm caller.norm _ v)
    cases hchoice : c.options.norm with
    | absent => exact .pure _
    | given norm => exact h.norm norm v
    | uncallable value => exact .throw (hnorm value hchoice)

theorem callbackFor (h : c.options.CallsIn caller E) :
    ∀ tell ∈ c.callbackFor caller.callback caller.own, ∀ err k, FailsIn E (tell err k) := by
  intro tell htell
  unfold Config.callbackFor at htell
  cases hown : caller.own with
  | some tell' =>
    rw [hown] at htell
    obtain rfl : tell' = tell := Option.some.inj htell
    exact h.own tell' hown
  | none =>
    rw [hown] at htell
    exact h.callback tell htell

end Options.CallsIn

omit [Inhabited V] in
theorem Config.toMethod_faultsIn (hF : Fault.fitting ⊆ F) (ho : c.options.Valid)
    {solver : KrylovSolver V S Float σ} (hsolver : KrylovSolver.FaultsIn solver F)
    (hmaxiter : MissingIn F c.options.maxiter.repetitions)
    (hbudget : c.search.policy ≠ .full → MissingIn F c.search.maxiter.repetitions) :
    (c.toMethod solver).FaultsIn F where
  maxiter := hmaxiter
  halfWidth := ho.halfWidth.factor_missing fun flaw => hF (Fault.unfit_fitting flaw)
  solver := hsolver
  search _ hprofile :=
    have hunfit : ∀ flaw : Unfit, flaw.fault ∈ F := fun flaw => hF (Fault.unfit_fitting flaw)
    LineSearch.run_failsIn hprofile c.search.toLineSearch (ho.alpha.largest_missing hunfit)
      (ho.alpha.part_missing hunfit (hF rfl)) hbudget

variable (caller) in
/-- With a budget that cannot count, a run fails before its first iteration. -/
theorem Config.solve_of_not_whole (hmaxiter : ¬ c.options.maxiter.Whole) (x : Ref)
    (given : Option Ref) (s : Session V S Float σ) :
    ∃ s', c.solve caller x given s = .error (.notCount c.options.maxiter.kind) s' := by
  obtain ⟨w, dx, s', hopening⟩ :=
    Newton.opening_ok (c.problem caller.space caller.residual caller.norm) x given s
  refine ⟨s', ?_⟩
  rw [solve, Newton.solve, Newton.run_of_opening _ _ _ hopening]
  refine bind_run_error ?_ _
  show Run.demand c.options.maxiter.repetitions s' = _
  rw [Value.repetitions_of_not_whole hmaxiter]
  rfl

variable (caller) in
/-- With a norm that cannot be called, a run fails as soon as it has a residual. -/
theorem Config.solve_of_uncallable {v : Value} (hnorm : c.options.norm = .uncallable v) {n : Nat}
    (hmaxiter : c.options.maxiter.repetitions (R := Float) = .ok (n + 1)) (x : Ref) (given : Option Ref)
    (s : Session V S Float σ) :
    ∃ e s', c.solve caller x given s = .error e s' ∧
      (e = v.miscalled 1 ∨ ∃ old point t t', caller.residual old point t = .error e t') := by
  refine Newton.run_of_norm_error (fun u t => ?_) hmaxiter
  show c.options.norm.toNorm caller.norm _ u t = _
  rw [hnorm]
  rfl

theorem Config.solve_failsIn (hF : Fault.fitting ⊆ F) (ho : c.options.Valid)
    (hcalls : c.options.CallsIn caller F)
    (hnorm : ∀ v, c.options.norm = .uncallable v → v.miscalled 1 ∈ F)
    (hmaxiter : MissingIn F c.options.maxiter.repetitions)
    (hbudget : c.search.policy ≠ .full → MissingIn F c.search.maxiter.repetitions) (x : Ref)
    (given : Option Ref) : FailsIn F (c.solve caller x given) := by
  have hM := toMethod_faultsIn hF ho hcalls.solver hmaxiter hbudget
  refine Newton.run_failsIn (hcalls.problem hnorm) hM ?_ (hF rfl) (fun _ _ => hF rfl) given
  intro tell htell err k
  obtain ⟨tell', htell', rfl⟩ := Option.map_eq_some_iff.mp htell
  exact .consult (hcalls.callbackFor tell' htell' err k)

/-- A configuration is made exactly where its options are valid. A run with it fails at once where its
budget is no whole number, and else in its first iteration where its norm cannot be called. Else it fails
for causes in `E` if all that it calls does, unless its search makes use of a budget that is no whole
number; a run with such a search returns in its first iteration or not at all. -/
theorem Options.toConfig_accepts (o : Options K N C) (hmaxiter : o.maxiter.isNaN = false)
    (hbudget : (∃ policy own, o.lineSearch = .search policy own) ∨
      o.lineSearchMaxiter.isNaN = false) :
    ((∃ c, o.toConfig (R := Float) = .ok c) ↔ o.Valid) ∧
      ∀ c, o.toConfig (R := Float) = .ok c →
        ∀ (caller : Caller K N C V S σ) (x : Ref) (given : Option Ref),
          (¬ o.maxiter.Whole → ∀ s, ∃ s', c.solve caller x given s =
            .error (.notCount o.maxiter.kind) s') ∧
          (o.maxiter.Whole → ∀ v, o.norm = .uncallable v → ∀ s, ∃ e s',
            c.solve caller x given s = .error e s' ∧
              (e = v.miscalled 1 ∨ ∃ old point t t', caller.residual old point t = .error e t')) ∧
          (o.maxiter.Whole → ∀ E, Fault.fitting ⊆ E → o.CallsIn caller E →
            FailsIn (E ∪ {e | ∃ v, o.norm = .uncallable v ∧ e = v.miscalled 1} ∪
              {e | c.search.Uncounted ∧ e = .notCount c.search.maxiter.kind}) (c.solve caller x given)) ∧
          (c.search.Uncounted → ∀ s ending s', c.solve caller x given s = .ok ending s' →
            ∃ err, ending = .stopped 1 err ∨ ending = .converged 1 err) := by
  have hiff := exists_toConfig_iff (R := Float) hmaxiter hbudget
  refine ⟨hiff, fun c hc caller x given => ?_⟩
  have ho := hiff.mp ⟨c, hc⟩
  obtain ⟨-, -, -, -, -, -, -, rfl⟩ := toConfig_eq_ok_iff.mp hc
  refine ⟨fun hwhole => Config.solve_of_not_whole caller hwhole x given, fun hwhole v hnorm => ?_,
    fun hwhole E hE hcalls => ?_, fun huncounted s ending s' hrun => ?_⟩
  · obtain ⟨n, hn⟩ := ho.maxiter.repetitions (R := Float) hwhole
    exact Config.solve_of_uncallable caller hnorm hn x given
  · obtain ⟨n, hn⟩ := ho.maxiter.repetitions (R := Float) hwhole
    refine Config.solve_failsIn (fun e he => .inl (.inl (hE he))) ho
      (hcalls.mono fun e he => .inl (.inl he)) (fun v hnorm => .inl (.inr ⟨v, hnorm, rfl⟩))
      (hn ▸ .ok _ _) ?_ x given
    intro hpolicy
    by_cases hcount : c.search.maxiter.Whole
    · obtain ⟨m, hm⟩ := hcount
      rw [Value.repetitions, hm]
      exact .ok _ _
    · rw [Value.repetitions_of_not_whole hcount]
      exact .error (.inr ⟨⟨hpolicy, hcount⟩, rfl⟩)
  · by_cases hwhole : c.options.maxiter.Whole
    · obtain ⟨n, hn⟩ := ho.maxiter.repetitions (R := Float) hwhole
      refine Newton.run_of_search_ne_ok ?_ hn hrun
      intro profile s₁ found s₂
      exact LineSearch.run_ne_ok huncounted.1 (Value.repetitions_of_not_whole huncounted.2) s₁ found s₂
    · obtain ⟨s₁, herror⟩ := Config.solve_of_not_whole caller hwhole x given s
      rw [herror] at hrun
      exact nomatch hrun

end Runs

/-- The residual function of one real function, alone. -/
def Newton.lineCaller (f : Float → Float) : Caller Empty Empty Empty (Vector Float 1) Float Unit where
  space := (Component.plain Float).backend 1
  residual := (Newton.lineProblem f).residual
  norm := Empty.elim
  solver := Empty.elim
  callback := Empty.elim
  own := none

/-- The default options are valid, and what a run with them fails for has nothing to do with types. -/
theorem Options.toConfig_default_accepts :
    ({} : Options Empty Empty Empty).maxiter.isNaN = false ∧
      ({} : Options Empty Empty Empty).lineSearchMaxiter.isNaN = false ∧
      ({} : Options Empty Empty Empty).Valid ∧
      ∃ c, ({} : Options Empty Empty Empty).toConfig (R := Float) = .ok c ∧
        FailsIn Fault.fitting (c.solve (Newton.lineCaller id) ⟨0⟩ (some ⟨1⟩)) := by
  obtain ⟨hiff, hruns⟩ := toConfig_accepts (S := Float) (V := Vector Float 1) (σ := Unit)
    ({} : Options Empty Empty Empty) rfl (.inr rfl)
  have hc : ({} : Options Empty Empty Empty).toConfig (R := Float) =
      .ok ⟨{}, ⟨.bisection, .int 100⟩⟩ := rfl
  refine ⟨rfl, rfl, hiff.mp ⟨_, hc⟩, _, hc, ?_⟩
  have hg : (({} : GmresOptions).toGmres : Gmres Float Float).FaultsIn Fault.fitting :=
    ⟨.ok _ (1e-10 : Float), .ok _ 20, .ok _ (1e-12 : Float)⟩
  have hdivision : (Fault.divisionByZero : Fault Float) ∈ Fault.fitting := rfl
  have hcalls : ({} : Options Empty Empty Empty).CallsIn (Newton.lineCaller id) Fault.fitting :=
    { residual := fun _ _ => .pure _
      norm := nofun
      solver := Gmres.solve_failsIn hg hdivision _
      callback := nofun
      own := nofun }
  obtain ⟨-, -, hfails, -⟩ := hruns _ hc (Newton.lineCaller id) ⟨0⟩ (some ⟨1⟩)
  refine (hfails ⟨100, rfl⟩ _ subset_rfl hcalls).mono (Set.union_subset (Set.union_subset subset_rfl ?_) ?_)
  · rintro _ ⟨v, hnorm, -⟩
    exact nomatch hnorm
  · rintro _ ⟨⟨-, hcount⟩, -⟩
    exact absurd ⟨100, rfl⟩ hcount

/-- A search that was built before, with a budget for one that is not going to be built. -/
def idleBudget : Options Empty Empty Empty where
  lineSearch := .search .bisection (.int 100)
  lineSearchMaxiter := .int 0

/-- A budget between two whole numbers. -/
def brokenBudget : Options Empty Empty Empty where
  maxiter := .float 2.5

/-- A number in place of a norm. -/
def strayNorm : Options Empty Empty Empty where
  norm := .uncallable (.int 5)

/-- A budget of zero is accepted for a search that is not going to be built. So are a budget of iterations
that is no whole number and a norm that cannot be called, with which every run fails. -/
theorem Options.toConfig_lax :
    (¬ idleBudget.lineSearchMaxiter.AtLeastOne ∧ ∃ c, idleBudget.toConfig (R := Float) = .ok c) ∧
      (¬ brokenBudget.maxiter.Whole ∧ ∃ c, brokenBudget.toConfig (R := Float) = .ok c ∧
        ∃ s', c.solve (Newton.lineCaller id) ⟨0⟩ (some ⟨1⟩) Newton.unitSession =
          .error (.notCount "float") s') ∧
      ∃ c, strayNorm.toConfig (R := Float) = .ok c ∧
        ∃ s', c.solve (Newton.lineCaller id) ⟨0⟩ (some ⟨1⟩) Newton.unitSession =
          .error (.notCallable "int") s' := by
  have hwhole : ¬ brokenBudget.maxiter.Whole := fun ⟨_, h⟩ => nomatch h
  have hbroken : brokenBudget.toConfig (R := Float) = .ok ⟨brokenBudget, ⟨.bisection, .int 100⟩⟩ := rfl
  have hstray : strayNorm.toConfig (R := Float) = .ok ⟨strayNorm, ⟨.bisection, .int 100⟩⟩ := rfl
  refine ⟨⟨fun h => ?_, _, rfl⟩, ⟨hwhole, _, hbroken, ?_⟩, _, hstray, ?_⟩
  · cases h with
    | int h => exact absurd h (by decide)
  · exact Config.solve_of_not_whole (Newton.lineCaller id) hwhole ⟨0⟩ (some ⟨1⟩) Newton.unitSession
  · obtain ⟨e, s', hrun, rfl | ⟨old, point, _, _, hresidual⟩⟩ := Config.solve_of_uncallable
      (Newton.lineCaller id) (c := ⟨strayNorm, ⟨.bisection, .int 100⟩⟩) rfl (n := 99) rfl ⟨0⟩ (some ⟨1⟩)
      Newton.unitSession
    · exact ⟨s', hrun⟩
    · exact nomatch hresidual

end NewtonKrylov
