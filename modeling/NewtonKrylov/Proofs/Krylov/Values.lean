import NewtonKrylov.Krylov.Gmres
import NewtonKrylov.LineSearch
import NewtonKrylov.Proofs.Frame

/-!
# GMRES on values

The same solver with the vectors themselves in place of references: no store, no work vectors, no
aliasing. `Gmres.refine` does the operations of `Gmres.call` in the same order and gives the same
account, so nothing is assumed of the scalars. The operator may keep a state and fail, which it does
with the calls made so far and with the unknown as refined so far.

That solving in place does exactly this is shown in `NewtonKrylov.Proofs.Krylov.InPlace`; what it
means in exact arithmetic, in the modules after it.
-/

namespace NewtonKrylov

variable {V S R σ : Type}

structure Unknown (V σ : Type) where
  value : V
  outside : σ

/-- What acts on an unknown that is a value. -/
abbrev OnUnknown (V R σ α : Type) := EStateM (Fault R) (Unknown V σ) α

def OnUnknown.consult {α : Type} (act : Collab R σ α) : OnUnknown V R σ α :=
  within Unknown.outside (fun u o => { u with outside := o }) act

theorem OnUnknown.consult_run_ok {α : Type} {act : Collab R σ α} {u : Unknown V σ} {v : α} {o : σ}
    (h : act u.outside = .ok v o) :
    (OnUnknown.consult act : OnUnknown V R σ α) u = .ok v { u with outside := o } := by
  rw [OnUnknown.consult, within, h]

theorem OnUnknown.consult_run_error {α : Type} {act : Collab R σ α} {u : Unknown V σ} {e : Fault R}
    {o : σ} (h : act u.outside = .error e o) :
    (OnUnknown.consult act : OnUnknown V R σ α) u = .error e { u with outside := o } := by
  rw [OnUnknown.consult, within, h]

theorem OnUnknown.consult_follows {s α β : Type} {J : β → s → α → σ → Prop} {E : s → σ → Prop}
    {x : EStateM (Fault R) s β} {a : s} {act : Collab R σ α} {u : Unknown V σ}
    (h : Follows J E x a act u.outside) :
    Follows (fun q a' v u' => J q a' v u'.outside ∧ u'.value = u.value)
      (fun a' u' => E a' u'.outside ∧ u'.value = u.value) x a (OnUnknown.consult act) u := by
  refine h.within.mono ?_ ?_
  · rintro q a' v _ ⟨o, hJ, rfl⟩
    exact ⟨hJ, rfl⟩
  · rintro a' _ ⟨o, hE, rfl⟩
    exact ⟨hE, rfl⟩

/-- One over a scalar; zero has no reciprocal. -/
def Scalar.reciprocal [Scalar S] (x : S) : Except (Fault R) S :=
  if Scalar.isZero x then .error .divisionByZero else .ok (Scalar.ofNat 1 / x)

namespace Gmres

variable [Scalar S]

/-- A vector with its components along others taken out, one after the other, and these components
themselves. -/
def project (K : Backend S V) : V → List V → V × List S
  | u, [] => (u, [])
  | u, v :: vs =>
    let h := K.dot u v
    let rest := project K (K.addScaledWide u v (-h)) vs
    (rest.1, h :: rest.2)

def combination (K : Backend S V) : V → List V → List S → V
  | x, v :: vs, y :: ys => combination K (K.addScaled x v y) vs ys
  | x, _, _ => x

variable (g : Gmres S R) (lsq : LeastSquares S) (K : Backend S V) (A : V → Collab R σ V)

/-- One Arnoldi step from the last basis vector `v`, as `Gmres.step`. -/
def advance (beta target : S) (v : V) (c : Cycle V S) : Collab R σ (Cycle V S × Option V) := do
  let u ← A v
  let c := { c with spent := c.spent + 1 }
  let rest := project K u c.basis
  let h := K.length rest.1
  if !Scalar.isFinite h then
    return ({ c with brokeDown := true }, none)
  let c := c.withColumn lsq beta (rest.2 ++ [h])
  let fraction ← LineSearch.orFail g.breakdownTol
  let c := { c with brokeDown := Scalar.le h (fraction * K.length u) }
  if Scalar.le c.residual target || c.brokeDown then
    return (c, none)
  let d ← LineSearch.orFail (Scalar.reciprocal h)
  let next := K.scale rest.1 d
  return ({ c with basis := c.basis ++ [next] }, some next)

def advances (beta target : S) : (count : Nat) → (v : V) → Cycle V S → Collab R σ (Cycle V S)
  | 0, _, c => pure c
  | count + 1, v, c =>
    if c.spent < g.maxiter then do
      match ← advance g lsq K A beta target v c with
      | (c', some next) => advances beta target count next c'
      | (c', none) => pure c'
    else pure c

/-- The residual at a point, as `Gmres.residualInto`. -/
def residualAt (b x : V) : Collab R σ V := do
  let y ← A x
  pure (K.addScaled b y (-Scalar.ofNat 1))

/-- What a cycle builds from the residual `r` of length `beta`, as `Gmres.cycle`. -/
def cycleFrom (target beta : S) (r : V) (spent : Nat) : Collab R σ (Cycle V S) := do
  let d ← LineSearch.orFail (Scalar.reciprocal beta)
  let v := K.scale r d
  let count ← LineSearch.orFail g.restart
  advances g lsq K A beta target count v (Cycle.start v beta spent)

/-- Cycles until the unknown is good enough or the budget is spent, as `Gmres.cycles`; `begun` of
them have been begun. -/
def refineFrom (b : V) (target : S) : (fuel spent begun : Nat) → OnUnknown V R σ Account
  | 0, spent, begun => pure ⟨.budgetSpent, spent, begun⟩
  | fuel + 1, spent, begun =>
    if spent < g.maxiter then do
      let x := (← get).value
      let r ← OnUnknown.consult (residualAt K A b x)
      let beta := K.length r
      if Scalar.le beta target then
        return ⟨.withinTolerance, spent, begun + 1⟩
      if !Scalar.isFinite beta then
        return ⟨.notFinite, spent, begun + 1⟩
      let c ← OnUnknown.consult (cycleFrom g lsq K A target beta r spent)
      if c.columns.isEmpty then
        return ⟨.emptyCycle, c.spent, begun + 1⟩
      modify fun u => { u with value := combination K x c.basis c.coefficients }
      if Scalar.le c.residual target then
        return ⟨.withinTolerance, c.spent, begun + 1⟩
      if c.brokeDown then
        return ⟨.brokeDown, c.spent, begun + 1⟩
      refineFrom b target fuel c.spent (begun + 1)
    else pure ⟨.budgetSpent, spent, begun⟩

/-- Refines the unknown of `A x = b`, as `Gmres.call`. -/
def refine (b : V) : OnUnknown V R σ Account := do
  let rhsLength := K.length b
  if Scalar.isZero rhsLength then
    modify fun u => { u with value := K.scale u.value (Scalar.ofNat 0) }
    return ⟨.zeroRhs, 0, 0⟩
  let tol ← OnUnknown.consult (LineSearch.orFail g.tol)
  refineFrom g lsq K A b (tol * rhsLength) g.maxiter 0 0

end Gmres

end NewtonKrylov
