import NewtonKrylov.Krylov.LeastSquares
import NewtonKrylov.Krylov.Problem

/-!
# Restarted GMRES

A cycle starts from the residual `r = b - A x` and builds an orthonormal basis of the Krylov space
by modified Gram-Schmidt. After each step the combination of the basis that makes the residual
smallest is found from a small least-squares problem, which also tells how small that residual is.
The cycle ends when it is small enough, when the space cannot grow, when the basis is full or the
budget of operator applications is spent; then the combination is added to the unknown.

Only `new`, dot products, `addScaled` and `scale` are used on vectors. Components along the basis
are taken out with coefficients of full precision.
-/

namespace NewtonKrylov

/-- The parameters. One that is unusable says why; the call fails where it is first needed. -/
structure Gmres (S R : Type) where
  tol : Except (Fault R) S
  restart : Except (Fault R) Nat
  maxiter : Nat
  /-- A step that keeps no more than this fraction of a vector's length ends the solve. -/
  breakdownTol : Except (Fault R) S

namespace Gmres

/-- What a cycle has built, and the operator applications spent by the call so far. `B` is what a basis
vector is given by, here a reference. -/
structure Cycle (B S : Type) where
  basis : List B
  /-- The columns of the Hessenberg matrix. -/
  columns : Array (Array S)
  coefficients : List S
  residual : S
  brokeDown : Bool
  spent : Nat

inductive Exit where
  | zeroRhs
  /-- A residual met the tolerance, at the start of a cycle or within it. -/
  | withinTolerance
  | notFinite
  | emptyCycle
  | brokeDown
  | budgetSpent
deriving DecidableEq, Repr

structure Account where
  exit : Exit
  applications : Nat
  cycles : Nat

variable {V S R σ : Type} [Inhabited V] [Scalar S]

/-- The Hessenberg matrix with the given columns, zero below them. -/
def hessenberg (columns : Array (Array S)) :
    Fin (columns.size + 1) → Fin columns.size → S :=
  fun i j => (columns.getD j #[]).getD i (Scalar.ofNat 0)

def firstUnit (beta : S) {n : Nat} : Fin (n + 1) → S :=
  fun i => if i.val = 0 then beta else Scalar.ofNat 0

def orthogonalise (p : LinearProblem V S R σ) (w : Ref) : List Ref → Run V S R σ (List S)
  | [] => pure []
  | v :: vs => do
    let h ← p.backend.dotAt w v
    p.backend.addScaledWideInto w w v (-h)
    let hs ← orthogonalise p w vs
    pure (h :: hs)

def combine (p : LinearProblem V S R σ) : List Ref → List S → Run V S R σ Unit
  | v :: vs, y :: ys => do
    p.backend.addScaledInto p.unknown p.unknown v y
    combine p vs ys
  | _, _ => pure ()

/-- The cycle with one more column, solved again. -/
def Cycle.withColumn {B : Type} (lsq : LeastSquares S) (beta : S) (c : Cycle B S)
    (column : List S) : Cycle B S :=
  let columns := c.columns.push column.toArray
  let H := hessenberg columns
  let g := firstUnit beta
  let y := lsq columns.size H g
  { c with columns := columns, coefficients := y.toList, residual := LeastSquares.residual H g y }

def Cycle.start {B : Type} (v : B) (beta : S) (spent : Nat) : Cycle B S :=
  ⟨[v], #[], [], beta, false, spent⟩

def basisName (j : Nat) : String := "gmres_v" ++ toString j

/-- One Arnoldi step from the last basis vector `v`: the cycle after it, and the next basis vector
unless the cycle is over. -/
def step (g : Gmres S R) (lsq : LeastSquares S) (p : LinearProblem V S R σ) (w : Ref)
    (beta target : S) (v : Ref) (c : Cycle Ref S) : Run V S R σ (Cycle Ref S × Option Ref) := do
  p.operator w v
  let c := { c with spent := c.spent + 1 }
  let before ← p.lengthAt w
  let projections ← orthogonalise p w c.basis
  let h ← p.lengthAt w
  if !Scalar.isFinite h then
    return ({ c with brokeDown := true }, none)
  let c := c.withColumn lsq beta (projections ++ [h])
  let fraction ← Run.demand g.breakdownTol
  let c := { c with brokeDown := Scalar.le h (fraction * before) }
  if Scalar.le c.residual target || c.brokeDown then
    return (c, none)
  let next ← p.new (basisName c.columns.size)
  p.backend.scaleInto next w (← Run.reciprocal h)
  return ({ c with basis := c.basis ++ [next] }, some next)

def steps (g : Gmres S R) (lsq : LeastSquares S) (p : LinearProblem V S R σ) (w : Ref)
    (beta target : S) :
    (count : Nat) → (v : Ref) → Cycle Ref S → Run V S R σ (Cycle Ref S)
  | 0, _, c => pure c
  | count + 1, v, c =>
    if c.spent < g.maxiter then do
      match ← step g lsq p w beta target v c with
      | (c', some next) => steps g lsq p w beta target count next c'
      | (c', none) => pure c'
    else pure c

def residualInto (p : LinearProblem V S R σ) (r : Ref) : Run V S R σ Unit := do
  p.operator r p.unknown
  p.backend.addScaledInto r p.rhs r (-Scalar.ofNat 1)

def cycle (g : Gmres S R) (lsq : LeastSquares S) (p : LinearProblem V S R σ) (r w : Ref)
    (beta target : S) (spent : Nat) : Run V S R σ (Cycle Ref S) := do
  let v ← p.new (basisName 0)
  p.backend.scaleInto v r (← Run.reciprocal beta)
  let count ← Run.demand g.restart
  steps g lsq p w beta target count v (Cycle.start v beta spent)

/-- Cycles until the unknown is good enough or the budget is spent; `begun` of them have been begun.
Every cycle spends at least one application, so `fuel` need not exceed the budget. -/
def cycles (g : Gmres S R) (lsq : LeastSquares S) (p : LinearProblem V S R σ) (r w : Ref)
    (target : S) : (fuel spent begun : Nat) → Run V S R σ Account
  | 0, spent, begun => pure ⟨.budgetSpent, spent, begun⟩
  | fuel + 1, spent, begun =>
    if spent < g.maxiter then do
      residualInto p r
      let beta ← p.lengthAt r
      if Scalar.le beta target then
        return ⟨.withinTolerance, spent, begun + 1⟩
      if !Scalar.isFinite beta then
        return ⟨.notFinite, spent, begun + 1⟩
      let c ← cycle g lsq p r w beta target spent
      if c.columns.isEmpty then
        return ⟨.emptyCycle, c.spent, begun + 1⟩
      combine p c.basis c.coefficients
      if Scalar.le c.residual target then
        return ⟨.withinTolerance, c.spent, begun + 1⟩
      if c.brokeDown then
        return ⟨.brokeDown, c.spent, begun + 1⟩
      cycles g lsq p r w target fuel c.spent (begun + 1)
    else pure ⟨.budgetSpent, spent, begun⟩

/-- With a zero right-hand side the unknown is scaled by zero. -/
def call (g : Gmres S R) (lsq : LeastSquares S) (p : LinearProblem V S R σ) :
    Run V S R σ Account := do
  let r ← p.new "gmres_r"
  let w ← p.new "gmres_w"
  let rhsLength ← p.lengthAt p.rhs
  if Scalar.isZero rhsLength then
    p.backend.scaleInto p.unknown p.unknown (Scalar.ofNat 0)
    return ⟨.zeroRhs, 0, 0⟩
  let tol ← Run.demand g.tol
  cycles g lsq p r w (tol * rhsLength) g.maxiter 0 0

def solve (g : Gmres S R) (lsq : LeastSquares S) : KrylovSolver V S R σ := fun p => do
  let _ ← g.call lsq p
  pure ()

end Gmres

end NewtonKrylov
