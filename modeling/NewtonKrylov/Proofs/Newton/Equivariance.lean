import Mathlib.Analysis.InnerProductSpace.Adjoint
import Mathlib.LinearAlgebra.UnitaryGroup
import NewtonKrylov.Proofs.Krylov.Transport
import NewtonKrylov.Proofs.Newton.Affine
import NewtonKrylov.Proofs.Newton.Passage
import NewtonKrylov.Proofs.Newton.Recording

/-!
# Runs in turned coordinates

`Newton.solve_turned`: a run of GMRES on real vectors does not notice an orthogonal change of coordinates.
On the residual function in turned coordinates, from turned vectors, it reports the same norms and steps,
ends the same way and passes through the same sessions with their vectors turned.

A run decides by dot products and by what collaborators answer, and makes vectors by sums and multiples
only. So its passage is transported by every symmetry of the backend that the residual function goes with
and that the norm does not notice (`Newton.run_transports`); orthogonal matrices are such symmetries of real
vectors. No property of the least-squares solver is used: it is given the same numbers in both runs.
-/

namespace NewtonKrylov

open Run.Passage (action Transports)

variable {V S R σ : Type} {h : V → V}

theorem Inquiry.run_transports {profile profile' : S → Run V S R σ R}
    {t : ∀ alpha, Run.Passage (profile alpha)} {t' : ∀ alpha, Run.Passage (profile' alpha)}
    (ht : ∀ alpha, Transports h (t alpha) (t' alpha)) (q : Inquiry S R (Fault R) σ) :
    Transports h (q.passage t) (q.passage t') := by
  induction q with
  | choose alpha line => exact .pure _
  | fail e => exact .action fun _ => rfl
  | look alpha next ih => exact .bind (ht alpha) ih
  | turn change next ih => exact .bind (.consult _) ih

namespace Newton

variable [Inhabited V] [Scalar S]

/-- With `f` for its residual function, the problem on transformed vectors is the problem itself: the
backend and the norm do not notice the transformation. -/
structure Symmetric (h : V → V) (P : NonlinearProblem V S R σ) (f : Residual V R σ) : Prop where
  backend : P.backend.Symmetry h
  residual : P.residual.Transports h f
  norm : ∀ v, P.norm (h v) = P.norm v

variable {P : NonlinearProblem V S R σ} {f : Residual V R σ} (hP : Symmetric h P f)
variable {M : Method V S R σ} {g : Gmres S R} {lsq : LeastSquares S} {q : Inquiry S R (Fault R) σ}
variable (hsolver : M.solver = g.solve lsq)
variable (hsearch : ∀ profile, M.search profile M.reach = q.run Run.turn profile)
include hP

omit [Scalar S] in
theorem normAt_transports (r : Ref) :
    Transports h (action (normAt P r)) (action (normAt { P with residual := f } r)) := by
  refine .action fun s => ?_
  show Run.consult (P.norm ((s.map h).store.read r)) (s.map h) =
    seenThrough (Session.map h) (Run.consult (P.norm (s.store.read r)) s)
  rw [hP.backend.read_map, hP.norm]
  exact (Transports.consult _).run_eq s

theorem profile_transports (w : Scratch) (x dx : Ref) (alpha : S) :
    Transports h (profilePassage P w x dx alpha)
      (profilePassage { P with residual := f } w x dx alpha) :=
  .bind (hP.backend.addScaledInto w.ahead x dx (-alpha)) fun _ =>
    .bind (hP.backend.into hP.residual _ _) fun _ => normAt_transports hP _

theorem derivative_transports (w : Scratch) (x : Ref) (e : S) (result v : Ref) :
    Transports h (derivativePassage w x P.residual P.backend e result v)
      (derivativePassage w x f P.backend e result v) := by
  refine .bind (hP.backend.addScaledInto w.ahead x v e) fun _ => ?_
  refine .bind (hP.backend.addScaledInto w.behind x v (-e)) fun _ => ?_
  refine .bind (hP.backend.into hP.residual _ _) fun _ => ?_
  refine .bind (hP.backend.into hP.residual _ _) fun _ => ?_
  refine .bind (hP.backend.addScaledInto result _ _ _) fun _ => ?_
  exact .bind (.reciprocal _) fun d => hP.backend.scaleInto result result d

theorem directionProblem_transports (M : Method V S R σ) (w : Scratch) (x dx : Ref) :
    LinearProblem.Passages.Transports h (directionPassages P M w x dx)
      (directionPassages { P with residual := f } M w x dx :
        ((directionProblem P M w x dx).offering (Run.keptAs P.backend.new)
          (directionProblem { P with residual := f } M w x dx).operator).Passages) where
  symmetry := hP.backend
  new name := .keptAs hP.backend.zero_eq name
  operator result v :=
    .bind (.demand M.halfWidth) fun e => derivative_transports hP w x e result v

theorem update_transports (w : Scratch) (x dx : Ref) (k : Nat) (err : R) :
    Transports h (updatePassage P w x dx (.ofGmres hsolver hsearch) k err)
      (updatePassage { P with residual := f } w x dx (.ofGmres hsolver hsearch) k err) := by
  have hsolve := Gmres.solve_transports g lsq (directionProblem_transports hP M w x dx)
  have hlook := Inquiry.run_transports (profile_transports hP w x dx) q
  refine .bind (hsolve.of_eq (congrFun hsolver _).symm (congrFun hsolver _).symm) fun _ => ?_
  refine .bind (hlook.of_eq (hsearch _).symm (hsearch _).symm) fun found => ?_
  exact .bind (.action fun _ => rfl) fun _ => hP.backend.addScaledInto x x dx _

variable (callback : Option (Callback R σ))

omit hP [Inhabited V] [Scalar S] in
theorem answer_transports (k : Nat) (err : R) :
    Transports h (action (answer (consulting (V := V) (S := S) callback) k err))
      (action (answer (consulting callback) k err)) := by
  cases callback with
  | none => exact .pure false
  | some tell => exact .consult (tell err k)

variable [Magnitude R]

omit hP [Inhabited V] [Scalar S] in
theorem endsAt_transports (M : Method V S R σ) (k : Nat) (err : R) :
    Transports h (action (endsAt M (consulting (V := V) (S := S) callback) k err))
      (action (endsAt M (consulting callback) k err)) := by
  refine .action fun s => ?_
  by_cases hfinite : M.checkFinite = true → Magnitude.isFinite err = true
  · rw [endsAt_of_finite hfinite]
    exact (Transports.bind (answer_transports callback k err) fun stop =>
      .pure (verdict M k err stop)).run_eq s
  · obtain ⟨hcheck, hinfinite⟩ := Classical.not_imp.mp hfinite
    rw [endsAt_of_not_finite hcheck (Bool.eq_false_iff.mpr hinfinite),
      endsAt_of_not_finite hcheck (Bool.eq_false_iff.mpr hinfinite)]
    rfl

theorem iterations_transports (w : Scratch) (x dx : Ref) (remaining done : Nat) (last : Option R) :
    Transports h
      (iterationsPassage P (consulting callback) w x dx (.ofGmres hsolver hsearch) remaining done last)
      (iterationsPassage { P with residual := f } (consulting callback) w x dx
        (.ofGmres hsolver hsearch) remaining done last) := by
  induction remaining generalizing done last with
  | zero => exact .pure _
  | succ remaining ih =>
    refine .bind (hP.backend.into hP.residual w.residual x) fun _ => ?_
    refine .bind (normAt_transports hP w.residual) fun err => ?_
    refine .bind (endsAt_transports callback M (done + 1) err) fun ended => ?_
    cases ended with
    | some ending => exact .pure ending
    | none => exact .bind (update_transports hP hsolver hsearch w x dx _ err) fun _ => ih _ _

omit [Magnitude R] in
theorem opening_transports (x : Ref) (given : Option Ref) :
    Transports h (openingPassage P x given) (openingPassage { P with residual := f } x given) := by
  have hallocate : Transports h (allocatePassage P.backend : Run.Passage (R := R) (σ := σ) _)
      (allocatePassage P.backend) := by
    refine .bind (hP.backend.new _) fun _ => .bind (hP.backend.new _) fun _ => ?_
    refine .bind (hP.backend.new _) fun _ => .bind (hP.backend.new _) fun _ => ?_
    exact .bind (hP.backend.new _) fun _ => .pure _
  have hstart : Transports h (startPassage P x given)
      (startPassage { P with residual := f } x given) := by
    cases given with
    | some dx => exact .pure dx
    | none =>
      exact .bind (hP.backend.new "dx") fun dx => .bind (hP.backend.scaleInto dx x _) fun _ => .pure dx
  exact .bind hallocate fun w => .bind hstart fun dx => .bind (.action fun _ => rfl) fun _ => .pure _

/-- From transformed vectors a run on the problem for them goes as the run from the vectors does. -/
theorem run_transports (x : Ref) (given : Option Ref) :
    Transports h (passage P (consulting callback) x (.ofGmres hsolver hsearch) given)
      (passage { P with residual := f } (consulting callback) x (.ofGmres hsolver hsearch) given) := by
  refine Transports.of_eq (.bind (opening_transports hP x given) fun v => ?_) _ _
  refine .bind (.demand M.maxiter) fun n => ?_
  refine .bind (iterations_transports hP hsolver hsearch callback _ _ _ n 0 none) fun ending => ?_
  exact .bind (.action fun _ => rfl) fun _ => .pure ending

end Newton

/-! ## Orthogonal matrices -/

section Orthogonal

variable {d : Nat} {A B Q : Matrix (Fin d) (Fin d) ℝ}

/-- A matrix applied to a vector. -/
noncomputable def turned (A : Matrix (Fin d) (Fin d) ℝ) (v : Vector ℝ d) : Vector ℝ d :=
  Vector.ofFn (A.mulVec v.get)

theorem point_turned (A : Matrix (Fin d) (Fin d) ℝ) (v : Vector ℝ d) :
    point (turned A v) = A.toEuclideanLin (point v) := by
  ext i
  simp only [point, turned, Vector.getElem_ofFn, Fin.getElem_fin, Matrix.toLpLin_apply]
  rfl

theorem turned_mul (v : Vector ℝ d) : turned A (turned B v) = turned (A * B) v := by
  apply point_injective
  rw [point_turned, point_turned, point_turned]
  simp [Matrix.toLpLin_apply, Matrix.mulVec_mulVec]

theorem turned_one (v : Vector ℝ d) : turned 1 v = v := by
  apply point_injective
  rw [point_turned]
  simp

theorem turned_transpose (hQ : Q ∈ Matrix.orthogonalGroup (Fin d) ℝ) (v : Vector ℝ d) :
    turned Q.transpose (turned Q v) = v := by
  rw [turned_mul, (Matrix.mem_orthogonalGroup_iff' (Fin d) ℝ).mp hQ, turned_one]

theorem turned_symmetry (hQ : Q ∈ Matrix.orthogonalGroup (Fin d) ℝ) :
    ((Component.plain ℝ).backend d).Symmetry (turned Q) where
  zero_eq := by
    apply point_injective
    rw [point_turned, point_zero, map_zero]
  default_eq := by
    apply point_injective
    rw [point_turned, point_default, map_zero]
  dot_eq u v := by
    have hadjoint : LinearMap.adjoint Q.toEuclideanLin = Q.transpose.toEuclideanLin := by
      rw [← Matrix.toEuclideanLin_conjTranspose_eq_adjoint,
        Matrix.conjTranspose_eq_transpose_of_trivial]
    rw [(Component.plain_exact d).dot_eq, (Component.plain_exact d).dot_eq, point_turned Q v,
      ← LinearMap.adjoint_inner_left, hadjoint, ← point_turned, turned_transpose hQ]
  addScaled_eq u v c := by
    apply point_injective
    rw [(Component.plain_exact d).addScaled_eq, point_turned, point_turned, point_turned,
      (Component.plain_exact d).addScaled_eq, map_add, map_smul]
  addScaledWide_eq u v c := by
    apply point_injective
    rw [(Component.plain_exact d).addScaledWide_eq, point_turned, point_turned, point_turned,
      (Component.plain_exact d).addScaledWide_eq, map_add, map_smul]
  scale_eq v c := by
    apply point_injective
    rw [(Component.plain_exact d).scale_eq, point_turned, point_turned,
      (Component.plain_exact d).scale_eq, map_smul]

variable {R σ : Type}

/-- The residual function in turned coordinates: turn back, take the residual, turn. -/
noncomputable def Residual.turned (f : Residual (Vector ℝ d) R σ) (Q : Matrix (Fin d) (Fin d) ℝ) :
    Residual (Vector ℝ d) R σ := fun old y =>
  NewtonKrylov.turned Q <$> f (NewtonKrylov.turned Q.transpose old) (NewtonKrylov.turned Q.transpose y)

theorem Residual.transports_turned (hQ : Q ∈ Matrix.orthogonalGroup (Fin d) ℝ)
    (f : Residual (Vector ℝ d) R σ) : f.Transports (NewtonKrylov.turned Q) (f.turned Q) := by
  intro old v
  rw [Residual.turned, turned_transpose hQ, turned_transpose hQ]

/-- A problem of real vectors with the default norm. -/
noncomputable def meanSquareProblem (f : Residual (Vector ℝ d) R σ) (measure : ℝ → R) :
    NonlinearProblem (Vector ℝ d) ℝ R σ where
  backend := (Component.plain ℝ).backend d
  residual := f
  norm v := pure (measure (((Component.plain ℝ).backend d).meanSquare v))

namespace Newton

variable [Magnitude R] {M : Method (Vector ℝ d) ℝ R σ} {g : Gmres ℝ R} {lsq : LeastSquares ℝ}
variable {q : Inquiry ℝ R (Fault R) σ}

/-- A run on the turned residual function from turned vectors goes as the run on the residual function
goes from the vectors, with all vectors turned and all else the same: what is reported, how it ends and
the state of the collaborators, in every session that it passes through. -/
theorem solve_turned (hQ : Q ∈ Matrix.orthogonalGroup (Fin d) ℝ) (f : Residual (Vector ℝ d) R σ)
    (measure : ℝ → R) (hsolver : M.solver = g.solve lsq)
    (hsearch : ∀ profile, M.search profile M.reach = q.run Run.turn profile)
    (callback : Option (Callback R σ)) (x : Ref) (given : Option Ref)
    (s : Session (Vector ℝ d) ℝ R σ) :
    solve (meanSquareProblem (f.turned Q) measure) M callback x given (s.map (turned Q)) =
        seenThrough (Session.map (turned Q))
          (solve (meanSquareProblem f measure) M callback x given s) ∧
      (passage (meanSquareProblem (f.turned Q) measure) (consulting callback) x
          (.ofGmres hsolver hsearch) given).sessions (s.map (turned Q)) =
        ((passage (meanSquareProblem f measure) (consulting callback) x (.ofGmres hsolver hsearch)
          given).sessions s).map (Session.map (turned Q)) := by
  have hsymmetric : Symmetric (turned Q) (meanSquareProblem f measure) (f.turned Q) :=
    { backend := turned_symmetry hQ
      residual := f.transports_turned hQ
      norm := fun v => by
        show pure (measure (Backend.meanSquare _ _)) = pure (measure (Backend.meanSquare _ _))
        rw [Backend.meanSquare, (turned_symmetry hQ).dot_eq, Backend.meanSquare] }
  have htransports := run_transports hsymmetric hsolver hsearch callback x given
  exact ⟨htransports.run_eq s, htransports.sessions_eq s⟩

end Newton

end Orthogonal

/-! ## Two unknowns exchanged -/

namespace Newton

def exchange : Matrix (Fin 2) (Fin 2) ℝ := !![0, 1; 1, 0]

theorem exchange_orthogonal : exchange ∈ Matrix.orthogonalGroup (Fin 2) ℝ := by
  rw [Matrix.mem_orthogonalGroup_iff]
  ext i j
  fin_cases i
  all_goals
    fin_cases j
    all_goals simp [exchange, Matrix.mul_apply, Fin.sum_univ_two]

noncomputable def pairResidual : Residual (Vector ℝ 2) Extended Unit :=
  Residual.whole fun v => pure #v[v[0] * v[0] - v[1], v[0] - 1]

noncomputable def pairMethod : Method (Vector ℝ 2) ℝ Extended Unit where
  accepts _ := false
  maxiter := .ok 5
  reach := .upTo 1
  halfWidth := .ok 1
  solver := Gmres.solve ⟨.ok 0, .ok 2, 4, .ok 0⟩ LeastSquares.exact
  search := LineSearch.run ⟨.grid, .ok 4⟩
  checkFinite := true

def pairSession : Session (Vector ℝ 2) ℝ Extended Unit where
  store := ({} : Store (Vector ℝ 2)).push "x" #v[1, 5]
  outside := ()

theorem solve_exchanged :
    solve (meanSquareProblem (pairResidual.turned exchange) fun y => .number y) pairMethod none ⟨0⟩ none
        (pairSession.map (turned exchange)) =
      seenThrough (Session.map (turned exchange))
        (solve (meanSquareProblem pairResidual fun y => .number y) pairMethod none ⟨0⟩ none
          pairSession) :=
  (solve_turned exchange_orthogonal pairResidual (fun y => .number y) (M := pairMethod) rfl
    (fun _ => LineSearch.run_eq_inquiry (S := ℝ) (R := Extended) ⟨.grid, .ok 4⟩) none ⟨0⟩ none
    pairSession).1

end Newton

end NewtonKrylov
