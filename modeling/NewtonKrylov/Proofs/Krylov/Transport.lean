import NewtonKrylov.Proofs.Krylov.Passage
import NewtonKrylov.Proofs.Transport

/-!
# GMRES on transformed vectors

`Gmres.solve_transports`: if the vectors of a linear problem are transformed by a symmetry of its backend,
and its operator and its work vectors are transported, then so is a call of GMRES. All that is decided
in a call, the coefficients of the least-squares problem among it, depends on dot products alone.
-/

namespace NewtonKrylov

variable {V S R σ : Type} [Inhabited V] {h : V → V}

open Run.Passage (action Transports)

/-- The same problem with other work vectors and another operator. -/
def LinearProblem.offering (p : LinearProblem V S R σ) (new : String → Run V S R σ Ref)
    (operator : (result v : Ref) → Run V S R σ Unit) : LinearProblem V S R σ :=
  { p with new := new, operator := operator }

variable {p : LinearProblem V S R σ} {new : String → Run V S R σ Ref}
variable {operator : (result v : Ref) → Run V S R σ Unit}

/-- The work vectors and the operator are transported, by a symmetry of the backend. -/
structure LinearProblem.Passages.Transports (h : V → V) (t : p.Passages)
    (t' : (p.offering new operator).Passages) : Prop where
  symmetry : p.backend.Symmetry h
  new : ∀ name, (t.new name).Transports h (t'.new name)
  operator : ∀ result v, (t.operator result v).Transports h (t'.operator result v)

namespace Gmres

variable [Scalar S] (g : Gmres S R) (lsq : LeastSquares S)
variable {t : p.Passages} {t' : (p.offering new operator).Passages} (ht : t.Transports h t')
include ht

theorem orthogonalise_transports (w : Ref) (vs : List Ref) :
    Transports h (orthogonalisePassage p w vs)
      (orthogonalisePassage (p.offering new operator) w vs) := by
  induction vs with
  | nil => exact .pure []
  | cons v vs ih =>
    refine .bind (ht.symmetry.dotAt w v) fun c => ?_
    refine .bind (ht.symmetry.addScaledWideInto w w v (-c)) fun _ => ?_
    exact .bind ih fun cs => .pure (c :: cs)

omit [Scalar S] in
theorem combine_transports (vs : List Ref) (ys : List S) :
    Transports h (combinePassage p vs ys) (combinePassage (p.offering new operator) vs ys) := by
  induction vs generalizing ys with
  | nil => exact .pure ()
  | cons v vs ih =>
    cases ys with
    | nil => exact .pure ()
    | cons y ys => exact .bind (ht.symmetry.addScaledInto _ _ v y) fun _ => ih ys

theorem lengthAt_transports (a : Ref) :
    Transports h (action (p.lengthAt a)) (action ((p.offering new operator).lengthAt a)) :=
  ht.symmetry.lengthAt rfl rfl a

theorem step_transports (w : Ref) (beta target : S) (v : Ref) (c : Cycle Ref S) :
    Transports h (stepPassage g lsq t w beta target v c) (stepPassage g lsq t' w beta target v c) := by
  refine .bind (ht.operator w v) fun _ => ?_
  refine .bind (lengthAt_transports ht w) fun before => ?_
  refine .bind (orthogonalise_transports ht w c.basis) fun projections => ?_
  refine .bind (lengthAt_transports ht w) fun l => ?_
  refine .ite (.pure _) (.bind (.demand g.breakdownTol) fun fraction => ?_)
  refine .ite (.pure _) (.bind (ht.new _) fun next => ?_)
  refine .bind (.reciprocal l) fun d => ?_
  exact .bind (ht.symmetry.scaleInto next w d) fun _ => .pure _

theorem steps_transports (w : Ref) (beta target : S) (count : Nat) (v : Ref) (c : Cycle Ref S) :
    Transports h (stepsPassage g lsq t w beta target count v c)
      (stepsPassage g lsq t' w beta target count v c) := by
  induction count generalizing v c with
  | zero => exact .pure c
  | succ count ih =>
    refine .ite (.bind (step_transports g lsq ht w beta target v c) fun after => ?_) (.pure c)
    obtain ⟨c', _ | next⟩ := after
    · exact .pure c'
    · exact ih next c'

theorem residualInto_transports (r : Ref) :
    Transports h (residualPassage t r) (residualPassage t' r) :=
  .bind (ht.operator r p.unknown) fun _ => ht.symmetry.addScaledInto r p.rhs r _

theorem cycle_transports (r w : Ref) (beta target : S) (spent : Nat) :
    Transports h (cyclePassage g lsq t r w beta target spent)
      (cyclePassage g lsq t' r w beta target spent) := by
  refine .bind (ht.new _) fun v => .bind (.reciprocal beta) fun d => ?_
  refine .bind (ht.symmetry.scaleInto v r d) fun _ => ?_
  exact .bind (.demand g.restart) fun count => steps_transports g lsq ht w beta target count v _

theorem cycles_transports (r w : Ref) (target : S) (fuel spent begun : Nat) :
    Transports h (cyclesPassage g lsq t r w target fuel spent begun)
      (cyclesPassage g lsq t' r w target fuel spent begun) := by
  induction fuel generalizing spent begun with
  | zero => exact .pure _
  | succ fuel ih =>
    refine .ite (.bind (residualInto_transports ht r) fun _ => ?_) (.pure _)
    refine .bind (lengthAt_transports ht r) fun beta => .ite (.pure _) (.ite (.pure _) ?_)
    refine .bind (cycle_transports g lsq ht r w beta target spent) fun c => .ite (.pure _) ?_
    refine .bind (combine_transports ht c.basis c.coefficients) fun _ => ?_
    exact .ite (.pure _) (.ite (.pure _) (ih c.spent (begun + 1)))

theorem solve_transports : Transports h (solvePassage g lsq t) (solvePassage g lsq t') := by
  refine .bind (.bind (ht.new _) fun r => .bind (ht.new _) fun w => ?_) fun _ => .pure ()
  refine .bind (lengthAt_transports ht p.rhs) fun l => .ite ?_ ?_
  · exact .bind (ht.symmetry.scaleInto p.unknown p.unknown _) fun _ => .pure _
  · exact .bind (.demand g.tol) fun tol => cycles_transports g lsq ht r w _ _ 0 0

end Gmres

end NewtonKrylov
