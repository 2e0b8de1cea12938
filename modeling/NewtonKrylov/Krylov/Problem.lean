import NewtonKrylov.Session

/-!
# Linear problems and their solvers

A linear problem is an operator, a right-hand side and an unknown, all by reference, with the
backend to work on and the way to get work vectors. A Krylov solver overwrites the unknown. The
operator may do anything to the session; what it must leave alone is said where it matters.
-/

namespace NewtonKrylov

structure LinearProblem (V S R σ : Type) where
  backend : Backend S V
  /-- A work vector by name: a fresh one, or one that a run keeps. -/
  new : String → Run V S R σ Ref
  operator : (result v : Ref) → Run V S R σ Unit
  rhs : Ref
  unknown : Ref

abbrev KrylovSolver (V S R σ : Type) := LinearProblem V S R σ → Run V S R σ Unit

namespace LinearProblem

variable {V S R σ : Type} [Inhabited V] [Scalar S]

def keepingBuffers (p : LinearProblem V S R σ) : LinearProblem V S R σ :=
  { p with new := Run.keptAs p.backend.new }

def lengthAt (p : LinearProblem V S R σ) (a : Ref) : Run V S R σ S := do
  let d ← p.backend.dotAt a a
  pure (Scalar.sqrt (Scalar.nonneg d))

end LinearProblem

end NewtonKrylov
