import NewtonKrylov.Session

/-!
# Jacobian products without the Jacobian

The product of the Jacobian at `x` with `v` is taken as the central difference
`(f (x + e v) - f (x - e v)) / (2 e)`. The trial points and their residuals are written to scratch
vectors that a run allocates once; the result may share its vector with `v`, because both trial
points are made before the result is written.
-/

namespace NewtonKrylov

/-- A residual function: from the old contents of the vector it writes to and the point, the
residual there. One that writes all of its vector ignores the old contents. -/
abbrev Residual (V R σ : Type) := (old x : V) → Collab R σ V

structure Scratch where
  residual : Ref
  ahead : Ref
  behind : Ref
  residualAhead : Ref
  residualBehind : Ref
deriving DecidableEq

variable {V S R σ : Type} [Inhabited V] [Scalar S]

def Scratch.allocate (K : Backend S V) : Run V S R σ Scratch := do
  let residual ← K.new "f_of_x"
  let ahead ← K.new "x_plus_dx"
  let behind ← K.new "x_minus_dx"
  let residualAhead ← K.new "f_of_x_plus_dx"
  let residualBehind ← K.new "f_of_x_minus_dx"
  pure ⟨residual, ahead, behind, residualAhead, residualBehind⟩

def Residual.into (f : Residual V R σ) (out x : Ref) : Run V S R σ Unit := do
  let old ← Run.contents out
  let point ← Run.contents x
  let y ← Run.consult (f old point)
  Run.overwrite out y

/-- Writes the central difference of `f` at `x` along `v`, with half-width `e`, into `result`. -/
def Residual.derivative (f : Residual V R σ) (K : Backend S V) (w : Scratch) (x : Ref) (e : S)
    (result v : Ref) : Run V S R σ Unit := do
  K.addScaledInto w.ahead x v e
  K.addScaledInto w.behind x v (-e)
  f.into w.residualAhead w.ahead
  f.into w.residualBehind w.behind
  K.addScaledInto result w.residualAhead w.residualBehind (-Scalar.ofNat 1)
  K.scaleInto result result (← Run.reciprocal (Scalar.ofNat 2 * e))

end NewtonKrylov
