import NewtonKrylov.Precision

/-!
# Scalars and magnitudes

Every solver here is written once, over a scalar type `S` for the entries of vectors and the step
scales, and a magnitude type `R` for residual norms. Only the order of the operations is fixed: no
law is assumed, so binary64 is an instance and so is any ordered field. Magnitudes have a type of
their own because a residual norm may be infinite or not a number where every scalar is finite.
-/

namespace NewtonKrylov

/-- The arithmetic of vector entries and step scales. -/
class Scalar (S : Type) extends Add S, Sub S, Mul S, Div S, Neg S where
  ofNat : Nat → S
  sqrt : S → S
  lt : S → S → Bool
  le : S → S → Bool
  isZero : S → Bool
  isFinite : S → Bool

/-- The comparisons made on residual norms. -/
class Magnitude (R : Type) where
  lt : R → R → Bool
  le : R → R → Bool
  isFinite : R → Bool
  infinity : R

namespace Scalar

variable {S : Type} [Scalar S]

/-- Negative numbers are raised to zero; what does not compare stays as it is. -/
def nonneg (x : S) : S := if lt x (ofNat 0) then ofNat 0 else x

end Scalar

instance : Scalar Float where
  ofNat := Float.ofNat
  sqrt := Float.sqrt
  lt a b := a < b
  le a b := a ≤ b
  isZero x := x == 0.0
  isFinite := Float.isFinite

instance : Scalar Float32 where
  ofNat n := Precision.narrow (Float.ofNat n)
  sqrt := Float32.sqrt
  lt a b := a < b
  le a b := a ≤ b
  isZero x := x == 0.0
  isFinite := Float32.isFinite

instance : Magnitude Float where
  lt a b := a < b
  le a b := a ≤ b
  isFinite := Float.isFinite
  infinity := 1.0 / 0.0

end NewtonKrylov
