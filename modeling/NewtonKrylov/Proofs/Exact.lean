import Mathlib.Analysis.InnerProductSpace.PiL2
import NewtonKrylov.Krylov.LeastSquares
import NewtonKrylov.Proofs.Frame

/-!
# Exact arithmetic

The solvers over the real numbers. A backend is exact (`Backend.Exact`) when its vectors are those of
an inner product space and its operations the ones of that space; the backend of real entries is one,
for Euclidean space of any dimension (`Component.plain_exact`). There is a least-squares solver that
leaves the least residual (`LeastSquares.exact`).
-/

namespace NewtonKrylov

open scoped InnerProductSpace

noncomputable instance : Scalar ℝ where
  ofNat n := n
  sqrt := Real.sqrt
  lt a b := decide (a < b)
  le a b := decide (a ≤ b)
  isZero a := decide (a = 0)
  isFinite _ := true

namespace Scalar

variable (a b : ℝ)

@[simp] theorem ofNat_real (n : Nat) : (Scalar.ofNat n : ℝ) = n := rfl

@[simp] theorem sqrt_real : Scalar.sqrt a = √a := rfl

@[simp] theorem lt_real : Scalar.lt a b = true ↔ a < b := decide_eq_true_iff

@[simp] theorem le_real : Scalar.le a b = true ↔ a ≤ b := decide_eq_true_iff

@[simp] theorem isZero_real : Scalar.isZero a = true ↔ a = 0 := decide_eq_true_iff

@[simp] theorem isFinite_real : Scalar.isFinite a = true := rfl

theorem nonneg_real (h : 0 ≤ a) : Scalar.nonneg a = a := by
  unfold nonneg
  rw [if_neg]
  simpa using h

end Scalar

/-! ## Least squares -/

namespace LeastSquares

theorem sum_real {n : Nat} (f : Fin n → ℝ) : LeastSquares.sum f = ∑ i, f i := by
  rw [LeastSquares.sum, ← List.sum_ofFn, List.sum_eq_foldl]
  simp

variable {k : Nat} (H : Fin (k + 1) → Fin k → ℝ) (g : Fin (k + 1) → ℝ)

theorem residual_real (y : Vector ℝ k) :
    LeastSquares.residual H g y = √(∑ i, (∑ j, H i j * y.get j - g i) ^ 2) := by
  simp only [residual, sum_real, Scalar.sqrt_real]
  congr 1
  apply Finset.sum_congr rfl
  intro i _
  exact (sq _).symm

/-- What a matrix makes of coefficients, as a point of Euclidean space. -/
noncomputable def image : (Fin k → ℝ) →ₗ[ℝ] EuclideanSpace ℝ (Fin (k + 1)) :=
  (WithLp.linearEquiv 2 ℝ (Fin (k + 1) → ℝ)).symm.toLinearMap ∘ₗ (Matrix.of H).mulVecLin

theorem residual_eq_norm (y : Vector ℝ k) :
    LeastSquares.residual H g y = ‖image H y.get - WithLp.toLp 2 g‖ := by
  rw [residual_real, EuclideanSpace.norm_eq]
  congr 1
  apply Finset.sum_congr rfl
  intro i _
  rw [Real.norm_eq_abs, sq_abs]
  rfl

/-- The solver leaves the least residual. -/
def Minimises (lsq : LeastSquares ℝ) : Prop :=
  ∀ k H g y, LeastSquares.residual H g (lsq k H g) ≤ LeastSquares.residual H g y

/-- The projection to the range of the matrix comes from coefficients with the least residual. -/
theorem exists_minimiser : ∃ y : Vector ℝ k, ∀ z,
    LeastSquares.residual H g y ≤ LeastSquares.residual H g z := by
  let U := LinearMap.range (image H)
  obtain ⟨y, hy⟩ : U.starProjection (WithLp.toLp 2 g) ∈ U := Submodule.coe_mem _
  refine ⟨Vector.ofFn y, fun z => ?_⟩
  have hget : (Vector.ofFn y).get = y := by
    funext i
    simp [Vector.get]
    rfl
  have hbelow : BddBelow (Set.range fun u : U =>
      ‖WithLp.toLp 2 g - (u : EuclideanSpace ℝ (Fin (k + 1)))‖) := by
    refine ⟨0, ?_⟩
    rintro _ ⟨u, rfl⟩
    exact norm_nonneg _
  rw [residual_eq_norm, residual_eq_norm, hget, hy, norm_sub_rev, U.starProjection_minimal,
    norm_sub_rev]
  exact ciInf_le hbelow ⟨image H z.get, z.get, rfl⟩

/-- A least-squares solver that leaves the least residual. -/
noncomputable def exact : LeastSquares ℝ := fun _ H g => (exists_minimiser H g).choose

theorem exact_minimises : exact.Minimises := fun _ H g => (exists_minimiser H g).choose_spec

end LeastSquares

/-! ## Vectors -/

section Exact

variable {V E : Type} [NormedAddCommGroup E] [InnerProductSpace ℝ E]

/-- The operations of a backend are those of an inner product space, `e` being the vector that a
content stands for. -/
structure Backend.Exact (K : Backend ℝ V) (e : V → E) : Prop where
  dot_eq : ∀ u v, K.dot u v = ⟪e u, e v⟫_ℝ
  addScaled_eq : ∀ u v c, e (K.addScaled u v c) = e u + c • e v
  addScaledWide_eq : ∀ u v c, e (K.addScaledWide u v c) = e u + c • e v
  scale_eq : ∀ u c, e (K.scale u c) = c • e u

theorem Backend.Exact.length_eq {K : Backend ℝ V} {e : V → E} (h : K.Exact e) (v : V) :
    K.length v = ‖e v‖ := by
  rw [Backend.length, h.dot_eq, real_inner_self_eq_norm_sq, Scalar.nonneg_real _ (sq_nonneg _),
    Scalar.sqrt_real, Real.sqrt_sq (norm_nonneg _)]

end Exact

/-- The point of Euclidean space with the given entries. -/
def point {n : Nat} (v : Vector ℝ n) : EuclideanSpace ℝ (Fin n) := WithLp.toLp 2 fun i => v[i]

theorem point_injective {n : Nat} : Function.Injective (point (n := n)) := by
  intro u v h
  ext i hi
  exact congrFun (congrArg WithLp.ofLp h) ⟨i, hi⟩

theorem point_ofFn {n : Nat} (u : EuclideanSpace ℝ (Fin n)) : point (Vector.ofFn u.ofLp) = u := by
  ext i
  simp [point]

theorem foldl_add_real {n : Nat} (v : Vector ℝ n) :
    v.foldl (· + ·) 0 = ∑ i : Fin n, v[i] := by
  have hentries : Vector.ofFn (fun i : Fin n => v[i]) = v := Vector.ofFn_getElem
  calc v.foldl (· + ·) 0 = (Vector.ofFn fun i : Fin n => v[i]).foldl (· + ·) 0 := by rw [hentries]
    _ = ∑ i : Fin n, v[i] := by
      rw [← Vector.foldl_toList, Vector.toList_ofFn, ← List.sum_eq_foldl, List.sum_ofFn]

theorem Component.plain_exact (n : Nat) :
    ((Component.plain ℝ).backend n).Exact (point (n := n)) where
  dot_eq := by
    intro u v
    have hdot : ((Component.plain ℝ).backend n).dot u v =
        (u.zipWith (fun a b : ℝ => a * b) v).foldl (fun a b : ℝ => a + b) 0 :=
      congrArg ((u.zipWith (fun a b : ℝ => a * b) v).foldl (fun a b : ℝ => a + b)) Nat.cast_zero
    rw [hdot, foldl_add_real, PiLp.inner_apply]
    apply Finset.sum_congr rfl
    intro i _
    simp [point, mul_comm]
  addScaled_eq := by
    intro u v c
    ext i
    simp [point, Component.backend, Component.plain]
  addScaledWide_eq := by
    intro u v c
    ext i
    simp [point, Component.backend, Component.plain]
  scale_eq := by
    intro u c
    ext i
    simp [point, Component.backend, Component.plain, mul_comm]

theorem point_default {n : Nat} : point (default : Vector ℝ n) = 0 := by
  ext i
  simp [point, default]

theorem point_zero {n : Nat} : point (((Component.plain ℝ).backend n).zero ()) = 0 := by
  ext i
  simp [point, Component.backend, Component.plain]

end NewtonKrylov
