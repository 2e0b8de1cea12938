import NewtonKrylov.Proofs.Exact
import NewtonKrylov.Problems.Bratu

/-!
# The linear part of the Bratu problem

Over the real numbers the residual at `lam = 0` is linear, and the product of it with a point is a sum
over the steps between neighbouring points, the two ends included (`Bratu.dot_stiffness`): a summation
by parts, with no boundary terms because everything is zero at the ends. So the linear part is symmetric
and positive definite (`Bratu.stiffness_posDef`). Central differences look the same from both ends, and
so does the residual (`Bratu.residual_reverse`).
-/

namespace NewtonKrylov.Bratu

variable {n : Nat}

/-! ## Padded values -/

section Padded

variable (u : Vector ℝ n)

theorem padded_first : padded u 0 = 0 := Nat.cast_zero

theorem padded_outside : padded u (n + 1) = 0 := by
  simp [padded]

theorem padded_inside (i : Fin n) : padded u (i + 1) = u.get i := by
  simp [padded, Vector.get]

theorem get_reverse (i : Fin n) : u.reverse.get i = u.get i.rev := by
  have hrev : n - 1 - i.val = i.rev.val := by
    rw [Fin.val_rev]
    omega
  show u.reverse[i.val] = u[i.rev.val]
  simp only [Vector.getElem_reverse, hrev]

theorem padded_reverse {j : Nat} (hj : j ≤ n + 1) : padded u.reverse j = padded u (n + 1 - j) := by
  rcases j with _ | k
  · rw [Nat.sub_zero, padded_outside, padded_first]
  rcases Nat.lt_or_ge k n with hk | hk
  · have hrev : n + 1 - (k + 1) = (Fin.rev ⟨k, hk⟩ : Fin n) + 1 := by
      show n + 1 - (k + 1) = n - (k + 1) + 1
      omega
    rw [hrev, padded_inside, padded_inside u.reverse ⟨k, hk⟩, get_reverse]
  · obtain rfl : k = n := by omega
    rw [Nat.sub_self, padded_outside, padded_first]

theorem secondDerivative_reverse (hh : ℝ) (i : Fin n) :
    secondDerivative hh u.reverse i = secondDerivative hh u i.rev := by
  rw [secondDerivative, secondDerivative, padded_reverse u (by omega), padded_reverse u (by omega),
    padded_reverse u (by omega), Fin.val_rev, show n + 1 - (i + 2) = n - (i + 1) by omega,
    show n + 1 - (i + 1) = n - (i + 1) + 1 by omega, show n + 1 - i.val = n - (i + 1) + 2 by omega]
  congr 1
  ring

theorem get_residual (exp : ℝ → ℝ) (hh lam : ℝ) (i : Fin n) :
    (residual exp hh lam u).get i = -secondDerivative hh u i - lam * exp (u.get i) := by
  show (residual exp hh lam u)[i.val] = _
  rw [residual, Vector.getElem_ofFn]

theorem residual_reverse (exp : ℝ → ℝ) (hh lam : ℝ) :
    residual exp hh lam u.reverse = (residual exp hh lam u).reverse := by
  have hget : ∀ i : Fin n,
      (residual exp hh lam u.reverse).get i = (residual exp hh lam u).reverse.get i := by
    intro i
    rw [get_residual, get_reverse, get_reverse, get_residual, secondDerivative_reverse]
  ext i hi
  exact hget ⟨i, hi⟩

end Padded

/-! ## Energy -/

theorem sum_by_parts (q d : ℕ → ℝ) (n : ℕ) :
    ∑ i ∈ Finset.range n, q (i + 1) * (d i - d (i + 1)) =
      ∑ i ∈ Finset.range n, (q (i + 1) - q i) * d i + q 0 * d 0 - q n * d n := by
  induction n with
  | zero => simp
  | succ n ih =>
    rw [Finset.sum_range_succ, ih, Finset.sum_range_succ]
    ring

theorem dot_real (u v : Vector ℝ n) :
    ((Component.plain ℝ).backend n).dot u v = ∑ i : Fin n, u.get i * v.get i := by
  rw [(Component.plain_exact n).dot_eq, PiLp.inner_apply]
  apply Finset.sum_congr rfl
  intro i _
  exact mul_comm _ _

theorem dot_comm (u v : Vector ℝ n) :
    ((Component.plain ℝ).backend n).dot u v = ((Component.plain ℝ).backend n).dot v u := by
  rw [dot_real, dot_real]
  simp only [mul_comm]

/-- The residual at `lam = 0`. -/
noncomputable def stiffness (u : Vector ℝ n) : Vector ℝ n := residual Real.exp (squaredWidth n) 0 u

theorem squaredWidth_real (n : ℕ) : (squaredWidth n : ℝ) = (1 / (n + 1)) ^ 2 := by
  have hone : ((n + 1 : ℕ) : ℝ) = n + 1 := Nat.cast_succ n
  simp [squaredWidth, sq]

theorem get_stiffness (u : Vector ℝ n) (i : Fin n) : (stiffness u).get i =
    1 / squaredWidth n * ((padded u (i + 1) - padded u i) - (padded u (i + 2) - padded u (i + 1))) := by
  rw [stiffness, get_residual, secondDerivative]
  simp only [Scalar.ofNat_real]
  push_cast
  ring

/-- The product of a point with the linear part at another one, as a sum over the steps between
neighbours. -/
theorem dot_stiffness (u v : Vector ℝ n) :
    ((Component.plain ℝ).backend n).dot v (stiffness u) =
      1 / squaredWidth n * ∑ i ∈ Finset.range (n + 1),
        (padded v (i + 1) - padded v i) * (padded u (i + 1) - padded u i) := by
  let d : ℕ → ℝ := fun i => padded u (i + 1) - padded u i
  have hparts := sum_by_parts (padded v) d n
  calc ((Component.plain ℝ).backend n).dot v (stiffness u)
      = ∑ i : Fin n, 1 / squaredWidth n * (padded v (i + 1) * (d i - d (i + 1))) := by
        rw [dot_real]
        apply Finset.sum_congr rfl
        intro i _
        rw [get_stiffness, ← padded_inside]
        exact mul_left_comm _ _ _
    _ = 1 / squaredWidth n * ∑ i ∈ Finset.range n, padded v (i + 1) * (d i - d (i + 1)) := by
        rw [← Finset.mul_sum, Finset.sum_range]
    _ = 1 / squaredWidth n * ∑ i ∈ Finset.range (n + 1), (padded v (i + 1) - padded v i) * d i := by
        rw [hparts, Finset.sum_range_succ, padded_first, padded_outside]
        ring

theorem eq_zero_of_sum_sq {u : Vector ℝ n}
    (h : ∑ i ∈ Finset.range (n + 1), (padded u (i + 1) - padded u i) ^ 2 = 0) :
    u = Vector.replicate n 0 := by
  have hstep : ∀ i ≤ n, padded u (i + 1) = padded u i := by
    intro i hi
    have hsq := (Finset.sum_eq_zero_iff_of_nonneg fun i _ => sq_nonneg _).mp h i
      (Finset.mem_range.mpr (Nat.lt_succ_of_le hi))
    exact sub_eq_zero.mp (pow_eq_zero_iff two_ne_zero |>.mp hsq)
  -- every value is the one at the first end
  have hpadded : ∀ i ≤ n, padded u i = 0 := by
    intro i hi
    induction i with
    | zero => exact padded_first u
    | succ i ih => rw [hstep i (by omega), ih (by omega)]
  ext i hi
  rw [Vector.getElem_replicate]
  exact (padded_inside u ⟨i, hi⟩).symm.trans (hpadded (i + 1) hi)

theorem stiffness_zero : stiffness (Vector.replicate n (0 : ℝ)) = Vector.replicate n 0 := by
  have hpadded : ∀ j, padded (Vector.replicate n (0 : ℝ)) j = 0 := by
    intro j
    cases j with
    | zero => exact padded_first _
    | succ j => by_cases hj : j < n <;> simp [padded, hj]
  ext i hi
  rw [Vector.getElem_replicate]
  refine (get_stiffness _ ⟨i, hi⟩).trans ?_
  rw [hpadded, hpadded, hpadded, sub_self, mul_zero]

/-- The linear part is symmetric and positive definite, its energy is the sum of the squared differences
of neighbouring values over the squared width, and the residual of a reversed point is the reversed
residual, whatever `lam` is. -/
theorem stiffness_posDef (n : ℕ) :
    (∀ u v : Vector ℝ n, ((Component.plain ℝ).backend n).dot v (stiffness u) =
      ((Component.plain ℝ).backend n).dot (stiffness v) u) ∧
    (∀ u : Vector ℝ n, ((Component.plain ℝ).backend n).dot u (stiffness u) =
      1 / (1 / (n + 1 : ℝ)) ^ 2 * ∑ i ∈ Finset.range (n + 1), (padded u (i + 1) - padded u i) ^ 2) ∧
    (∀ u : Vector ℝ n, padded u 0 = 0 ∧ padded u (n + 1) = 0) ∧
    (∀ u : Vector ℝ n, u ≠ Vector.replicate n 0 →
      0 < ((Component.plain ℝ).backend n).dot u (stiffness u)) ∧
    (∀ u : Vector ℝ n, stiffness u = Vector.replicate n 0 ↔ u = Vector.replicate n 0) ∧
    ∀ (lam : ℝ) (u : Vector ℝ n), residual Real.exp (squaredWidth n) lam u.reverse =
      (residual Real.exp (squaredWidth n) lam u).reverse := by
  have henergy : ∀ u : Vector ℝ n, ((Component.plain ℝ).backend n).dot u (stiffness u) =
      1 / (1 / (n + 1 : ℝ)) ^ 2 * ∑ i ∈ Finset.range (n + 1), (padded u (i + 1) - padded u i) ^ 2 := by
    intro u
    rw [dot_stiffness, squaredWidth_real]
    simp only [sq]
  have hsteep : (0 : ℝ) < 1 / (1 / (n + 1)) ^ 2 := by positivity
  have hpos : ∀ u : Vector ℝ n, u ≠ Vector.replicate n 0 →
      0 < ((Component.plain ℝ).backend n).dot u (stiffness u) := by
    intro u hu
    rw [henergy]
    refine mul_pos hsteep (lt_of_le_of_ne (Finset.sum_nonneg fun i _ => sq_nonneg _) ?_)
    exact fun h => hu (eq_zero_of_sum_sq h.symm)
  refine ⟨fun u v => ?_, henergy, fun u => ⟨padded_first u, padded_outside u⟩, hpos, fun u => ?_,
    fun lam u => residual_reverse u _ _ lam⟩
  · rw [dot_comm (stiffness v), dot_stiffness, dot_stiffness]
    simp only [mul_comm]
  · refine ⟨fun h => ?_, fun h => h ▸ stiffness_zero⟩
    by_contra hu
    have hdot := hpos u hu
    rw [h, dot_real] at hdot
    simp [Vector.get] at hdot

end NewtonKrylov.Bratu
