import Mathlib.Algebra.MvPolynomial.PDeriv
import Mathlib.Algebra.Polynomial.Expand
import NewtonKrylov.Proofs.Newton.Affine

/-!
# Central differences of polynomial residuals

On the line through `x` along `v` a polynomial residual has components that are polynomials of one
variable, whose first coefficients are the product of the Jacobian with `v`. Between `e` and `-e` the
even powers cancel, so a central difference of half-width `e` is that product and `e ^ 2` times a
polynomial of `e ^ 2` (`derivative_expansion`). There is no such rest up to degree two; up to degree one
the product does not depend on `x` either.

Besides computing the polynomials, the residual may do anything to the state of the collaborators.
-/

namespace NewtonKrylov

open Polynomial
open Gmres (applied)

/-! ## Polynomials of one variable -/

/-- What the odd powers from the third on amount to, in the square of the variable. -/
noncomputable def oddRest (q : ℝ[X]) : ℝ[X] := (q.divX.contract 2).divX

theorem eval_add_eval_neg (q : ℝ[X]) (e : ℝ) :
    q.eval e + q.eval (-e) = 2 * (q.contract 2).eval (e ^ 2) := by
  induction q using Polynomial.induction_on' with
  | add p q hp hq =>
    rw [contract_add two_ne_zero, eval_add, eval_add, eval_add, mul_add, ← hp, ← hq]
    ring
  | monomial n a =>
    obtain ⟨m, rfl | rfl⟩ := n.even_or_odd'
    · have h : (monomial (2 * m) a).contract 2 = monomial m a := by
        ext k
        simp [coeff_contract, coeff_monomial, mul_comm k]
      rw [h, eval_monomial, eval_monomial, eval_monomial, pow_mul, pow_mul, neg_sq]
      ring
    · have h : (monomial (2 * m + 1) a).contract 2 = 0 := by
        ext k
        rw [coeff_contract two_ne_zero, coeff_monomial, if_neg (by omega), coeff_zero]
      rw [h, eval_monomial, eval_monomial, eval_zero, pow_succ, pow_succ, pow_mul, pow_mul, neg_sq]
      ring

/-- Even powers cancel between the ends of an interval around zero. -/
theorem eval_sub_eval_neg (q : ℝ[X]) (e : ℝ) :
    q.eval e - q.eval (-e) = 2 * e * (q.coeff 1 + e ^ 2 * (oddRest q).eval (e ^ 2)) := by
  have hdivX : ∀ (p : ℝ[X]) y, p.eval y = p.divX.eval y * y + p.coeff 0 := by
    intro p y
    conv_lhs => rw [← divX_mul_X_add p]
    rw [eval_add, eval_mul, eval_X, eval_C]
  have hcoeff : (q.divX.contract 2).coeff 0 = q.coeff 1 := by
    rw [coeff_contract two_ne_zero, coeff_divX]
  calc q.eval e - q.eval (-e) = e * (q.divX.eval e + q.divX.eval (-e)) := by
        rw [hdivX q e, hdivX q (-e)]
        ring
    _ = 2 * e * (q.divX.contract 2).eval (e ^ 2) := by
        rw [eval_add_eval_neg]
        ring
    _ = 2 * e * (q.coeff 1 + e ^ 2 * (oddRest q).eval (e ^ 2)) := by
        rw [hdivX (q.divX.contract 2), hcoeff, oddRest]
        ring

theorem oddRest_eq_zero {q : ℝ[X]} (h : q.natDegree ≤ 2) : oddRest q = 0 := by
  ext k
  rw [oddRest, coeff_divX, coeff_contract two_ne_zero, coeff_divX, coeff_zero]
  exact coeff_eq_zero_of_natDegree_lt (by omega)

/-! ## Polynomials on a line -/

section Line

variable {d : Nat} (p : MvPolynomial (Fin d) ℝ) (x v : Vector ℝ d)

/-- A polynomial on the line through `x` along `v`. -/
noncomputable def along : ℝ[X] := MvPolynomial.aeval (fun j => C (x.get j) + C (v.get j) * X) p

theorem eval_along (t : ℝ) :
    (along p x v).eval t = MvPolynomial.eval (fun j => x.get j + v.get j * t) p := by
  induction p using MvPolynomial.induction_on with
  | C a => simp [along]
  | add p q hp hq => simp_all [along]
  | mul_X p j hp => simp_all [along]

theorem coeff_zero_along :
    (along p x v).coeff 0 = MvPolynomial.eval x.get p := by
  rw [coeff_zero_eq_eval_zero, eval_along]
  simp

/-- The first coefficient is the derivative along `v`. -/
theorem coeff_one_along : (along p x v).coeff 1 =
    ∑ j, MvPolynomial.eval x.get (MvPolynomial.pderiv j p) * v.get j := by
  induction p using MvPolynomial.induction_on with
  | C a => simp [along]
  | add p q hp hq => simp_all [along, add_mul, Finset.sum_add_distrib]
  | mul_X p j hp =>
    have hline : along (p * MvPolynomial.X j) x v =
        along p x v * C (x.get j) + along p x v * C (v.get j) * X := by
      simp [along]
      ring
    have hown : ∑ i, MvPolynomial.eval x.get (MvPolynomial.pderiv i (MvPolynomial.X j)) *
        v.get i = v.get j := by
      rw [Finset.sum_eq_single j]
      · simp
      · intro i _ hi
        simp [MvPolynomial.pderiv_X_of_ne hi.symm]
      · simp
    rw [hline, coeff_add, coeff_mul_C, coeff_mul_X, coeff_mul_C, hp, coeff_zero_along, ← hown,
      Finset.sum_mul, Finset.mul_sum, ← Finset.sum_add_distrib]
    refine Finset.sum_congr rfl fun i _ => ?_
    rw [MvPolynomial.pderiv_mul, map_add, map_mul, map_mul, MvPolynomial.eval_X]
    ring

theorem natDegree_along_le : (along p x v).natDegree ≤ p.totalDegree := by
  rw [← mul_one p.totalDegree]
  refine MvPolynomial.aeval_natDegree_le p le_rfl _ fun j => ?_
  compute_degree

theorem eval_pderiv_of_totalDegree_le {p : MvPolynomial (Fin d) ℝ} (h : p.totalDegree ≤ 1)
    (j : Fin d) (u : Fin d → ℝ) : MvPolynomial.eval u (MvPolynomial.pderiv j p) =
      MvPolynomial.coeff (Finsupp.single j 1) p := by
  have hconstant : MvPolynomial.pderiv j p =
      MvPolynomial.C (MvPolynomial.coeff (Finsupp.single j 1) p) := by
    ext m
    rw [MvPolynomial.coeff_pderiv, MvPolynomial.coeff_C]
    by_cases hm : m = 0
    · simp [hm]
    · have hdegree : 1 < (m + Finsupp.single j 1).degree := by
        have hpos : m.degree ≠ 0 := (Finsupp.degree_eq_zero_iff m).not.mpr hm
        rw [map_add, Finsupp.degree_single]
        omega
      rw [if_neg (Ne.symm hm),
        MvPolynomial.coeff_eq_zero_of_totalDegree_lt (h.trans_lt hdegree), zero_mul]
  rw [hconstant, MvPolynomial.eval_C]

end Line

/-! ## Polynomial residuals -/

/-- As many polynomials as there are unknowns. -/
abbrev PolynomialMap (d : Nat) := Fin d → MvPolynomial (Fin d) ℝ

namespace PolynomialMap

variable {R σ : Type} {d : Nat} (P : PolynomialMap d) (x v : Vector ℝ d)

noncomputable def value : Vector ℝ d :=
  Vector.ofFn fun i => MvPolynomial.eval x.get (P i)

/-- The partial derivatives at `x`. -/
noncomputable def jacobian : Matrix (Fin d) (Fin d) ℝ :=
  Matrix.of fun i j => MvPolynomial.eval x.get (MvPolynomial.pderiv j (P i))

/-- What a central difference at `x` along `v` makes of the powers from the third on. -/
noncomputable def rest (i : Fin d) : ℝ[X] := oddRest (along (P i) x v)

/-- A residual function takes the values of the polynomials, whatever else it does. -/
def TakenBy (f : Vector ℝ d → Collab R σ (Vector ℝ d)) : Prop :=
  ∀ y o, ∃ o', f y o = .ok (P.value y) o'

theorem applied_jacobian (i : Fin d) :
    (applied (P.jacobian x).toEuclideanLin v).get i = (along (P i) x v).coeff 1 := by
  have hentry : (applied (P.jacobian x).toEuclideanLin v).get i = (P.jacobian x).mulVec v.get i :=
    Vector.getElem_ofFn i.2
  rw [coeff_one_along, hentry]
  rfl

theorem value_addScaled (e : ℝ) (i : Fin d) :
    (P.value (((Component.plain ℝ).backend d).addScaled x v e)).get i = (along (P i) x v).eval e := by
  have hentry : (((Component.plain ℝ).backend d).addScaled x v e).get =
      fun j => x.get j + v.get j * e := by
    funext j
    rw [mul_comm]
    exact Vector.getElem_zipWith j.2
  rw [eval_along, ← hentry]
  exact Vector.getElem_ofFn i.2

theorem difference_eq {e : ℝ} (he : e ≠ 0) (i : Fin d) :
    (((Component.plain ℝ).backend d).scale
      (((Component.plain ℝ).backend d).addScaled
        (P.value (((Component.plain ℝ).backend d).addScaled x v e))
        (P.value (((Component.plain ℝ).backend d).addScaled x v (-e))) (-Scalar.ofNat 1))
      (1 / (2 * e))).get i =
      (applied (P.jacobian x).toEuclideanLin v).get i + e ^ 2 * (P.rest x v i).eval (e ^ 2) := by
  have hentry : ∀ (a b : Vector ℝ d) (c : ℝ), (((Component.plain ℝ).backend d).scale
      (((Component.plain ℝ).backend d).addScaled a b (-Scalar.ofNat 1)) c).get i =
        (a.get i - b.get i) * c := by
    intro a b c
    have hminus : -Scalar.ofNat 1 = (-1 : ℝ) := by simp
    show (((a.zipWith (fun x y => x + -Scalar.ofNat 1 * y) b).map fun x => x * c))[i.val] = _
    rw [Vector.getElem_map, Vector.getElem_zipWith, hminus, neg_one_mul, ← sub_eq_add_neg]
    rfl
  rw [hentry, value_addScaled, value_addScaled, eval_sub_eval_neg, applied_jacobian, rest]
  field_simp

theorem centralDifference_run {f : Vector ℝ d → Collab R σ (Vector ℝ d)} (hf : P.TakenBy f) {e : ℝ}
    (he : e ≠ 0) (o : σ) :
    ∃ y o', centralDifference ((Component.plain ℝ).backend d) f x e v o = .ok y o' ∧
      ∀ i, y.get i =
        (applied (P.jacobian x).toEuclideanLin v).get i + e ^ 2 * (P.rest x v i).eval (e ^ 2) := by
  obtain ⟨o₁, hahead⟩ := hf (((Component.plain ℝ).backend d).addScaled x v e) o
  obtain ⟨o₂, hbehind⟩ := hf (((Component.plain ℝ).backend d).addScaled x v (-e)) o₁
  have hreciprocal : Scalar.reciprocal (R := R) (Scalar.ofNat 2 * e) = .ok (1 / (2 * e)) :=
    Scalar.reciprocal_real (mul_ne_zero two_ne_zero he)
  refine ⟨_, o₂, ?_, P.difference_eq x v he⟩
  unfold centralDifference
  rw [bind_run_ok hahead, bind_run_ok hbehind, hreciprocal]
  rfl

variable {x v}

theorem rest_eq_zero (h : ∀ i, (P i).totalDegree ≤ 2) : P.rest x v = 0 := by
  funext i
  exact oddRest_eq_zero ((natDegree_along_le (P i) x v).trans (h i))

theorem jacobian_eq (h : ∀ i, (P i).totalDegree ≤ 1) (y : Vector ℝ d) :
    P.jacobian x = P.jacobian y := by
  unfold jacobian
  simp only [eval_pderiv_of_totalDegree_le (h _)]

end PolynomialMap

/-! ## The product -/

open PolynomialMap

variable {R σ : Type} {d : Nat} {w : Scratch} {x result v : Ref} {s : Session (Vector ℝ d) ℝ R σ}

/-- The product of half-width `e` is that of the Jacobian and `e ^ 2` times a polynomial of `e ^ 2` which
depends on the point and the vector only. Up to degree two it is that of the Jacobian, and up to degree
one that of the same matrix at all points. -/
theorem derivative_expansion (P : PolynomialMap d) {f : Vector ℝ d → Collab R σ (Vector ℝ d)}
    (hf : P.TakenBy f) (h : w.Beside x s) (hresult : s.store.Valid result) (hv : v ∉ w.trial) {e : ℝ}
    (he : 0 < e) :
    ∃ s', (Residual.whole f).derivative ((Component.plain ℝ).backend d) w x e result v s = .ok () s' ∧
      (∀ i, (s'.store.read result).get i =
        (applied (P.jacobian (s.store.read x)).toEuclideanLin (s.store.read v)).get i +
          e ^ 2 * (P.rest (s.store.read x) (s.store.read v) i).eval (e ^ 2)) ∧
      ((∀ i, (P i).totalDegree ≤ 2) →
        s'.store.read result = applied (P.jacobian (s.store.read x)).toEuclideanLin (s.store.read v)) ∧
      ((∀ i, (P i).totalDegree ≤ 1) → ∀ y,
        s'.store.read result = applied (P.jacobian y).toEuclideanLin (s.store.read v)) := by
  obtain ⟨y, o, hdifference, hentries⟩ :=
    P.centralDifference_run (s.store.read x) (s.store.read v) hf he.ne' s.outside
  obtain ⟨_, s', hrun, hread, -⟩ := (Newton.derivative_follows f h ((Component.plain ℝ).backend d) e
    hresult hv).exists_ok hdifference
  have hquadratic : (∀ i, (P i).totalDegree ≤ 2) →
      y = applied (P.jacobian (s.store.read x)).toEuclideanLin (s.store.read v) := by
    intro hdegree
    ext i hi
    have hentry := hentries ⟨i, hi⟩
    rw [P.rest_eq_zero hdegree, Pi.zero_apply, eval_zero, mul_zero, add_zero] at hentry
    exact hentry
  refine ⟨s', hrun, hread ▸ hentries, hread ▸ hquadratic, fun hdegree y' => ?_⟩
  have hsame : P.jacobian (s.store.read x) = P.jacobian y' := P.jacobian_eq hdegree y'
  rw [hread, ← hsame]
  exact hquadratic fun i => (hdegree i).trans one_le_two

/-- The cube of one unknown. -/
noncomputable def cube : PolynomialMap 1 := fun _ => MvPolynomial.X 0 ^ 3

/-- Takes the cube and counts how often it is taken. -/
noncomputable def countedCube (y : Vector ℝ 1) : Collab R Nat (Vector ℝ 1) :=
  fun n => .ok (cube.value y) (n + 1)

/-- A point, a vector and the scratch vectors of a run. -/
def lineSession (u v : Vector ℝ 1) : Session (Vector ℝ 1) ℝ R Nat where
  store := ["f_of_x", "x_plus_dx", "x_minus_dx", "f_of_x_plus_dx", "f_of_x_minus_dx"].foldl
    (fun store name => store.push name default) ((({} : Store (Vector ℝ 1)).push "x" u).push "v" v)
  outside := 0

/-- The product at two with three, which it replaces. -/
theorem derivative_expansion_cube :
    ∃ s', (Residual.whole countedCube).derivative ((Component.plain ℝ).backend 1)
        ⟨⟨2⟩, ⟨3⟩, ⟨4⟩, ⟨5⟩, ⟨6⟩⟩ ⟨0⟩ 1 ⟨1⟩ ⟨1⟩ (lineSession (R := Unit) #v[2] #v[3]) = .ok () s' ∧
      (∀ i, (s'.store.read ⟨1⟩).get i = (applied (cube.jacobian #v[2]).toEuclideanLin #v[3]).get i +
        1 ^ 2 * (cube.rest #v[2] #v[3] i).eval (1 ^ 2)) ∧
      ((∀ i, (cube i).totalDegree ≤ 2) →
        s'.store.read ⟨1⟩ = applied (cube.jacobian #v[2]).toEuclideanLin #v[3]) ∧
      ((∀ i, (cube i).totalDegree ≤ 1) → ∀ y,
        s'.store.read ⟨1⟩ = applied (cube.jacobian y).toEuclideanLin #v[3]) := by
  have hvalid : ∀ r : Ref, r.index < 7 →
      (lineSession (R := Unit) #v[2] #v[3]).store.Valid r := fun _ hr => hr
  have hbeside : Scratch.Beside ⟨⟨2⟩, ⟨3⟩, ⟨4⟩, ⟨5⟩, ⟨6⟩⟩ ⟨0⟩ (lineSession (R := Unit) #v[2] #v[3]) := by
    refine ⟨by decide, ?_⟩
    rintro r (rfl | rfl | rfl | rfl)
    all_goals exact hvalid _ (by decide)
  exact derivative_expansion cube (fun y n => ⟨n + 1, rfl⟩) hbeside (hvalid ⟨1⟩ (by decide))
    (by simp [Scratch.trial]) one_pos

end NewtonKrylov
