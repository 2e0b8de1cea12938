import NewtonKrylov.Proofs.Krylov.Division
import NewtonKrylov.Proofs.Krylov.LeastNorm
import NewtonKrylov.Proofs.Krylov.Responses

/-!
# GMRES is homogeneous

Multiply the operator of a linear problem by a positive number, its unknown by any number but zero, and its
right-hand side by both (`Scaling`). In exact arithmetic a call then goes the same way. What it builds does
not scale alike (`Cycle.Scaled`): the basis is multiplied by the sign of the unknown's factor, the
Hessenberg matrix by the operator's factor, the coefficients by the size of the unknown's factor and the
residuals by the last two. So every comparison of the solver is one between two multiples by the same
positive number.

`Gmres.call_homogeneous`: both calls give the same account or fail for the same cause, they ask for the
operator equally often, and the unknown that is left is a multiple as before. The coefficients have to be
determined by the small problem, for which the shortest solution is taken (`LeastSquares.Shortest`).
-/

namespace NewtonKrylov

open scoped InnerProductSpace

variable {V E R σ τ : Type} [NormedAddCommGroup E] [InnerProductSpace ℝ E]

/-- The factors between two linear problems: that of the operator, and size and sign of that of the
unknown. -/
structure Scaling where
  factor : ℝ
  size : ℝ
  sign : ℝ
  factor_pos : 0 < factor
  size_pos : 0 < size
  sign_sq : sign * sign = 1

namespace Scaling

/-- The factor of the unknown. -/
def unknown (κ : Scaling) : ℝ := κ.size * κ.sign

/-- The factor of every residual norm. -/
def residual (κ : Scaling) : ℝ := κ.factor * κ.size

variable (κ : Scaling)

theorem residual_pos : 0 < κ.residual := mul_pos κ.factor_pos κ.size_pos

theorem sign_ne_zero : κ.sign ≠ 0 := left_ne_zero_of_mul_eq_one κ.sign_sq

theorem unknown_ne_zero : κ.unknown ≠ 0 := mul_ne_zero κ.size_pos.ne' κ.sign_ne_zero

theorem abs_sign : |κ.sign| = 1 := (abs_eq zero_le_one).mpr (mul_self_eq_one_iff.mp κ.sign_sq)

theorem abs_factor_sign : |κ.factor * κ.sign| = κ.factor := by
  rw [abs_mul, κ.abs_sign, mul_one, abs_of_pos κ.factor_pos]

theorem abs_factor_unknown : |κ.factor * κ.unknown| = κ.residual := by
  rw [unknown, ← mul_assoc, abs_mul, κ.abs_sign, mul_one, ← residual, abs_of_pos κ.residual_pos]

/-- The scaling with given factors of the operator and of the unknown. -/
noncomputable def between {factor unknown : ℝ} (hfactor : 0 < factor) (hunknown : unknown ≠ 0) :
    Scaling where
  factor := factor
  size := |unknown|
  sign := unknown / |unknown|
  factor_pos := hfactor
  size_pos := abs_pos.mpr hunknown
  sign_sq := by
    rw [div_mul_div_comm, abs_mul_abs_self, div_self (mul_self_ne_zero.mpr hunknown)]

theorem unknown_between {factor unknown : ℝ} (hfactor : 0 < factor) (hunknown : unknown ≠ 0) :
    (between hfactor hunknown).unknown = unknown :=
  mul_div_cancel₀ unknown (abs_pos.mpr hunknown).ne'

end Scaling

/-- The second content stands for `q` times the vector that the first one stands for. -/
def Multiple (e : V → E) (q : ℝ) (v v' : V) : Prop := e v' = q • e v

/-- The second unknown is the multiple of the first one, and the states of the collaborators are related. -/
def Unknown.Scaled (κ : Scaling) (e : V → E) (I : σ → τ → Prop) (u : Unknown V σ) (u' : Unknown V τ) :
    Prop :=
  Multiple e κ.unknown u.value u'.value ∧ I u.outside u'.outside

/-! ## Operations -/

section Operations

variable {K : Backend ℝ V} {e : V → E} (hK : K.Exact e) {q s c : ℝ} {u u' v v' : V}
include hK

theorem Multiple.length_eq (h : Multiple e q v v') : K.length v' = |q| * K.length v := by
  rw [hK.length_eq, hK.length_eq, h, norm_smul, Real.norm_eq_abs]

theorem Multiple.dot_eq (hu : Multiple e q u u') (hv : Multiple e s v v') :
    K.dot u' v' = q * s * K.dot u v := by
  rw [hK.dot_eq, hK.dot_eq, hu, hv, real_inner_smul_left, real_inner_smul_right, mul_assoc]

theorem Multiple.addScaled (hu : Multiple e q u u') (hv : Multiple e s v v') {a b : ℝ}
    (h : b * s = q * a) : Multiple e q (K.addScaled u v a) (K.addScaled u' v' b) := by
  rw [Multiple, hK.addScaled_eq, hK.addScaled_eq, hu, hv, smul_smul, h, smul_add, smul_smul]

theorem Multiple.addScaledWide (hu : Multiple e q u u') (hv : Multiple e s v v') {a b : ℝ}
    (h : b * s = q * a) : Multiple e q (K.addScaledWide u v a) (K.addScaledWide u' v' b) := by
  rw [Multiple, hK.addScaledWide_eq, hK.addScaledWide_eq, hu, hv, smul_smul, h, smul_add, smul_smul]

theorem Multiple.scale (hv : Multiple e q v v') {a b : ℝ} (h : b * q = s * a) :
    Multiple e s (K.scale v a) (K.scale v' b) := by
  rw [Multiple, hK.scale_eq, hK.scale_eq, hv, smul_smul, smul_smul, h]

namespace Gmres

theorem project_multiple (hs : s * s = 1) {vs vs' : List V}
    (hvs : List.Forall₂ (Multiple e s) vs vs') (hu : Multiple e q u u') :
    Multiple e q (project K u vs).1 (project K u' vs').1 ∧
      (project K u' vs').2 = (project K u vs).2.map (q * s * ·) := by
  induction hvs generalizing u u' with
  | nil => exact ⟨hu, rfl⟩
  | @cons v v' vs vs' hv _ ih =>
    have hdot := hu.dot_eq hK hv
    have hcancel : -K.dot u' v' * s = q * -K.dot u v := by
      rw [hdot]
      calc -(q * s * K.dot u v) * s = q * -K.dot u v * (s * s) := by ring
        _ = q * -K.dot u v := by rw [hs, mul_one]
    obtain ⟨hrest, hcoefficients⟩ := ih (hu.addScaledWide hK hv hcancel)
    exact ⟨hrest, List.cons_eq_cons.mpr ⟨hdot, hcoefficients⟩⟩

theorem combination_multiple {m : ℝ} {vs vs' : List V} (hvs : List.Forall₂ (Multiple e s) vs vs')
    {x x' : V} (hx : Multiple e (m * s) x x') (ys : List ℝ) :
    Multiple e (m * s) (combination K x vs ys) (combination K x' vs' (ys.map (m * ·))) := by
  induction hvs generalizing x x' ys with
  | nil => exact hx
  | cons hv _ ih =>
    cases ys with
    | nil => exact hx
    | cons y ys => exact ih (hx.addScaled hK hv (mul_right_comm m y s)) ys

end Gmres

end Operations

/-! ## Cycles -/

namespace Gmres

/-- What two cycles have built, the second one for the scaled problem. -/
structure Cycle.Scaled (κ : Scaling) (e : V → E) (c c' : Cycle V ℝ) : Prop where
  basis : List.Forall₂ (Multiple e κ.sign) c.basis c'.basis
  columns_eq : c'.columns = c.columns.map (Array.map (κ.factor * ·))
  coefficients_eq : c'.coefficients = c.coefficients.map (κ.size * ·)
  residual_eq : c'.residual = κ.residual * c.residual
  brokeDown_eq : c'.brokeDown = c.brokeDown
  spent_eq : c'.spent = c.spent

/-- The coefficients for given entries of the Hessenberg matrix, and the residual that they leave. -/
noncomputable def solved (lsq : LeastSquares ℝ) (beta : ℝ) (k : Nat) (entries : Nat → Nat → ℝ) :
    List ℝ × ℝ :=
  let H : Fin (k + 1) → Fin k → ℝ := fun i j => entries i j
  let y := lsq k H (firstUnit beta)
  (y.toList, LeastSquares.residual H (firstUnit beta) y)

variable {lsq : LeastSquares ℝ} {κ : Scaling} {e : V → E}

theorem withColumn_eq_solved {B : Type} (beta : ℝ) (c : Cycle B ℝ) (column : List ℝ) :
    c.withColumn lsq beta column =
      { c with
        columns := c.columns.push column.toArray
        coefficients := (solved lsq beta (c.columns.push column.toArray).size
          (entry (c.columns.push column.toArray))).1
        residual := (solved lsq beta (c.columns.push column.toArray).size
          (entry (c.columns.push column.toArray))).2 } := by
  have hentries : hessenberg (c.columns.push column.toArray) =
      (fun i j => entry (c.columns.push column.toArray) i j : Fin (_ + 1) → Fin _ → ℝ) := by
    funext i j
    exact hessenberg_eq _ i j
  simp only [Cycle.withColumn, hentries]
  rfl

theorem entry_map (columns : Array (Array ℝ)) (t : ℝ) (i j : Nat) :
    entry (columns.map (Array.map (t * ·))) i j = t * entry columns i j := by
  simp only [entry, Array.getD_eq_getD_getElem?, Array.getElem?_map]
  cases columns[j]? with
  | none => simp
  | some column => cases hentry : column[i]? <;> simp [hentry]

theorem solved_scaled (hlsq : lsq.Shortest) (beta : ℝ) (columns : Array (Array ℝ)) :
    solved lsq (κ.residual * beta) (columns.map (Array.map (κ.factor * ·))).size
        (entry (columns.map (Array.map (κ.factor * ·)))) =
      ((solved lsq beta columns.size (entry columns)).1.map (κ.size * ·),
        κ.residual * (solved lsq beta columns.size (entry columns)).2) := by
  have hunit : (firstUnit (κ.residual * beta) : Fin (columns.size + 1) → ℝ) =
      fun i => κ.factor * κ.size * firstUnit beta i := by
    funext i
    unfold firstUnit
    split
    · rfl
    · simp
  rw [Array.size_map, funext₂ (entry_map columns κ.factor)]
  simp only [solved]
  rw [hunit, hlsq.scaled κ.factor_pos κ.size_pos, LeastSquares.toList_stretch,
    LeastSquares.residual_stretch κ.factor_pos κ.size_pos]
  rfl

theorem le_scaled {q : ℝ} (hq : 0 < q) (a b : ℝ) : Scalar.le (q * a) (q * b) = Scalar.le a b := by
  rw [Bool.eq_iff_iff, Scalar.le_real, Scalar.le_real, mul_le_mul_iff_right₀ hq]

namespace Cycle.Scaled

variable {c c' : Cycle V ℝ} (h : c.Scaled κ e c')
include h

theorem withColumn (hlsq : lsq.Shortest) (beta : ℝ) (column : List ℝ) :
    (c.withColumn lsq beta column).Scaled κ e
      (c'.withColumn lsq (κ.residual * beta) (column.map (κ.factor * ·))) := by
  have hcolumns : c'.columns.push (column.map (κ.factor * ·)).toArray =
      (c.columns.push column.toArray).map (Array.map (κ.factor * ·)) := by
    rw [h.columns_eq, Array.map_push, ← List.map_toArray]
  rw [withColumn_eq_solved, withColumn_eq_solved, hcolumns, solved_scaled hlsq]
  exact ⟨h.basis, rfl, rfl, rfl, h.brokeDown_eq, h.spent_eq⟩

omit h in
theorem start {v v' : V} (hv : Multiple e κ.sign v v') (beta : ℝ) (spent : Nat) :
    (Cycle.start v beta spent).Scaled κ e (Cycle.start v' (κ.residual * beta) spent) :=
  ⟨.cons hv .nil, Array.map_empty.symm, rfl, rfl, rfl, rfl⟩

theorem count : Cycle.Scaled κ e { c with spent := c.spent + 1 } { c' with spent := c'.spent + 1 } :=
  ⟨h.basis, h.columns_eq, h.coefficients_eq, h.residual_eq, h.brokeDown_eq,
    congrArg (· + 1) h.spent_eq⟩

theorem breaksDown {down down' : Bool} (hdown : down' = down) :
    Cycle.Scaled κ e { c with brokeDown := down } { c' with brokeDown := down' } :=
  ⟨h.basis, h.columns_eq, h.coefficients_eq, h.residual_eq, hdown, h.spent_eq⟩

theorem grow {v v' : V} (hv : Multiple e κ.sign v v') :
    Cycle.Scaled κ e { c with basis := c.basis ++ [v] } { c' with basis := c'.basis ++ [v'] } :=
  ⟨List.rel_append h.basis (.cons hv .nil), h.columns_eq, h.coefficients_eq, h.residual_eq,
    h.brokeDown_eq, h.spent_eq⟩

theorem le_target (target : ℝ) :
    Scalar.le c'.residual (κ.residual * target) = Scalar.le c.residual target := by
  rw [h.residual_eq, le_scaled κ.residual_pos]

theorem stops_iff (target : ℝ) :
    (Scalar.le c.residual target || c.brokeDown) = true ↔
      (Scalar.le c'.residual (κ.residual * target) || c'.brokeDown) = true := by
  rw [h.le_target, h.brokeDown_eq]

end Cycle.Scaled

/-! ## Runs on values -/

/-- The second operator makes of a multiple what the first one makes, multiplied by the factor as well. -/
def Scales (κ : Scaling) (e : V → E) (I : σ → τ → Prop) (A : V → Collab R σ V)
    (A' : V → Collab R τ V) : Prop :=
  ∀ q v v' o o', q ≠ 0 → Multiple e q v v' → I o o' →
    Follows (fun u o u' o' => Multiple e (κ.factor * q) u u' ∧ I o o') I (A v) o (A' v') o'

section Values

variable {K : Backend ℝ V} (g : Gmres ℝ R) {A : V → Collab R σ V} {A' : V → Collab R τ V}
variable {I : σ → τ → Prop} {o : σ} {o' : τ}

theorem reciprocal_scaled {q : ℝ} (hq : q ≠ 0) (x : ℝ) (ho : I o o') :
    Follows (fun d o d' o' => d' * q = d ∧ I o o') I
      (LineSearch.orFail (Scalar.reciprocal x) : Collab R σ ℝ) o
      (LineSearch.orFail (Scalar.reciprocal (q * x))) o' := by
  by_cases hx : x = 0
  · rw [hx, mul_zero, Scalar.reciprocal_zero]
    exact Follows.of_error rfl rfl ho
  · rw [Scalar.reciprocal_real hx, Scalar.reciprocal_real (mul_ne_zero hq hx)]
    refine Follows.of_ok rfl rfl ⟨?_, ho⟩
    rw [div_mul_eq_mul_div, one_mul, div_mul_cancel_left₀ hq, one_div]

variable (hlsq : lsq.Shortest) (hK : K.Exact e) (hA : Scales κ e I A A')
include hlsq hK hA

theorem advance_scaled (beta target : ℝ) {v v' : V} (hv : Multiple e κ.sign v v') {c c' : Cycle V ℝ}
    (h : c.Scaled κ e c') (ho : I o o') :
    Follows
      (fun q o q' o' =>
        q.1.Scaled κ e q'.1 ∧ Option.Rel (Multiple e κ.sign) q.2 q'.2 ∧ I o o') I
      (advance g lsq K A beta target v c) o
      (advance g lsq K A' (κ.residual * beta) (κ.residual * target) v' c') o' := by
  unfold advance
  refine (hA κ.sign v v' o o' κ.sign_ne_zero hv ho).bind ?_
  rintro u o u' o' ⟨hu, ho⟩
  obtain ⟨hrest, hcoefficients⟩ := project_multiple hK κ.sign_sq h.basis hu
  rw [mul_assoc, κ.sign_sq, mul_one] at hcoefficients
  have hbefore : K.length u' = κ.factor * K.length u := by
    rw [hu.length_eq hK, κ.abs_factor_sign]
  have hlength : K.length (project K u' c'.basis).1 = κ.factor * K.length (project K u c.basis).1 := by
    rw [hrest.length_eq hK, κ.abs_factor_sign]
  have hcolumn := h.count.withColumn hlsq beta
    ((project K u c.basis).2 ++ [K.length (project K u c.basis).1])
  rw [List.map_append, List.map_singleton, ← hcoefficients, ← hlength] at hcolumn
  refine Follows.ite_congr (by simp) (fun hfinite => absurd hfinite (by simp)) fun _ => ?_
  refine Follows.bind (Agree.orFail g.breakdownTol ho) ?_
  rintro fraction o _ o' ⟨rfl, ho⟩
  have hdown : Scalar.le (K.length (project K u' c'.basis).1) (fraction * K.length u') =
      Scalar.le (K.length (project K u c.basis).1) (fraction * K.length u) := by
    rw [hlength, hbefore, mul_left_comm, le_scaled κ.factor_pos]
  have hbroken := hcolumn.breaksDown hdown
  refine Follows.ite_congr (hbroken.stops_iff target) (fun _ => ?_) fun _ => ?_
  · exact Follows.of_ok rfl rfl ⟨hbroken, .none, ho⟩
  have hreciprocal := reciprocal_scaled (R := R) κ.factor_pos.ne' (K.length (project K u c.basis).1) ho
  rw [← hlength] at hreciprocal
  refine hreciprocal.bind ?_
  rintro d o d' o' ⟨hd, ho⟩
  have hnext : Multiple e κ.sign (K.scale (project K u c.basis).1 d)
      (K.scale (project K u' c'.basis).1 d') :=
    hrest.scale hK (by rw [← hd, ← mul_assoc, mul_comm κ.sign])
  exact Follows.of_ok rfl rfl ⟨hbroken.grow hnext, .some hnext, ho⟩

theorem advances_scaled (beta target : ℝ) (count : Nat) {v v' : V} (hv : Multiple e κ.sign v v')
    {c c' : Cycle V ℝ} (h : c.Scaled κ e c') (ho : I o o') :
    Follows (fun c o c' o' => c.Scaled κ e c' ∧ I o o') I
      (advances g lsq K A beta target count v c) o
      (advances g lsq K A' (κ.residual * beta) (κ.residual * target) count v' c') o' := by
  induction count generalizing v v' c c' o o' with
  | zero => exact Follows.of_ok rfl rfl ⟨h, ho⟩
  | succ count ih =>
    unfold advances
    rw [h.spent_eq]
    refine Follows.ite (fun _ => ?_) fun _ => Follows.of_ok rfl rfl ⟨h, ho⟩
    refine (advance_scaled g hlsq hK hA beta target hv h ho).bind ?_
    rintro ⟨c, next⟩ o ⟨c', next'⟩ o' ⟨h, hnext, ho⟩
    cases hnext with
    | none => exact Follows.of_ok rfl rfl ⟨h, ho⟩
    | some hnext => exact ih hnext h ho

theorem cycleFrom_scaled (target beta : ℝ) {r r' : V}
    (hr : Multiple e (κ.factor * κ.unknown) r r') (spent : Nat) (ho : I o o') :
    Follows (fun c o c' o' => c.Scaled κ e c' ∧ I o o') I
      (cycleFrom g lsq K A target beta r spent) o
      (cycleFrom g lsq K A' (κ.residual * target) (κ.residual * beta) r' spent) o' := by
  unfold cycleFrom
  refine (reciprocal_scaled κ.residual_pos.ne' beta ho).bind ?_
  rintro d o d' o' ⟨hd, ho⟩
  refine Follows.bind (Agree.orFail g.restart ho) ?_
  rintro count o _ o' ⟨rfl, ho⟩
  have hv : Multiple e κ.sign (K.scale r d) (K.scale r' d') := by
    refine hr.scale hK ?_
    rw [← hd, Scaling.unknown, Scaling.residual]
    ring
  exact advances_scaled g hlsq hK hA beta target count hv (.start hv beta spent) ho

omit hlsq in
theorem residualAt_scaled {b b' x x' : V} (hb : Multiple e (κ.factor * κ.unknown) b b')
    (hx : Multiple e κ.unknown x x') (ho : I o o') :
    Follows (fun r o r' o' => Multiple e (κ.factor * κ.unknown) r r' ∧ I o o') I
      (residualAt K A b x) o (residualAt K A' b' x') o' := by
  refine (hA κ.unknown x x' o o' κ.unknown_ne_zero hx ho).bind ?_
  rintro y o y' o' ⟨hy, ho⟩
  exact Follows.of_ok rfl rfl ⟨hb.addScaled hK hy (mul_comm _ _), ho⟩

omit hlsq hK hA in
theorem consult_scaled {α β : Type} {J : α → β → Prop} {act : Collab R σ α} {act' : Collab R τ β}
    {u : Unknown V σ} {u' : Unknown V τ} (hx : Multiple e κ.unknown u.value u'.value)
    (h : Follows (fun v o v' o' => J v v' ∧ I o o') I act u.outside act' u'.outside) :
    Follows
      (fun v w v' w' => J v v' ∧ w.Scaled κ e I w' ∧ w.value = u.value ∧ w'.value = u'.value)
      (Unknown.Scaled κ e I) (OnUnknown.consult act) u (OnUnknown.consult act') u' := by
  refine (OnUnknown.consult_both h).mono ?_ ?_
  · rintro v w v' w' ⟨⟨hJ, ho⟩, hw, hw'⟩
    exact ⟨hJ, ⟨by rwa [hw, hw'], ho⟩, hw, hw'⟩
  · rintro w w' ⟨ho, hw, hw'⟩
    exact ⟨by rwa [hw, hw'], ho⟩

theorem refineFrom_scaled {b b' : V} (hb : Multiple e (κ.factor * κ.unknown) b b') (target : ℝ)
    (fuel spent begun : Nat) {u : Unknown V σ} {u' : Unknown V τ} (h : u.Scaled κ e I u') :
    Agree (Unknown.Scaled κ e I) (refineFrom g lsq K A b target fuel spent begun) u
      (refineFrom g lsq K A' b' (κ.residual * target) fuel spent begun) u' := by
  induction fuel generalizing spent begun u u' with
  | zero => exact Agree.pure _ h
  | succ fuel ih =>
    unfold refineFrom
    refine Follows.ite (fun _ => ?_) fun _ => Agree.pure _ h
    refine Follows.skip_left rfl (Follows.skip_right rfl ?_)
    refine (consult_scaled h.1 (residualAt_scaled hK hA hb h.1 h.2)).bind ?_
    rintro r u₁ r' u₁' ⟨hr, h₁, hvalue, hvalue'⟩
    have hbeta : K.length r' = κ.residual * K.length r := by
      rw [hr.length_eq hK, κ.abs_factor_unknown]
    rw [hbeta]
    refine Follows.ite_congr ?_ (fun _ => Agree.pure _ h₁) fun _ => ?_
    · rw [le_scaled κ.residual_pos]
    refine Follows.ite_congr (by simp) (fun _ => Agree.pure _ h₁) fun _ => ?_
    have hcycle := cycleFrom_scaled g hlsq hK hA target (K.length r) hr spent h₁.2
    refine (consult_scaled h₁.1 hcycle).bind ?_
    rintro c u₂ c' u₂' ⟨hc, h₂, -, -⟩
    rw [hc.spent_eq]
    refine Follows.ite_congr ?_ (fun _ => Agree.pure _ h₂) fun _ => ?_
    · rw [hc.columns_eq, Array.isEmpty_iff_size_eq_zero, Array.isEmpty_iff_size_eq_zero, Array.size_map]
    refine Follows.skip_left rfl (Follows.skip_right rfl ?_)
    have h₃ : Unknown.Scaled κ e I ⟨combination K u.value c.basis c.coefficients, u₂.outside⟩
        ⟨combination K u'.value c'.basis c'.coefficients, u₂'.outside⟩ := by
      rw [hc.coefficients_eq]
      exact ⟨combination_multiple hK hc.basis h.1 _, h₂.2⟩
    rw [hc.brokeDown_eq]
    refine Follows.ite_congr ?_ (fun _ => Agree.pure _ h₃) fun _ => ?_
    · rw [hc.le_target]
    refine Follows.ite (fun _ => Agree.pure _ h₃) fun _ => ?_
    exact ih c.spent (begun + 1) h₃

theorem refine_scaled {b b' : V} (hb : Multiple e (κ.factor * κ.unknown) b b') {u : Unknown V σ}
    {u' : Unknown V τ} (h : u.Scaled κ e I u') :
    Agree (Unknown.Scaled κ e I) (refine g lsq K A b) u (refine g lsq K A' b') u' := by
  have hlength : K.length b' = κ.residual * K.length b := by
    rw [hb.length_eq hK, κ.abs_factor_unknown]
  unfold refine
  rw [hlength]
  refine Follows.ite_congr ?_ (fun _ => ?_) fun _ => ?_
  · rw [Scalar.isZero_real, Scalar.isZero_real, mul_eq_zero_iff_left κ.residual_pos.ne']
  · refine Follows.skip_left rfl (Follows.skip_right rfl (Agree.pure _ ⟨?_, h.2⟩))
    exact h.1.scale hK (by rw [Scalar.ofNat_real, Nat.cast_zero, zero_mul, mul_zero])
  · refine (consult_scaled h.1 (Agree.orFail g.tol h.2)).bind ?_
    rintro tol u _ u' ⟨rfl, h, -, -⟩
    rw [mul_left_comm]
    exact refineFrom_scaled g hlsq hK hA hb _ _ _ _ h

end Values

/-! ## Whole calls -/

/-- Since the traces `start` and `start'` the operators have been asked equally often, in turn for multiples
of the same vectors. -/
def Paired (e : V → E) (start start' trace trace' : List V) : Prop :=
  ∃ vs vs', trace = start ++ vs ∧ trace' = start' ++ vs' ∧
    List.Forall₂ (fun v v' => ∃ q, q ≠ 0 ∧ Multiple e q v v') vs vs'

theorem Paired.start (e : V → E) (start start' : List V) : Paired e start start' start start' :=
  ⟨[], [], (List.append_nil _).symm, (List.append_nil _).symm, .nil⟩

theorem Paired.ask {start start' trace trace' : List V} (h : Paired e start start' trace trace')
    {q : ℝ} (hq : q ≠ 0) {v v' : V} (hv : Multiple e q v v') :
    Paired e start start' (trace ++ [v]) (trace' ++ [v']) := by
  obtain ⟨vs, vs', rfl, rfl, hvs⟩ := h
  exact ⟨vs ++ [v], vs' ++ [v'], List.append_assoc _ _ _, List.append_assoc _ _ _,
    List.rel_append hvs (.cons ⟨q, hq, hv⟩ .nil)⟩

theorem traced_scales {a a' : V → V} {L : E →ₗ[ℝ] E} (ha : ∀ v, e (a v) = L (e v))
    (ha' : ∀ v, e (a' v) = (κ.factor • L) (e v)) (start start' : List V) :
    Scales κ e (Paired e start start') (traced (R := R) a) (traced a') := by
  intro q v v' trace trace' hq hv h
  refine Follows.of_ok rfl rfl ⟨?_, h.ask hq hv⟩
  rw [Multiple, ha, ha', hv, LinearMap.smul_apply, map_smul, smul_smul]

section Vectors

variable {n : Nat} (L : EuclideanSpace ℝ (Fin n) →ₗ[ℝ] EuclideanSpace ℝ (Fin n))

/-- A call on a multiple of a problem gives the same account or fails for the same cause. Either way it asks
for the operator equally often and leaves the multiple of the unknown. -/
theorem call_homogeneous {g : Gmres ℝ R} (hlsq : lsq.Shortest) {a c : ℝ} (ha : 0 < a) (hc : c ≠ 0)
    {p p' : LinearProblem (Vector ℝ n) ℝ R (List (Vector ℝ n))}
    (hbackend : p.backend = (Component.plain ℝ).backend n)
    (hbackend' : p'.backend = (Component.plain ℝ).backend n) {guard scratch guard' scratch' : Set Ref}
    {s s' : Session (Vector ℝ n) ℝ R (List (Vector ℝ n))}
    (hp : p.Posed (traced (applied L)) guard scratch s)
    (hp' : p'.Posed (traced (applied (a • L))) guard' scratch' s')
    (sup : Supply p.new (p.own guard scratch)) (sup' : Supply p'.new (p'.own guard' scratch'))
    (hready : sup.Ready s) (hready' : sup'.Ready s')
    (hrhs : point (s'.store.read p'.rhs) = (a * c) • point (s.store.read p.rhs))
    (hunknown : point (s'.store.read p'.unknown) = c • point (s.store.read p.unknown)) :
    (∃ account s₁ s₁', g.call lsq p s = .ok account s₁ ∧ g.call lsq p' s' = .ok account s₁' ∧
      point (s₁'.store.read p'.unknown) = c • point (s₁.store.read p.unknown) ∧
      Paired point s.outside s'.outside s₁.outside s₁'.outside) ∨
    ∃ cause s₁ s₁', g.call lsq p s = .error cause s₁ ∧ g.call lsq p' s' = .error cause s₁' ∧
      point (s₁'.store.read p'.unknown) = c • point (s₁.store.read p.unknown) ∧
      Paired point s.outside s'.outside s₁.outside s₁'.outside := by
  have hscales := traced_scales (R := R) (κ := Scaling.between ha hc) (point_applied L)
    (point_applied (a • L)) s.outside s'.outside
  have hK := Component.plain_exact n
  have hx : Unknown.Scaled (Scaling.between ha hc) point (Paired point s.outside s'.outside)
      ⟨s.store.read p.unknown, s.outside⟩ ⟨s'.store.read p'.unknown, s'.outside⟩ := by
    refine ⟨?_, .start point _ _⟩
    rwa [Scaling.unknown_between]
  have hb : Multiple point ((Scaling.between ha hc).factor * (Scaling.between ha hc).unknown)
      (s.store.read p.rhs) (s'.store.read p'.rhs) := by
    rwa [Scaling.unknown_between]
  have hrefine := refine_scaled g hlsq hK hscales hb hx
  have hcall := g.call_follows lsq sup hp hready
  have hcall' := g.call_follows lsq sup' hp' hready'
  rw [hbackend] at hcall
  rw [hbackend'] at hcall'
  have hleft : ∀ {s₁ s₁' : Session (Vector ℝ n) ℝ R (List (Vector ℝ n))}
      {u u' : Unknown (Vector ℝ n) (List (Vector ℝ n))}, s₁.store.read p.unknown = u.value →
      s₁.outside = u.outside → s₁'.store.read p'.unknown = u'.value → s₁'.outside = u'.outside →
      u.Scaled (Scaling.between ha hc) point (Paired point s.outside s'.outside) u' →
      point (s₁'.store.read p'.unknown) = c • point (s₁.store.read p.unknown) ∧
        Paired point s.outside s'.outside s₁.outside s₁'.outside := by
    rintro s₁ s₁' u u' hread hout hread' hout' ⟨hvalue, hpaired⟩
    rw [Multiple, Scaling.unknown_between] at hvalue
    rw [hread, hread', hout, hout']
    exact ⟨hvalue, hpaired⟩
  rcases (hcall.join (hcall'.join hrefine)).cases with
    ⟨account, s₁, _, s₁', hrun, hrun', _, u, ⟨rfl, hread, hout, -⟩, _, u',
      ⟨rfl, hread', hout', -⟩, rfl, hscaled⟩ | ⟨cause, s₁, s₁', hrun, hrun', u,
      ⟨⟨hread, hout, -⟩, -⟩, u', ⟨⟨hread', hout', -⟩, -⟩, hscaled⟩
  · exact .inl ⟨_, s₁, s₁', hrun, hrun', hleft hread hout hread' hout' hscaled⟩
  · exact .inr ⟨cause, s₁, s₁', hrun, hrun', hleft hread hout hread' hout' hscaled⟩

end Vectors

theorem call_axisCross_homogeneous :
    LeastSquares.shortest.Shortest ∧ (0 : ℝ) < 2 ∧ (-3 : ℝ) ≠ 0 ∧
      ∃ account s₁ s₁',
        Gmres.call (R := ℝ) ⟨.ok 0, .ok 2, 4, .ok 0⟩ LeastSquares.shortest
          (.fresh ((Component.plain ℝ).backend 3) (traced (applied axisCross)))
          (.fresh #v[-2, 1, 5] #v[0, 0, 7] []) = .ok account s₁ ∧
        Gmres.call (R := ℝ) ⟨.ok 0, .ok 2, 4, .ok 0⟩ LeastSquares.shortest
          (.fresh ((Component.plain ℝ).backend 3) (traced (applied ((2 : ℝ) • axisCross))))
          (.fresh #v[12, -6, -30] #v[0, 0, -21] []) = .ok account s₁' ∧
        point (s₁'.store.read ⟨1⟩) = (-3 : ℝ) • point (s₁.store.read ⟨1⟩) ∧
        Paired point [] [] s₁.outside s₁'.outside := by
  have hlsq := LeastSquares.shortest_spec
  have hc : (-3 : ℝ) ≠ 0 := by norm_num
  have hrhs : point (n := 3) #v[12, -6, -30] = (2 * -3 : ℝ) • point #v[-2, 1, 5] := by
    ext i
    fin_cases i <;> simp [point] <;> norm_num
  have hunknown : point (n := 3) #v[0, 0, -21] = (-3 : ℝ) • point #v[0, 0, 7] := by
    ext i
    fin_cases i <;> simp [point]
    norm_num
  refine ⟨hlsq, two_pos, hc, ?_⟩
  rcases call_homogeneous (R := ℝ) axisCross (g := ⟨.ok 0, .ok 2, 4, .ok 0⟩) hlsq two_pos hc rfl rfl
    (LinearProblem.fresh_posed _ _ #v[-2, 1, 5] #v[0, 0, 7] [])
    (LinearProblem.fresh_posed _ _ #v[12, -6, -30] #v[0, 0, -21] []) (Supply.fresh _ _)
    (Supply.fresh _ _) (LinearProblem.fresh_ready _ _ _ _ _) (LinearProblem.fresh_ready _ _ _ _ _)
    hrhs hunknown with h | ⟨cause, s₁, s₁', hrun, -⟩
  · exact h
  · obtain ⟨_, _, _, hcourse, -⟩ := course_exact (R := ℝ) (g := ⟨.ok 0, .ok 2, 4, .ok 0⟩) rfl rfl rfl
      le_rfl le_rfl hlsq.minimises (Component.plain_exact 3) (point_applied axisCross)
      (LinearProblem.fresh_posed _ _ #v[-2, 1, 5] #v[0, 0, 7] []) (Supply.fresh _ _)
      (LinearProblem.fresh_ready _ _ _ _ _)
    rw [call_eq_course] at hrun
    cases hrun.symm.trans (bind_run_ok hcourse _)

end Gmres

end NewtonKrylov
