import NewtonKrylov.Proofs.Exact
import NewtonKrylov.Proofs.Newton.Workspace
import NewtonKrylov.Proofs.Rounding

/-!
# What a Jacobian product reads and writes

The product of the Jacobian at `x` with `v` evaluates the residual function ahead of `x` and then behind
it, and writes their difference, scaled, into the result (`derivative_frame`). Both points are made of `x`
and `v` as they are on entry, and both residuals are there before the result is written. So neither what
the scratch vectors held nor a result that is `v` itself makes a difference, and no other vector changes.
A vector and its negative exchange the two points; over the real numbers the product is the negative.
-/

namespace NewtonKrylov

variable {V S R σ : Type}

/-- A residual function whose values are those of `F`. What is noted of a call depends on its argument
and on what was noted before. -/
def noted (F : V → V) (note : σ → V → σ) : V → Collab R σ V := fun y o => .ok (F y) (note o y)

section Difference

variable [Scalar S] (K : Backend S V)

/-- The central difference of `F` at `x` along `v`, with half-width `e`. -/
def difference (F : V → V) (x v : V) (e : S) : V :=
  K.scale (K.addScaled (F (K.addScaled x v e)) (F (K.addScaled x v (-e))) (-Scalar.ofNat 1))
    (Scalar.ofNat 1 / (Scalar.ofNat 2 * e))

theorem centralDifference_noted (F : V → V) (note : σ → V → σ) (x v : V) (e : S) (o : σ) :
    centralDifference (R := R) K (noted F note) x e v o =
      if Scalar.isZero (Scalar.ofNat 2 * e) then
        .error .divisionByZero (note (note o (K.addScaled x v e)) (K.addScaled x v (-e)))
      else .ok (difference K F x v e) (note (note o (K.addScaled x v e)) (K.addScaled x v (-e))) := by
  show ((LineSearch.orFail (Scalar.reciprocal (Scalar.ofNat 2 * e)) : Collab R σ S) >>= fun d =>
      pure (K.scale (K.addScaled (F (K.addScaled x v e)) (F (K.addScaled x v (-e)))
        (-Scalar.ofNat 1)) d)) (note (note o (K.addScaled x v e)) (K.addScaled x v (-e))) = _
  by_cases hzero : Scalar.isZero (Scalar.ofNat 2 * e) = true
  · rw [Scalar.reciprocal, if_pos hzero, if_pos hzero]
    rfl
  · rw [Scalar.reciprocal, if_neg hzero, if_neg hzero]
    rfl

end Difference

theorem difference_neg {d : Nat} (F : Vector ℝ d → Vector ℝ d) (x v : Vector ℝ d) (e : ℝ) :
    difference ((Component.plain ℝ).backend d) F x (v.map fun a => -a) e =
      (difference ((Component.plain ℝ).backend d) F x v e).map fun a => -a := by
  have hahead : ((Component.plain ℝ).backend d).addScaled x (v.map fun a => -a) e =
      ((Component.plain ℝ).backend d).addScaled x v (-e) := by
    ext i hi
    simp [Component.backend, Component.plain]
  have hbehind : ((Component.plain ℝ).backend d).addScaled x (v.map fun a => -a) (-e) =
      ((Component.plain ℝ).backend d).addScaled x v e := by
    ext i hi
    simp [Component.backend, Component.plain]
  rw [difference, difference, hahead, hbehind]
  ext i hi
  simp only [Component.backend, Component.plain, Vector.getElem_map, Vector.getElem_zipWith,
    Scalar.ofNat_real]
  ring

/-! ## The product in a session -/

/-- The point and the scratch vectors are six vectors of the store and the result is another one. The
vector may be any but those for trials, the result and the point included. -/
structure Scratch.Around (w : Scratch) (x result v : Ref) (s : Session V S R σ) : Prop where
  nodup : [result, x, w.residual, w.ahead, w.behind, w.residualAhead, w.residualBehind].Nodup
  valid : ∀ r ∈ [v, result, x, w.residual, w.ahead, w.behind, w.residualAhead, w.residualBehind],
    s.store.Valid r
  operand : v ∉ w.trial

namespace Scratch.Around

variable {w : Scratch} {x result v : Ref} {s : Session V S R σ}

theorem beside (h : w.Around x result v s) : w.Beside x s where
  nodup := by
    have hnodup := h.nodup
    simp only [List.nodup_cons, List.mem_cons, not_or] at hnodup ⊢
    grind
  valid := by
    rintro r (rfl | rfl | rfl | rfl)
    all_goals exact h.valid _ (by simp)

theorem residual_not_mem (h : w.Around x result v s) : w.residual ∉ insert result w.trial := by
  have hnodup := h.nodup
  simp only [List.nodup_cons, List.mem_cons, not_or] at hnodup
  simp only [Scratch.trial, Set.mem_insert_iff, Set.mem_singleton_iff, not_or]
  grind

theorem point_not_mem (h : w.Around x result v s) : x ∉ insert result w.trial := by
  have hnodup := h.nodup
  simp only [List.nodup_cons, List.mem_cons, not_or] at hnodup
  simp only [Scratch.trial, Set.mem_insert_iff, Set.mem_singleton_iff, not_or]
  grind

end Scratch.Around

/-- The residual function is evaluated at the point ahead and then at the one behind, which are made of
`x` and `v` as they were. Only the result and the vectors for trials change. The result becomes the
difference, whatever these vectors held and also if it is `v`, unless twice the half-width is zero: that
of a positive half-width is not. Over the real numbers the negative vector has the negative result. -/
theorem derivative_frame :
    (∀ {V S R σ : Type} [Inhabited V] [Scalar S] (K : Backend S V) (F : V → V) (note : σ → V → σ)
      {w : Scratch} {x result v : Ref} {s : Session V S R σ} (e : S), w.Around x result v s →
      ∃ s', (Residual.whole (noted F note)).derivative K w x e result v s =
          (if Scalar.isZero (Scalar.ofNat 2 * e) then .error .divisionByZero s' else .ok () s') ∧
        s'.outside = note (note s.outside (K.addScaled (s.store.read x) (s.store.read v) e))
          (K.addScaled (s.store.read x) (s.store.read v) (-e)) ∧
        (Scalar.isZero (Scalar.ofNat 2 * e) = false →
          s'.store.read result = difference K F (s.store.read x) (s.store.read v) e) ∧
        s'.store.read x = s.store.read x ∧ s'.store.read w.residual = s.store.read w.residual ∧
        (v ≠ result → s'.store.read v = s.store.read v) ∧
        ∀ r, s.store.Valid r → r ≠ result → r ∉ w.trial → s'.store.read r = s.store.read r) ∧
    (∀ e : Float, Scalar.lt (Scalar.ofNat 0) e = true → Scalar.isZero (Scalar.ofNat 2 * e) = false) ∧
    ∀ {d : Nat} (F : Vector ℝ d → Vector ℝ d) (x v : Vector ℝ d) (e : ℝ), 0 < e →
      Scalar.isZero (Scalar.ofNat 2 * e) = false ∧
      difference ((Component.plain ℝ).backend d) F x (v.map fun a => -a) e =
        (difference ((Component.plain ℝ).backend d) F x v e).map fun a => -a := by
  refine ⟨?_, fun e => Rounding.double_ne_zero, fun F x v e he => ⟨?_, difference_neg F x v e⟩⟩
  · intro V S R σ _ _ K F note w x result v s e h
    have hfollows := Newton.derivative_follows (noted F note) h.beside K e
      (h.valid result (by simp)) h.operand
    have hcentral := centralDifference_noted (R := R) K F note (s.store.read x) (s.store.read v) e
      s.outside
    have hframe : ∀ {s' o}, s.Wrote (insert result w.trial) s' o →
        s'.store.read x = s.store.read x ∧ s'.store.read w.residual = s.store.read w.residual ∧
        (v ≠ result → s'.store.read v = s.store.read v) ∧
        ∀ r, s.store.Valid r → r ≠ result → r ∉ w.trial → s'.store.read r = s.store.read r := by
      intro s' o hwrote
      refine ⟨hwrote.read_eq (h.valid x (by simp)) h.point_not_mem,
        hwrote.read_eq (h.valid _ (by simp)) h.residual_not_mem, fun hv => ?_, fun r hr hne htrial => ?_⟩
      · exact hwrote.read_eq (h.valid v (by simp)) (not_or.mpr ⟨hv, h.operand⟩)
      · exact hwrote.read_eq hr (not_or.mpr ⟨hne, htrial⟩)
    by_cases hzero : Scalar.isZero (Scalar.ofNat 2 * e) = true
    · rw [if_pos hzero] at hcentral
      rcases hfollows.cases with ⟨_, _, _, _, _, hy, _⟩ | ⟨_, s', o, hx, hy, hwrote⟩
      · rw [hcentral] at hy
        cases hy
      · rw [hcentral] at hy
        cases hy
        refine ⟨s', ?_, hwrote.outside_eq, fun hne => ?_, hframe hwrote⟩
        · rw [if_pos hzero, hx]
        · rw [hzero] at hne
          cases hne
    · rw [if_neg hzero] at hcentral
      obtain ⟨_, s', hrun, hread, hwrote⟩ := hfollows.exists_ok hcentral
      refine ⟨s', ?_, hwrote.outside_eq, fun _ => hread, hframe hwrote⟩
      rw [if_neg hzero, hrun]
  · rw [Bool.eq_false_iff, ne_eq, Scalar.isZero_real]
    exact mul_ne_zero two_ne_zero he.ne'

/-- Three times a point. -/
def triple (y : Vector Float 2) : Vector Float 2 := y.map (3 * ·)

/-- A point, a vector and the scratch vectors of a run, with no points noted yet. -/
def notedSession (u v : Vector Float 2) : Session (Vector Float 2) Float Unit (List (Vector Float 2)) where
  store := ["f_of_x", "x_plus_dx", "x_minus_dx", "f_of_x_plus_dx", "f_of_x_minus_dx"].foldl
    (fun store name => store.push name default)
    ((({} : Store (Vector Float 2)).push "x" u).push "v" v)
  outside := []

/-- Two points are noted, and the vector is replaced by the product. -/
theorem derivative_frame_triple :
    (∃ s', (Residual.whole (noted triple fun points y => points ++ [y])).derivative
        ((Component.plain Float).backend 2) ⟨⟨2⟩, ⟨3⟩, ⟨4⟩, ⟨5⟩, ⟨6⟩⟩ ⟨0⟩ 0.5 ⟨1⟩ ⟨1⟩
        (notedSession #v[1, 2] #v[1, 0]) = .ok () s' ∧
      s'.outside = [#v[1.5, 2], #v[0.5, 2]] ∧ s'.store.read ⟨1⟩ = #v[3, 0] ∧
      s'.store.read ⟨0⟩ = #v[1, 2]) ∧
    difference ((Component.plain ℝ).backend 1) (fun y => y.map (· ^ 3)) #v[2] (#v[3].map fun a => -a) 1 =
      (difference ((Component.plain ℝ).backend 1) (fun y => y.map (· ^ 3)) #v[2] #v[3] 1).map
        fun a => -a := by
  have hindex : ∀ r ∈ ([⟨1⟩, ⟨1⟩, ⟨0⟩, ⟨2⟩, ⟨3⟩, ⟨4⟩, ⟨5⟩, ⟨6⟩] : List Ref), r.index < 7 := by decide
  have haround : Scratch.Around ⟨⟨2⟩, ⟨3⟩, ⟨4⟩, ⟨5⟩, ⟨6⟩⟩ ⟨0⟩ ⟨1⟩ ⟨1⟩
      (notedSession #v[1, 2] #v[1, 0]) :=
    ⟨by decide, fun r hr => hindex r hr, by simp [Scratch.trial]⟩
  have hstep : Scalar.isZero (Scalar.ofNat 2 * (0.5 : Float)) = false :=
    derivative_frame.2.1 0.5 (by decide +kernel)
  obtain ⟨s', hrun, hpoints, hread, hx, -⟩ := derivative_frame.1 ((Component.plain Float).backend 2)
    triple (fun points y => points ++ [y]) 0.5 haround
  refine ⟨⟨s', ?_, ?_, ?_, hx⟩, (derivative_frame.2.2 _ _ _ 1 one_pos).2⟩
  · rw [hrun, hstep]
    rfl
  · rw [hpoints]
    decide +kernel
  · rw [hread hstep]
    decide +kernel

end NewtonKrylov
