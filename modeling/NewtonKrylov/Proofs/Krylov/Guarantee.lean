import NewtonKrylov.Proofs.Krylov.Arnoldi
import NewtonKrylov.Proofs.Krylov.Fresh

/-!
# What a call guarantees

`Gmres.call_guarantee`: in exact arithmetic a call never makes the residual larger, and it meets its
tolerance exactly where it says so. The solver measures the residual only at the start of a cycle;
for the unknown that a cycle leads to it trusts the small least-squares problem. That problem is right
about it (`Built.residual_eq`), also where the cycle was ended by a breakdown or by the budget, and no
combination is worse than none (`Built.residual_le`). Over restarts both are kept by induction
(`refineFrom_spec`), and what holds on values holds in place by `Gmres.call_follows`.
-/

namespace NewtonKrylov

variable {V E : Type} [NormedAddCommGroup E] [InnerProductSpace ℝ E]

namespace Gmres

variable [Inhabited V] {K : Backend ℝ V} {e : V → E} {L : E →ₗ[ℝ] E} {W : Submodule ℝ E} {r : E}
variable {beta : ℝ} {c : Cycle V ℝ} {vs : List V} {q : E} {lsq : LeastSquares ℝ}

/-! ## The residual of a cycle -/

theorem Built.combination_eq (h : Built e L W r beta c vs q) (hK : K.Exact e)
    (hsolved : Solved lsq beta c) (x : V) :
    e (combination K x c.basis c.coefficients) = e x +
      ∑ j ∈ Finset.range c.columns.size,
        (lsq c.columns.size (hessenberg c.columns) (firstUnit beta)).toList.getD j 0 •
          e (vs.getD j default) := by
  have hlength := h.length_eq
  have hcoefficients : c.coefficients.length = c.columns.size := by
    rw [hsolved.coefficients_eq, Vector.length_toList]
  obtain ⟨rest, hrest⟩ := h.initial
  rw [combination_sum hK x, hcoefficients, ← hsolved.coefficients_eq]
  · congr 1
    apply Finset.sum_congr rfl
    intro j hj
    rw [← hrest, List.getD_append _ _ _ _ (by rw [hlength]; exact Finset.mem_range.mp hj)]
  · rw [hcoefficients, ← hlength]
    exact h.initial.length_le

theorem Built.residual_eq (h : Built e L W r beta c vs q) (hK : K.Exact e)
    (hsolved : Solved lsq beta c) {b : E} {x : V} (hr : r = b - L (e x)) :
    ‖b - L (e (combination K x c.basis c.coefficients))‖ = c.residual := by
  rw [hsolved.residual_eq, ← h.norm_residual, h.combination_eq hK hsolved, map_add, hr, sub_sub]

theorem Built.residual_le (h : Built e L W r beta c vs q) (hsolved : Solved lsq beta c)
    (hlsq : lsq.Minimises) : c.residual ≤ ‖r‖ := by
  calc c.residual ≤ LeastSquares.residual (hessenberg c.columns) (firstUnit beta)
        (Vector.replicate c.columns.size 0) := hsolved.residual_eq.trans_le (hlsq _ _ _ _)
    _ = ‖r‖ := by
      rw [← h.norm_residual, Finset.sum_eq_zero, map_zero, sub_zero]
      intro j hj
      have hzero : (Vector.replicate c.columns.size (0 : ℝ)).toList.getD j 0 = 0 := by
        rw [Vector.toList_replicate, List.getD_eq_getElem?_getD, List.getElem?_replicate,
          if_pos (Finset.mem_range.mp hj), Option.getD_some]
      rw [hzero, zero_smul]

variable {R : Type} {g : Gmres ℝ R} {a : V → V} {target delta : ℝ} {count : Nat} {c₀ : Cycle V ℝ}

theorem Advanced.exists_built {us : List V}
    (h : Advanced g lsq e L W r beta target delta count c₀ us c) (hpos : 0 < c.columns.size) :
    ∃ vs q, Built e L W r beta c vs q := by
  rcases h.outcome with ⟨harnoldi, -⟩ | ⟨vs, q, hbuilt, -⟩
  · exact ⟨_, _, harnoldi.built hpos⟩
  · exact ⟨vs, q, hbuilt⟩

/-! ## Restarts -/

/-- What the cycles of a call have made of the unknown `x`. -/
structure Refined (e : V → E) (L : E →ₗ[ℝ] E) (b : E) (target : ℝ) (x : V) (account : Account)
    (value : V) : Prop where
  residual_le : ‖b - L (e value)‖ ≤ ‖b - L (e x)‖
  within_iff : account.exit = .withinTolerance ↔ ‖b - L (e value)‖ ≤ target
  ne_zeroRhs : account.exit ≠ .zeroRhs

noncomputable def defect (K : Backend ℝ V) (a : V → V) (b x : V) : V :=
  K.addScaled b (a x) (-Scalar.ofNat 1)

omit [Inhabited V] in
theorem defect_eq (hK : K.Exact e) (hL : ∀ v, e (a v) = L (e v)) (b x : V) :
    e (defect K a b x) = e b - L (e x) := by
  rw [defect, hK.addScaled_eq, hL, Scalar.ofNat_real, Nat.cast_one, neg_one_smul, sub_eq_add_neg]

section Run

variable {b x : V} {fuel spent begun : Nat} {trace : List V}

omit [Inhabited V] in
theorem refineFrom_of_le (hbudget : spent < g.maxiter) (h : K.length (defect K a b x) ≤ target) :
    refineFrom g lsq K (traced a) b target (fuel + 1) spent begun ⟨x, trace⟩ =
      .ok ⟨.withinTolerance, spent, begun + 1⟩ ⟨x, trace ++ [x]⟩ := by
  have hsmall : Scalar.le (K.length (K.addScaled b (a x) (-Scalar.ofNat 1))) target = true :=
    (Scalar.le_real _ _).mpr h
  rw [refineFrom, if_pos hbudget]
  show (if Scalar.le (K.length (K.addScaled b (a x) (-Scalar.ofNat 1))) target then _ else _ :
    OnUnknown V R (List V) Account) ⟨x, trace ++ [x]⟩ = _
  rw [if_pos hsmall]
  rfl

omit [Inhabited V] in
theorem refineFrom_of_lt (hbudget : spent < g.maxiter) (h : target < K.length (defect K a b x))
    {trace' : List V} (hcycle : cycleFrom g lsq K (traced a) target (K.length (defect K a b x))
      (defect K a b x) spent (trace ++ [x]) = .ok c trace') :
    refineFrom g lsq K (traced a) b target (fuel + 1) spent begun ⟨x, trace⟩ =
      if c.columns.size = 0 then .ok ⟨.emptyCycle, c.spent, begun + 1⟩ ⟨x, trace'⟩
      else if c.residual ≤ target then .ok ⟨.withinTolerance, c.spent, begun + 1⟩
        ⟨combination K x c.basis c.coefficients, trace'⟩
      else if c.brokeDown then .ok ⟨.brokeDown, c.spent, begun + 1⟩
        ⟨combination K x c.basis c.coefficients, trace'⟩
      else refineFrom g lsq K (traced a) b target fuel c.spent (begun + 1)
        ⟨combination K x c.basis c.coefficients, trace'⟩ := by
  have hlarge : ¬Scalar.le (K.length (K.addScaled b (a x) (-Scalar.ofNat 1))) target = true :=
    fun hle => absurd ((Scalar.le_real _ _).mp hle) (not_le.mpr h)
  rw [refineFrom, if_pos hbudget]
  show (if Scalar.le (K.length (K.addScaled b (a x) (-Scalar.ofNat 1))) target then _ else _ :
    OnUnknown V R (List V) Account) ⟨x, trace ++ [x]⟩ = _
  rw [if_neg hlarge]
  show (OnUnknown.consult (cycleFrom g lsq K (traced a) target
    (K.length (K.addScaled b (a x) (-Scalar.ofNat 1))) (K.addScaled b (a x) (-Scalar.ofNat 1))
      spent) >>= fun c => _ : OnUnknown V R (List V) Account) ⟨x, trace ++ [x]⟩ = _
  rw [bind_run_ok (OnUnknown.consult_run_ok hcycle)]
  by_cases hempty : c.columns.size = 0
  · rw [if_pos hempty, if_pos (Array.isEmpty_iff_size_eq_zero.mpr hempty)]
    rfl
  rw [if_neg hempty, if_neg (mt Array.isEmpty_iff_size_eq_zero.mp hempty)]
  show (if Scalar.le c.residual target then _ else _ : OnUnknown V R (List V) Account)
    ⟨combination K x c.basis c.coefficients, trace'⟩ = _
  by_cases hsmall : c.residual ≤ target
  · rw [if_pos hsmall, if_pos ((Scalar.le_real _ _).mpr hsmall)]
    rfl
  rw [if_neg hsmall, if_neg (mt (Scalar.le_real _ _).mp hsmall)]
  by_cases hbroke : c.brokeDown = true
  · rw [if_pos hbroke, if_pos hbroke]
    rfl
  · rw [if_neg hbroke, if_neg hbroke]

end Run

section Refine

variable (hrestart : g.restart = .ok count) (hdelta : g.breakdownTol = .ok delta)
  (hnonneg : 0 ≤ delta) (hlsq : lsq.Minimises) (hK : K.Exact e) (hL : ∀ v, e (a v) = L (e v))
include hrestart hdelta hnonneg hlsq hK hL

/-- No cycle makes the residual larger, and the tolerance is met exactly where a cycle stops at it.
Where no cycle is begun, it is not met. -/
theorem refineFrom_spec (b : V) (htarget : 0 ≤ target) (fuel spent begun : Nat) (x : V)
    (trace : List V)
    (hstart : 0 < fuel ∧ spent < g.maxiter ∨ target < ‖e b - L (e x)‖) :
    ∃ account u, refineFrom g lsq K (traced a) b target fuel spent begun ⟨x, trace⟩ = .ok account u ∧
      Refined e L (e b) target x account u.value := by
  induction fuel generalizing spent begun x trace with
  | zero =>
    have hlarge := hstart.resolve_left fun h => Nat.lt_irrefl 0 h.1
    exact ⟨_, _, rfl, ⟨le_rfl, iff_of_false nofun (not_le.mpr hlarge), nofun⟩⟩
  | succ fuel ih =>
    have hdefect := defect_eq hK hL b x
    have hlength : K.length (defect K a b x) = ‖e b - L (e x)‖ := hdefect ▸ hK.length_eq _
    by_cases hbudget : spent < g.maxiter
    · by_cases hle : K.length (defect K a b x) ≤ target
      · exact ⟨_, _, refineFrom_of_le hbudget hle,
          ⟨le_rfl, iff_of_true rfl (hlength.symm.trans_le hle), nofun⟩⟩
      · have hlt := not_le.mp hle
        obtain ⟨c, vs, hcycle, hadvanced⟩ := cycleFrom_spec (W := ⊤) lsq hdelta hnonneg hK
          hL (fun _ => trivial) hrestart target (htarget.trans_lt hlt).ne' trivial spent (trace ++ [x])
        rw [refineFrom_of_lt hbudget hlt hcycle]
        by_cases hempty : c.columns.size = 0
        · rw [if_pos hempty]
          exact ⟨_, _, rfl, ⟨le_rfl, iff_of_false nofun (hlength ▸ hle), nofun⟩⟩
        obtain ⟨us, q, hbuilt⟩ := hadvanced.exists_built (Nat.pos_of_ne_zero hempty)
        have hsolved := hadvanced.solved (Nat.pos_of_ne_zero hempty)
        have hresidual := hbuilt.residual_eq hK hsolved hdefect
        have hdown := hdefect ▸ hbuilt.residual_le hsolved hlsq
        rw [← hresidual] at hdown
        rw [if_neg hempty]
        by_cases hsmall : c.residual ≤ target
        · rw [if_pos hsmall]
          exact ⟨_, _, rfl, ⟨hdown, iff_of_true rfl (hresidual.trans_le hsmall), nofun⟩⟩
        rw [if_neg hsmall]
        rw [← hresidual] at hsmall
        by_cases hbroke : c.brokeDown = true
        · rw [if_pos hbroke]
          exact ⟨_, _, rfl, ⟨hdown, iff_of_false nofun hsmall, nofun⟩⟩
        · rw [if_neg hbroke]
          obtain ⟨account, u, hrun, h⟩ := ih c.spent (begun + 1)
            (combination K x c.basis c.coefficients) (trace ++ [x] ++ vs) (.inr (not_le.mp hsmall))
          exact ⟨account, u, hrun, ⟨h.residual_le.trans hdown, h.within_iff, h.ne_zeroRhs⟩⟩
    · rw [refineFrom, if_neg hbudget]
      have hlarge := hstart.resolve_left fun h => hbudget h.2
      exact ⟨_, _, rfl, ⟨le_rfl, iff_of_false nofun (not_le.mpr hlarge), nofun⟩⟩

end Refine

/-! ## Calls -/

/-- The call has met its tolerance, which for a zero right-hand side is met without measuring. -/
def Exit.Met (exit : Exit) : Prop := exit = .withinTolerance ∨ exit = .zeroRhs

section Call

variable {σ : Type} {A : V → Collab R σ V} {tol : ℝ} (htol : g.tol = .ok tol) (hK : K.Exact e) {b : V}

include hK in
omit [Inhabited V] in
theorem refine_of_eq_zero (hb : e b = 0) (u : Unknown V σ) :
    refine g lsq K A b u = .ok ⟨.zeroRhs, 0, 0⟩ { u with value := K.scale u.value 0 } := by
  have hzero : Scalar.isZero (K.length b) = true := by
    rw [Scalar.isZero_real, hK.length_eq, hb, norm_zero]
  rw [refine, if_pos hzero, Scalar.ofNat_real, Nat.cast_zero]
  rfl

include hK in
omit [Inhabited V] in
theorem residual_of_eq_zero (hb : e b = 0) (x : V) : ‖e b - L (e (K.scale x 0))‖ = 0 := by
  rw [hK.scale_eq, zero_smul, map_zero, hb, sub_zero, norm_zero]

include htol hK in
omit [Inhabited V] in
theorem refine_of_ne_zero (hb : e b ≠ 0) (u : Unknown V σ) :
    refine g lsq K A b u = refineFrom g lsq K A b (tol * ‖e b‖) g.maxiter 0 0 u := by
  have hne : ¬Scalar.isZero (K.length b) = true := by
    rw [Scalar.isZero_real, hK.length_eq]
    exact norm_ne_zero_iff.mpr hb
  rw [refine, if_neg hne, htol, hK.length_eq]
  rfl

include htol hK in
omit [Inhabited V] in
theorem refine_of_le [Decidable (e b = 0)] (lsq : LeastSquares ℝ) (hL : ∀ v, e (a v) = L (e v))
    (hmaxiter : 0 < g.maxiter) {u : Unknown V (List V)} (hzero : e b = 0 → K.scale u.value 0 = u.value)
    (hu : ‖e b - L (e u.value)‖ ≤ tol * ‖e b‖) :
    ∃ account, refine g lsq K (traced a) b u =
      .ok account ⟨u.value, u.outside ++ if e b = 0 then [] else [u.value]⟩ := by
  by_cases hb : e b = 0
  · refine ⟨⟨.zeroRhs, 0, 0⟩, ?_⟩
    rw [refine_of_eq_zero hK hb, hzero hb, if_pos hb, List.append_nil]
  · obtain ⟨fuel, hfuel⟩ := Nat.exists_eq_succ_of_ne_zero hmaxiter.ne'
    refine ⟨⟨.withinTolerance, 0, 1⟩, ?_⟩
    rw [refine_of_ne_zero htol hK hb, hfuel, if_neg hb]
    apply refineFrom_of_le hmaxiter
    rwa [hK.length_eq, defect_eq hK hL]

include htol hK in
/-- A call does not make the residual larger, and meets the tolerance exactly where it says so. -/
theorem refine_spec (hrestart : g.restart = .ok count) (hdelta : g.breakdownTol = .ok delta)
    (hnonneg : 0 ≤ delta) (htol_nonneg : 0 ≤ tol) (hmaxiter : 0 < g.maxiter) (hlsq : lsq.Minimises)
    (hL : ∀ v, e (a v) = L (e v)) (b x : V) (trace : List V) :
    ∃ account u, refine g lsq K (traced a) b ⟨x, trace⟩ = .ok account u ∧
      ‖e b - L (e u.value)‖ ≤ ‖e b - L (e x)‖ ∧
      (account.exit.Met ↔ ‖e b - L (e u.value)‖ ≤ tol * ‖e b‖) ∧
      (e b = 0 → u.value = K.scale x 0) := by
  have htarget : 0 ≤ tol * ‖e b‖ := mul_nonneg htol_nonneg (norm_nonneg _)
  by_cases hb : e b = 0
  · have hsolved : ‖e b - L (e (K.scale x 0))‖ = 0 := residual_of_eq_zero hK hb x
    exact ⟨_, _, refine_of_eq_zero hK hb _, hsolved.trans_le (norm_nonneg _),
      iff_of_true (.inr rfl) (hsolved.trans_le htarget), fun _ => rfl⟩
  · obtain ⟨account, u, hrun, h⟩ := refineFrom_spec hrestart hdelta hnonneg hlsq hK hL b htarget
      g.maxiter 0 0 x trace (.inl ⟨hmaxiter, hmaxiter⟩)
    exact ⟨account, u, (refine_of_ne_zero htol hK hb _).trans hrun, h.residual_le,
      (or_iff_left h.ne_zeroRhs).trans h.within_iff, fun hzero => absurd hzero hb⟩

end Call

/-! ## Calls on shared vectors -/

section Vectors

variable {n : Nat} (L : EuclideanSpace ℝ (Fin n) →ₗ[ℝ] EuclideanSpace ℝ (Fin n))

/-- A linear operator on the entries of a vector. -/
noncomputable def applied (v : Vector ℝ n) : Vector ℝ n := Vector.ofFn (L (point v)).ofLp

theorem point_applied (v : Vector ℝ n) : point (applied L v) = L (point v) := point_ofFn _

/-- The length of the residual `b - L x`. -/
noncomputable def misfit (b x : Vector ℝ n) : ℝ := ‖point b - L (point x)‖

/-- A call of GMRES returns, and the residual it leaves is no larger than the one it was given. It
meets the tolerance exactly where it says so, and then another call changes nothing: it looks at the
residual once, or not at all if the right-hand side is zero. -/
theorem call_guarantee {g : Gmres ℝ R} {tol delta : ℝ} {count : Nat} (htol : g.tol = .ok tol)
    (hrestart : g.restart = .ok count) (hdelta : g.breakdownTol = .ok delta) (htol_nonneg : 0 ≤ tol)
    (hnonneg : 0 ≤ delta) (hmaxiter : 0 < g.maxiter) {lsq : LeastSquares ℝ} (hlsq : lsq.Minimises)
    {p : LinearProblem (Vector ℝ n) ℝ R (List (Vector ℝ n))}
    (hbackend : p.backend = (Component.plain ℝ).backend n) {guard scratch : Set Ref}
    {s : Session (Vector ℝ n) ℝ R (List (Vector ℝ n))}
    (hp : p.Posed (traced (applied L)) guard scratch s) (sup : Supply p.new (p.own guard scratch))
    (hready : sup.Ready s) :
    ∃ account s', g.call lsq p s = .ok account s' ∧
      s'.store.read p.rhs = s.store.read p.rhs ∧
      misfit L (s.store.read p.rhs) (s'.store.read p.unknown) ≤
        misfit L (s.store.read p.rhs) (s.store.read p.unknown) ∧
      (account.exit.Met ↔ misfit L (s.store.read p.rhs) (s'.store.read p.unknown) ≤
        tol * ‖point (s.store.read p.rhs)‖) ∧
      (account.exit.Met →
        ∃ account' s'', g.call lsq p s' = .ok account' s'' ∧
          s''.store.read p.unknown = s'.store.read p.unknown ∧
          s''.outside = s'.outside ++
            if point (s.store.read p.rhs) = 0 then [] else [s'.store.read p.unknown]) := by
  have hK : p.backend.Exact point := hbackend ▸ Component.plain_exact n
  have hscale : ∀ x, p.backend.scale (p.backend.scale x 0) 0 = p.backend.scale x 0 := by
    intro x
    rw [hbackend]
    ext i hi
    simp [Component.backend, Component.plain]
  obtain ⟨account, u, hrefine, hdown, hmet, hzero⟩ := refine_spec htol hK hrestart hdelta hnonneg
    htol_nonneg hmaxiter hlsq (point_applied L) (s.store.read p.rhs) (s.store.read p.unknown) s.outside
  obtain ⟨_, s', hcall, rfl, hvalue, hout, hkeeps, hready'⟩ :=
    (g.call_follows lsq sup hp hready).exists_ok hrefine
  have hrhs : s'.store.read p.rhs = s.store.read p.rhs := hkeeps.read_eq p.rhs hp.rhs_mem
  refine ⟨_, s', hcall, hrhs, hvalue ▸ hdown, hvalue ▸ hmet, fun hexit => ?_⟩
  -- the second call starts from what the first one has left
  obtain ⟨account', hrefine'⟩ := refine_of_le htol hK lsq (point_applied L) hmaxiter
    (u := u) (fun hb => by rw [hzero hb, hscale]) (hmet.mp hexit)
  have hfollows := g.call_follows lsq sup (hp.of_keeps hkeeps) hready'
  rw [hrhs, hvalue, hout] at hfollows
  obtain ⟨_, s'', hcall', -, hvalue', hout', -⟩ := hfollows.exists_ok hrefine'
  exact ⟨_, s'', hcall', hvalue'.trans hvalue.symm, hvalue ▸ hout ▸ hout'⟩

end Vectors

/-- The cross product with the third axis, which is singular. -/
noncomputable def axisCross : EuclideanSpace ℝ (Fin 3) →ₗ[ℝ] EuclideanSpace ℝ (Fin 3) :=
  Matrix.toEuclideanLin !![0, -1, 0; 1, 0, 0; 0, 0, 0]

/-- Solving for a vector along the axis, which no cross product is. -/
theorem call_axisCross_guarantee :
    ∃ account s', Gmres.call (R := ℝ) ⟨.ok 0, .ok 2, 4, .ok 0⟩ LeastSquares.exact
        (.fresh ((Component.plain ℝ).backend 3) (traced (applied axisCross)))
        (.fresh #v[0, 0, 1] #v[1, 2, 3] []) = .ok account s' ∧
      s'.store.read ⟨0⟩ = #v[0, 0, 1] ∧
      misfit axisCross #v[0, 0, 1] (s'.store.read ⟨1⟩) ≤ misfit axisCross #v[0, 0, 1] #v[1, 2, 3] ∧
      (account.exit.Met ↔
        misfit axisCross #v[0, 0, 1] (s'.store.read ⟨1⟩) ≤ 0 * ‖point #v[0, 0, 1]‖) ∧
      (account.exit.Met →
        ∃ account' s'', Gmres.call ⟨.ok 0, .ok 2, 4, .ok 0⟩ LeastSquares.exact
            (.fresh ((Component.plain ℝ).backend 3) (traced (applied axisCross))) s' =
              .ok account' s'' ∧
          s''.store.read ⟨1⟩ = s'.store.read ⟨1⟩ ∧
          s''.outside = s'.outside ++
            if point (#v[0, 0, 1] : Vector ℝ 3) = 0 then [] else [s'.store.read ⟨1⟩]) :=
  call_guarantee axisCross rfl rfl rfl le_rfl le_rfl (Nat.succ_pos 3) LeastSquares.exact_minimises rfl
    (LinearProblem.fresh_posed _ _ _ _ _) (Supply.fresh _ _) (LinearProblem.fresh_ready _ _ _ _ _)

end Gmres

end NewtonKrylov
