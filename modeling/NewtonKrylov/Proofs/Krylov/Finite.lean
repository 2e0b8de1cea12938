import NewtonKrylov.Proofs.Binary64
import NewtonKrylov.Proofs.Krylov.Operands

/-!
# GMRES and numbers that are not finite

`Gmres.call_finite`: on a backend that loses nothing that is not finite (`Backend.Propagates`), GMRES
hands only finite problems to its least-squares solver, whatever its operator answers. It tests the length
of the residual and the length of what a step leaves of the operator's answer. The components taken out
are not tested. But what is left is finite only if the answer, all components and all basis vectors taken
out have been (`Backend.Propagates.project`), and these are all numbers of the new column.

That no problem but a finite one is handed out shows in a comparison: a call goes the same way with
another solver that gives the same answers to finite problems. What is added to the unknown is read off
the cycles (`Round.Sound`).
-/

namespace NewtonKrylov

variable {V S R σ : Type}

/-! ## Backends that lose nothing -/

/-- A vector of finite length is finite, and if a vector is finite after its component along another has
been taken out of it, then all of it was finite before. -/
structure Backend.Propagates [Scalar S] (K : Backend S V) (finite : V → Prop) : Prop where
  zero : Scalar.isFinite (Scalar.ofNat 0 : S) = true
  length : ∀ v, Scalar.isFinite (K.length v) = true → finite v
  takeOut : ∀ u v, finite (K.addScaledWide u v (-K.dot u v)) →
    finite u ∧ finite v ∧ Scalar.isFinite (K.dot u v) = true

theorem Component.plain_dot (n : Nat) (u v : Vector Float n) :
    ((plain Float).backend n).dot u v =
      (u.zipWith (· * ·) v).toList.foldl (· + ·) (Float.ofNat 0) := by
  rw [Vector.foldl_toList]
  rfl

theorem Component.plain_propagates (n : Nat) : ((plain Float).backend n).Propagates
    fun v => ∀ i (h : i < n), v[i].isFinite = true where
  zero := rfl
  length := by
    intro v h i hi
    have hroot := Binary64.finite_of_sqrt h
    have hzero : Binary64.Unsigned (Float.ofNat 0).toModel.unpack := rfl
    have hmem : v[i] * v[i] ∈ (v.zipWith (· * ·) v).toList := by
      rw [Vector.mem_toList_iff, Vector.mem_iff_getElem]
      exact ⟨i, hi, Vector.getElem_zipWith hi⟩
    have hsquares : ∀ x ∈ (v.zipWith (· * ·) v).toList, Binary64.Unsigned x.toModel.unpack := by
      intro x hx
      rw [Vector.mem_toList_iff, Vector.mem_iff_getElem] at hx
      obtain ⟨j, hj, rfl⟩ := hx
      rw [Vector.getElem_zipWith]
      exact Binary64.pack_unsigned Binary64.mul_self_unsigned
    rw [plain_dot, Scalar.nonneg, if_neg] at hroot
    · exact (Binary64.finite_of_mul ((Binary64.finite_of_foldl hroot).2 _ hmem)).1
    · exact fun hlt => Binary64.foldl_not_lt_zero hzero hsquares (of_decide_eq_true hlt)
  takeOut := by
    intro u v h
    generalize hd : ((plain Float).backend n).dot u v = d at h
    have hentry : ∀ i (hi : i < n), (u[i] + -d * v[i]).isFinite = true := by
      intro i hi
      have hi' := h i hi
      simp only [backend, plain] at hi'
      rwa [Vector.getElem_zipWith] at hi'
    have hsum := fun i hi => Binary64.finite_of_add (hentry i hi)
    have hproduct := fun i hi => Binary64.finite_of_mul (hsum i hi).2
    refine ⟨fun i hi => (hsum i hi).1, fun i hi => (hproduct i hi).2, ?_⟩
    by_cases hn : 0 < n
    · exact Binary64.finite_of_neg (hproduct 0 hn).1
    · obtain rfl : n = 0 := by omega
      have hempty : u.zipWith (· * ·) v = #v[] := Vector.eq_empty
      rw [← hd, plain_dot, hempty]
      rfl

/-! ## Finite problems -/

namespace LeastSquares

variable [Scalar S]

/-- All numbers of the problem are finite. -/
structure FiniteProblem {k : Nat} (H : Fin (k + 1) → Fin k → S) (γ : Fin (k + 1) → S) : Prop where
  matrix : ∀ i j, Scalar.isFinite (H i j) = true
  rhs : ∀ i, Scalar.isFinite (γ i) = true

/-- Both solvers give the same answers to finite problems. -/
def AgreeOnFinite (lsq lsq' : LeastSquares S) : Prop :=
  ∀ k H γ, FiniteProblem H γ → lsq k H γ = lsq' k H γ

/-- The solver finds finite coefficients for finite problems. -/
def KeepsFinite (lsq : LeastSquares S) : Prop :=
  ∀ k H γ, FiniteProblem H γ → ∀ a ∈ lsq k H γ, Scalar.isFinite a = true

end LeastSquares

theorem Backend.Propagates.project [Scalar S] {K : Backend S V} {finite : V → Prop}
    (hK : K.Propagates finite) {vs : List V} {u : V} (h : finite (Gmres.project K u vs).1) :
    finite u ∧ (∀ v ∈ vs, finite v) ∧
      ∀ a ∈ (Gmres.project K u vs).2, Scalar.isFinite a = true := by
  induction vs generalizing u with
  | nil => exact ⟨h, nofun, nofun⟩
  | cons v vs ih =>
    obtain ⟨hrest, hvs, hcomponents⟩ := ih h
    obtain ⟨hu, hv, hcomponent⟩ := hK.takeOut u v hrest
    exact ⟨hu, List.forall_mem_cons.mpr ⟨hv, hvs⟩,
      List.forall_mem_cons.mpr ⟨hcomponent, hcomponents⟩⟩

namespace Gmres

open LeastSquares (FiniteProblem)

section Values

variable [Scalar S] {lsq lsq' : LeastSquares S} {K : Backend S V} {finite : V → Prop}
variable {columns : Array (Array S)} {beta target : S} {c c' : Cycle V S} {u : V}

/-- All entries of the columns are finite. -/
def FiniteColumns (columns : Array (Array S)) : Prop :=
  ∀ column ∈ columns, ∀ a ∈ column, Scalar.isFinite a = true

theorem FiniteColumns.push (h : FiniteColumns columns) {column : List S}
    (hcolumn : ∀ a ∈ column, Scalar.isFinite a = true) :
    FiniteColumns (columns.push column.toArray) := by
  intro column' hmem a ha
  rcases Array.mem_push.mp hmem with hmem | rfl
  · exact h column' hmem a ha
  · exact hcolumn a (List.mem_toArray.mp ha)

theorem FiniteColumns.problem (h : FiniteColumns columns) (hK : K.Propagates finite)
    (hbeta : Scalar.isFinite beta = true) :
    FiniteProblem (hessenberg columns) (firstUnit beta) where
  matrix := by
    intro i j
    have hcolumn : ∀ a ∈ columns.getD j #[], Scalar.isFinite a = true := by
      rw [Array.getD_eq_getD_getElem?, Array.getElem?_eq_getElem j.isLt]
      exact h _ (Array.getElem_mem j.isLt)
    rw [hessenberg, Array.getD_eq_getD_getElem?]
    by_cases hi : i.val < (columns.getD j #[]).size
    · rw [Array.getElem?_eq_getElem hi]
      exact hcolumn _ (Array.getElem_mem hi)
    · rw [Array.getElem?_eq_none (Nat.le_of_not_lt hi)]
      exact hK.zero
  rhs := by
    intro i
    unfold firstUnit
    split
    · exact hbeta
    · exact hK.zero

/-! ## Steps -/

/-- What holds of a cycle after each step: the problem solved last is finite, its solution gives the
coefficients, and there is a finite basis vector for each of them. -/
structure Cycle.Sound (lsq : LeastSquares S) (finite : V → Prop) (beta : S) (c : Cycle V S) : Prop where
  problem : FiniteProblem (hessenberg c.columns) (firstUnit beta)
  coefficients_eq :
    c.coefficients = (lsq c.columns.size (hessenberg c.columns) (firstUnit beta)).toList
  size_le : c.columns.size ≤ c.basis.length
  basis : ∀ v ∈ c.basis.take c.columns.size, finite v

/-- What holds of a cycle between steps. -/
structure Cycle.Open (lsq : LeastSquares S) (finite : V → Prop) (beta : S) (c : Cycle V S) : Prop
    extends c.Sound lsq finite beta where
  columns : FiniteColumns c.columns
  length_eq : c.basis.length = c.columns.size + 1

theorem Cycle.start_open (hK : K.Propagates finite) (hbeta : Scalar.isFinite beta = true) (v : V)
    (spent : Nat) : (Cycle.start v beta spent).Open lsq finite beta where
  problem := FiniteColumns.problem nofun hK hbeta
  coefficients_eq := (List.eq_nil_of_length_eq_zero Vector.length_toList).symm
  size_le := Nat.zero_le _
  basis := nofun
  columns := nofun
  length_eq := rfl

theorem column_finite (hK : K.Propagates finite) {basis : List V}
    (h : Scalar.isFinite (K.length (project K u basis).1) = true) :
    (∀ v ∈ basis, finite v) ∧ ∀ a ∈ (project K u basis).2 ++ [K.length (project K u basis).1],
      Scalar.isFinite a = true := by
  obtain ⟨-, hbasis, hcomponents⟩ := hK.project (hK.length _ h)
  exact ⟨hbasis, List.forall_mem_append.mpr ⟨hcomponents, List.forall_mem_singleton.mpr h⟩⟩

/-- Whatever the operator answers, a step keeps the cycle sound. -/
theorem Answered.sound (hK : K.Propagates finite) (hbeta : Scalar.isFinite beta = true)
    (hc : c.Open lsq finite beta) {next : Option V} (h : Answered lsq K beta u c c' next) :
    c'.Sound lsq finite beta ∧ ∀ v ∈ next, c'.Open lsq finite beta := by
  have hsize : (c.answered lsq K beta u).columns.size = c.basis.length :=
    (Array.size_push _).trans hc.length_eq.symm
  have hcolumns : Scalar.isFinite (K.length (project K u c.basis).1) = true →
      FiniteColumns (c.answered lsq K beta u).columns :=
    fun hfinite => hc.columns.push (column_finite hK hfinite).2
  cases h with
  | notFinite => exact ⟨⟨hc.problem, hc.coefficients_eq, hc.size_le, hc.basis⟩, nofun⟩
  | last hfinite broke =>
    refine ⟨⟨(hcolumns hfinite).problem hK hbeta, rfl, hsize.le, fun v hv => ?_⟩, nofun⟩
    exact (column_finite hK hfinite).1 v (List.mem_of_mem_take hv)
  | next hfinite broke d =>
    have hlength : (c.basis ++ [K.scale (project K u c.basis).1 d]).length =
        (c.answered lsq K beta u).columns.size + 1 := by
      rw [List.length_append, List.length_singleton, hsize]
    have hsound : Cycle.Sound lsq finite beta
        { c.answered lsq K beta u with
          brokeDown := broke, basis := c.basis ++ [K.scale (project K u c.basis).1 d] } := by
      refine ⟨(hcolumns hfinite).problem hK hbeta, rfl, by simp only [hlength, Nat.le_succ], ?_⟩
      intro v hv
      rw [hsize, List.take_left] at hv
      exact (column_finite hK hfinite).1 v hv
    exact ⟨hsound, fun _ _ => ⟨hsound, hcolumns hfinite, hlength⟩⟩

theorem Grows.sound (hK : K.Propagates finite) (hbeta : Scalar.isFinite beta = true)
    {cs : List (Cycle V S)} (h : Grows lsq K beta c cs) (hc : c.Open lsq finite beta) :
    ∀ c' ∈ cs, c'.Sound lsq finite beta := by
  induction h with
  | nil => exact nofun
  | last u hanswered => exact List.forall_mem_singleton.mpr (hanswered.sound hK hbeta hc).1
  | cons u hanswered _ ih =>
    obtain ⟨hsound, hopen⟩ := hanswered.sound hK hbeta hc
    exact List.forall_mem_cons.mpr ⟨hsound, ih (hopen _ rfl)⟩

/-! ## Cycles -/

theorem Cycle.Sound.length_eq (h : c.Sound lsq finite beta) :
    c.coefficients.length = c.columns.size := by
  rw [h.coefficients_eq, Vector.length_toList]

theorem Cycle.Sound.coefficients_finite (h : c.Sound lsq finite beta) (hlsq : lsq.KeepsFinite) :
    ∀ a ∈ c.coefficients, Scalar.isFinite a = true := by
  intro a ha
  rw [h.coefficients_eq, Vector.mem_toList_iff] at ha
  exact hlsq _ _ _ h.problem a ha

/-- A cycle of a call, by what its steps have built, of which `last` is what is left at the end. -/
structure Round.Sound (lsq : LeastSquares S) (K : Backend S V) (finite : V → Prop) (ρ : Round V S)
    (built : List (Cycle V S)) (last : Cycle V S) : Prop where
  length_eq : built.length = ρ.steps
  grows : ∃ v spent, last = built.getLastD (Cycle.start v ρ.beta spent) ∧
    Grows lsq K ρ.beta (Cycle.start v ρ.beta spent) built
  sound : ∀ c ∈ built, c.Sound lsq finite ρ.beta
  /-- The unknown gets the combination of the first basis vectors that the last problem gives. -/
  finish_eq : ρ.finish =
    combination K ρ.start (last.basis.take last.columns.size) last.coefficients
  coefficients : lsq.KeepsFinite → ∀ a ∈ last.coefficients, Scalar.isFinite a = true
  /-- Without a column the unknown is left as it is. -/
  idle : last.columns.size = 0 → ρ.finish = ρ.start

omit [Scalar S] in
theorem combination_take (x : V) (vs : List V) (ys : List S) :
    combination K x (vs.take ys.length) ys = combination K x vs ys := by
  induction vs generalizing x ys with
  | nil => rw [List.take_nil]
  | cons v vs ih =>
    cases ys with
    | nil => rfl
    | cons y ys => exact ih _ ys

variable [Inhabited V] {ρ : Round V S}

theorem Round.Grown.sound (hK : K.Propagates finite) {store : Store V} {c : Cycle Ref S}
    (h : ρ.Grown lsq K target store c)
    (hfinish : c.columns.isEmpty = true ∧ ρ.finish = ρ.start ∨
      ¬c.columns.isEmpty = true ∧
        ρ.finish = combination K ρ.start (c.basis.map store.read) c.coefficients) :
    ρ.Sound lsq K finite (ρ.stages.map (·.valued store)) (c.valued store) := by
  obtain ⟨v, spent, hlast, hgrows⟩ := h.grows
  have hopen : ((Cycle.start v ρ.beta spent).valued store).Open lsq finite ρ.beta :=
    Cycle.start_open hK h.finite (store.read v) spent
  have hsound := hgrows.sound hK h.finite hopen
  have hc : (c.valued store).Sound lsq finite ρ.beta := by
    rw [hlast, ← getLastD_valued, List.getLastD_eq_getLast?]
    cases hbuilt : (ρ.stages.map (·.valued store)).getLast? with
    | none => exact hopen.toSound
    | some c' => exact hsound c' (List.mem_of_getLast? hbuilt)
  have hcombination : ρ.finish = combination K ρ.start
      ((c.valued store).basis.take c.columns.size) c.coefficients := by
    rcases hfinish with ⟨hempty, hidle⟩ | ⟨-, hclosed⟩
    · have hsize : c.columns.size = 0 := Array.isEmpty_iff_size_eq_zero.mp hempty
      rw [hidle, hsize]
      rfl
    · have hlength : c.coefficients.length = c.columns.size := hc.length_eq
      rw [hclosed, ← hlength, combination_take]
      rfl
  refine ⟨List.length_map _, ⟨store.read v, spent, ?_, hgrows⟩, hsound, hcombination,
    hc.coefficients_finite, ?_⟩
  · rw [hlast]
    exact (getLastD_valued _ _ _).symm
  · intro hsize
    have hnone : c.columns.size = 0 := hsize
    rw [hcombination, hnone]
    rfl

omit [Inhabited V] in
theorem Round.idle_sound (hstages : ρ.stages = []) (hfinish : ρ.finish = ρ.start) :
    ρ.Sound lsq K finite [] (Cycle.start ρ.start ρ.beta 0) where
  length_eq := (congrArg List.length hstages).symm
  grows := ⟨ρ.start, 0, rfl, .nil _⟩
  sound := nofun
  finish_eq := hfinish
  coefficients := nofun
  idle := fun _ => hfinish

theorem Round.Ran.sound (hK : K.Propagates finite) {exit : Option Exit}
    (h : ρ.Ran lsq K target exit) : ∃ built last, ρ.Sound lsq K finite built last := by
  cases h with
  | withinTolerance _ hstages hfinish => exact ⟨_, _, Round.idle_sound hstages hfinish⟩
  | notFinite _ hstages hfinish => exact ⟨_, _, Round.idle_sound hstages hfinish⟩
  | emptyCycle hgrown hempty hfinish => exact ⟨_, _, hgrown.sound hK (.inl ⟨hempty, hfinish⟩)⟩
  | closed hgrown hcolumns hfinish => exact ⟨_, _, hgrown.sound hK (.inr ⟨hcolumns, hfinish⟩)⟩

theorem Lead.sound (hK : K.Propagates finite) {x x' : V} {ρs : List (Round V S)}
    {exit : Option Exit} (h : Lead lsq K target x ρs exit x') :
    ∀ ρ ∈ ρs, ∃ built last, ρ.Sound lsq K finite built last := by
  induction h with
  | nil => exact nofun
  | last hran => exact List.forall_mem_singleton.mpr (hran.sound hK)
  | cons hran _ ih => exact List.forall_mem_cons.mpr ⟨hran.sound hK, ih⟩

end Values

/-! ## Another solver -/

section Congruence

variable [Inhabited V] [Scalar S] {p : LinearProblem V S R σ} {guard scratch : Set Ref}
variable {sup : Supply p.new (p.own guard scratch)} {s₀ s : Session V S R σ} {r w : Ref}
variable {finite : V → Prop} {lsq lsq' : LeastSquares S} {beta : S} {c : Cycle Ref S}
variable (g : Gmres S R) (target : S)

omit [Inhabited V] in
theorem withColumn_congr {B : Type} (hagree : lsq.AgreeOnFinite lsq') {c : Cycle B S}
    {column : List S}
    (h : FiniteProblem (hessenberg (c.columns.push column.toArray)) (firstUnit beta)) :
    c.withColumn lsq beta column = c.withColumn lsq' beta column := by
  unfold Cycle.withColumn
  simp only [hagree _ _ _ h]

/-- A step goes the same way with either solver: it hands out a finite problem or none. -/
theorem step_congr (hp : p.Framed guard scratch s₀) (hK : p.backend.Propagates finite)
    (hagree : lsq.AgreeOnFinite lsq') (hbeta : Scalar.isFinite beta = true) {v : Ref}
    (h : Building sup s₀ r w s c.basis s.outside) (hv : v ∈ c.basis)
    (hcolumns : FiniteColumns c.columns) :
    step g lsq p w beta target v c s = step g lsq' p w beta target v c s := by
  unfold step
  refine bind_run_congr fun _ s₁ hoperator => ?_
  have hwrote := (h.writes hp hv).run_ok hoperator
  obtain ⟨h₁, -⟩ := h.of_keeps hwrote.buffers_eq (hwrote.keeps.mono (h.subset_kept hp.placed))
  rw [bind_run_ok (p.lengthAt_run w s₁), bind_run_ok (p.lengthAt_run w s₁)]
  have horthogonalise := orthogonalise_run p h₁.w_valid h₁.w_not_mem
  rw [bind_run_ok horthogonalise, bind_run_ok horthogonalise]
  rw [bind_run_ok (p.lengthAt_run w _), bind_run_ok (p.lengthAt_run w _)]
  rw [Session.store_write, Store.read_write_self h₁.w_valid]
  split
  · rfl
  · rename_i hfinite
    have hproblem := (hcolumns.push (column_finite hK (by simpa using hfinite)).2).problem hK hbeta
    have hsolved := withColumn_congr (c := { c with spent := c.spent + 1 }) hagree hproblem
    simp only [hsolved]

theorem stages_congr (hp : p.Framed guard scratch s₀) (hK : p.backend.Propagates finite)
    (hagree : lsq.AgreeOnFinite lsq') (hbeta : Scalar.isFinite beta = true) (count : Nat) {v : Ref}
    (h : Building sup s₀ r w s c.basis s.outside) (hv : v ∈ c.basis)
    (hopen : (c.valued s.store).Open lsq finite beta) :
    stages g lsq p w beta target count v c s = stages g lsq' p w beta target count v c s := by
  induction count generalizing v c s with
  | zero => rfl
  | succ count ih =>
    unfold stages
    split
    · have hlength : c.basis.length = c.columns.size + 1 :=
        (List.length_map _).symm.trans hopen.length_eq
      refine bind_run_eq (step_congr g target hp hK hagree hbeta h hv hopen.columns) ?_
      rintro ⟨c₁, next⟩ s₁ hstep
      obtain ⟨h₁, hbasis, -, ⟨u, hanswered⟩, -⟩ :=
        (step_framed g lsq beta target hp h hv hlength).run_ok hstep
      cases next with
      | none => rfl
      | some next =>
        have hmem : next ∈ c₁.basis := by
          rw [show c₁.basis = c.basis ++ [next] from hbasis]
          exact List.mem_append_right _ (List.mem_singleton_self next)
        have hopen₁ := (hanswered.sound hK hbeta hopen).2 _ rfl
        exact bind_run_eq (ih h₁ hmem hopen₁) fun _ _ _ => rfl
    · rfl

theorem cycleStages_congr (hp : p.Framed guard scratch s) (hK : p.backend.Propagates finite)
    (hagree : lsq.AgreeOnFinite lsq') (hbeta : Scalar.isFinite beta = true) {u : Unknown V σ}
    (h : Refining sup s₀ r w s u) (spent : Nat) :
    cycleStages g lsq p r w beta target spent s = cycleStages g lsq' p r w beta target spent s := by
  have hbuild : Building sup s r w s [] s.outside := h.outside_eq ▸ h.building
  obtain ⟨v, s₁, hnew, -, -, hgrow⟩ := hbuild.grow hp.placed
  have hfirst : p.new (basisName 0) s = .ok v s₁ := hnew
  unfold cycleStages
  rw [bind_run_ok hfirst, bind_run_ok hfirst]
  refine bind_run_congr fun d s₂ hreciprocal => ?_
  obtain rfl := Run.reciprocal_eq_ok hreciprocal
  have hscale := p.backend.scaleInto_run v r d (s := s₁)
  rw [bind_run_ok hscale, bind_run_ok hscale]
  refine bind_run_congr fun count s₃ hdemand => ?_
  obtain ⟨-, rfl⟩ := Run.demand_eq_ok hdemand
  obtain ⟨hbuild₁, -, -⟩ := hgrow (p.backend.scale (s₁.store.read r) d)
  refine bind_run_eq ?_ fun _ _ _ => rfl
  exact stages_congr g target hp hK hagree hbeta count (hbuild₁.outside_eq ▸ hbuild₁)
    (List.mem_singleton_self v) (Cycle.start_open hK hbeta _ spent)

theorem turn_congr (hp : p.Framed guard scratch s₀) (hK : p.backend.Propagates finite)
    (hagree : lsq.AgreeOnFinite lsq') {x : V} (h : Refining sup s₀ r w s ⟨x, s.outside⟩)
    (spent : Nat) : turn g lsq p r w target spent s = turn g lsq' p r w target spent s := by
  unfold turn
  refine bind_run_congr fun x' s' hcontents => ?_
  obtain ⟨rfl, rfl⟩ := EStateM.Result.ok.inj hcontents
  refine bind_run_congr fun _ s₁ hresidual => ?_
  obtain ⟨h₁, -⟩ := (residualInto_framed hp h).run_ok hresidual
  rw [bind_run_ok (p.lengthAt_run r s₁), bind_run_ok (p.lengthAt_run r s₁)]
  split
  · rfl
  split
  · rfl
  · rename_i hfinite
    refine bind_run_eq ?_ fun _ _ _ => rfl
    exact cycleStages_congr g target (hp.of_keeps h₁.keeps) hK hagree (by simpa using hfinite) h₁ spent

theorem rounds_congr (hp : p.Framed guard scratch s₀) (hK : p.backend.Propagates finite)
    (hagree : lsq.AgreeOnFinite lsq') {x : V} (h : Refining sup s₀ r w s ⟨x, s.outside⟩)
    (fuel spent : Nat) :
    rounds g lsq p r w target fuel spent s = rounds g lsq' p r w target fuel spent s := by
  induction fuel generalizing s x spent with
  | zero => rfl
  | succ fuel ih =>
    unfold rounds
    split
    · refine bind_run_eq (turn_congr g target hp hK hagree h spent) ?_
      rintro ⟨ρ, exit⟩ s₁ hturn
      obtain ⟨h₁, -⟩ := (turn_framed g lsq target hp h spent).run_ok hturn
      cases exit with
      | some exit => rfl
      | none => exact bind_run_eq (ih h₁ (spent + ρ.steps)) fun _ _ _ => rfl
    · rfl

/-- A call goes the same way with two solvers that give the same answers to finite problems. -/
theorem course_congr (sup : Supply p.new (p.own guard scratch)) (hp : p.Framed guard scratch s)
    (hready : sup.Ready s) (hK : p.backend.Propagates finite) (hagree : lsq.AgreeOnFinite lsq') :
    course g lsq p s = course g lsq' p s := by
  obtain ⟨r, w, s₁, s₂, hnew_r, hnew_w, -, h⟩ := Refining.opening sup hp.placed hready
  have hout : s₂.outside = s.outside := h.outside_eq
  unfold course
  rw [bind_run_ok hnew_r, bind_run_ok hnew_r, bind_run_ok hnew_w, bind_run_ok hnew_w,
    bind_run_ok (p.lengthAt_run p.rhs s₂), bind_run_ok (p.lengthAt_run p.rhs s₂)]
  split
  · rfl
  · refine bind_run_congr fun tol s₃ hdemand => ?_
    obtain ⟨-, rfl⟩ := Run.demand_eq_ok hdemand
    exact rounds_congr g _ hp hK hagree (hout ▸ h) g.maxiter 0

end Congruence

/-! ## Calls -/

section Calls

variable [Inhabited V] [Scalar S]
variable {p : LinearProblem V S R σ} {guard scratch : Set Ref} {s : Session V S R σ}
variable (g : Gmres S R) (lsq : LeastSquares S)

/-- Whatever the operator answers, a call hands only finite problems to its least-squares solver, so it
goes the same way with any solver that gives the same answers to these. Each cycle, also before a failure,
adds to the unknown the combination of its first basis vectors, all finite, that the last problem solved
gives, and nothing if there has been none. -/
theorem call_finite (sup : Supply p.new (p.own guard scratch)) (hp : p.Framed guard scratch s)
    (hready : sup.Ready s) {finite : V → Prop} (hK : p.backend.Propagates finite) :
    (∀ lsq', lsq.AgreeOnFinite lsq' → call g lsq p s = call g lsq' p s) ∧
    Ends
      (fun account s' => ∃ ρs, account = .of ρs account.exit ∧
        (∀ ρ ∈ ρs, ∃ built last, ρ.Sound lsq p.backend finite built last) ∧
        (account.exit = .zeroRhs ∧ ρs = [] ∧
            s'.store.read p.unknown =
              p.backend.scale (s.store.read p.unknown) (Scalar.ofNat 0) ∨
          ∃ target exit, Lead lsq p.backend target (s.store.read p.unknown) ρs exit
            (s'.store.read p.unknown)))
      (fun s' => ∃ ρs, (∀ ρ ∈ ρs, ∃ built last, ρ.Sound lsq p.backend finite built last) ∧
        ∃ target, Lead lsq p.backend target (s.store.read p.unknown) ρs none
          (s'.store.read p.unknown))
      (call g lsq p) s := by
  refine ⟨fun lsq' hagree => ?_, ?_⟩
  · have hcourse := course_congr g sup hp hready hK hagree
    rw [call_eq_course, call_eq_course, map_eq_pure_bind, map_eq_pure_bind]
    exact bind_run_eq hcourse fun _ _ _ => rfl
  obtain ⟨r, w, s₁, s₂, -, -, -, -, hcourse⟩ := course_framed g lsq sup hp hready
  rw [call_eq_course, map_eq_pure_bind]
  refine hcourse.bind_mono ?_ ?_
  · rintro s' ⟨-, -, ⟨hx, -⟩ | ⟨tol, -, ρs, vs, hlead, -⟩⟩
    · exact ⟨[], nofun, Scalar.ofNat 0, hx ▸ .nil _⟩
    · exact ⟨ρs, hlead.sound hK, _, hlead⟩
  · rintro ⟨ρs, exit⟩ s' ⟨-, -, -, ⟨hq, -, hx⟩ | ⟨tol, -, hled⟩⟩
    · cases hq
      exact Ends.of_ok rfl ⟨[], rfl, nofun, .inl ⟨rfl, rfl, hx⟩⟩
    obtain ⟨e, hlead, -⟩ := hled.exists_lead
    exact Ends.of_ok rfl ⟨ρs, rfl, hlead.sound hK, .inr ⟨_, e, hlead⟩⟩

end Calls

end Gmres

/-- What an operator may write whose answers are finite only near zero. -/
def overflowing (_ _ y : Vector Float 2) : Vector Float 2 := y.map (· * 1e300 * 1e300)

/-- An operator that answers with infinities does not reach the solver. -/
theorem Gmres.call_overflowing_finite :
    (∀ lsq', LeastSquares.minimumNorm.AgreeOnFinite lsq' →
      Gmres.call (R := Float) ⟨.ok 1e-10, .ok 2, 4, .ok 1e-12⟩ LeastSquares.minimumNorm
          (.sighted ((Component.plain Float).backend 2) overflowing) (.fresh #v[1, 2] #v[0, 0] []) =
        Gmres.call ⟨.ok 1e-10, .ok 2, 4, .ok 1e-12⟩ lsq'
          (.sighted ((Component.plain Float).backend 2) overflowing)
          (.fresh #v[1, 2] #v[0, 0] [])) ∧
      Ends
        (fun account s' => ∃ ρs : List (Gmres.Round _ _), account.cycles = ρs.length ∧
          ∀ ρ ∈ ρs, ∃ built last,
            Gmres.Round.Sound LeastSquares.minimumNorm ((Component.plain Float).backend 2)
              (fun v => ∀ i (h : i < 2), v[i].isFinite = true) ρ built last)
        (fun _ => True)
        (Gmres.call (R := Float) ⟨.ok 1e-10, .ok 2, 4, .ok 1e-12⟩ LeastSquares.minimumNorm
          (.sighted ((Component.plain Float).backend 2) overflowing))
        (.fresh #v[1, 2] #v[0, 0] []) := by
  obtain ⟨hcongr, hends⟩ := Gmres.call_finite (R := Float) ⟨.ok 1e-10, .ok 2, 4, .ok 1e-12⟩
    LeastSquares.minimumNorm (Supply.kept _ _)
    (LinearProblem.sighted_framed ((Component.plain Float).backend 2) overflowing #v[1, 2] #v[0, 0])
    (LinearProblem.sighted_ready _ _ _ _) (Component.plain_propagates 2)
  refine ⟨hcongr, hends.mono ?_ fun _ _ => trivial⟩
  rintro account s' ⟨ρs, haccount, hsound, -⟩
  exact ⟨ρs, congrArg Gmres.Account.cycles haccount, hsound⟩

end NewtonKrylov
