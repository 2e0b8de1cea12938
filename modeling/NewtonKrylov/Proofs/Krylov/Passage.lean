import NewtonKrylov.Krylov.Gmres
import NewtonKrylov.Proofs.Passage

/-!
# The sessions that a call of GMRES passes through

The passages of GMRES are written along its functions, from those of the problem that it is handed
(`LinearProblem.Passages`). `Gmres.solve_obeys`: a call keeps to every conduct that the problem keeps to
and that lets work vectors be asked for in the order of GMRES (`Gmres.Ordered`), which is the two for
residuals first and then the basis, one vector after the other.
-/

namespace NewtonKrylov

variable {V S R σ : Type} [Inhabited V] [Scalar S]

open Run.Passage (action)

/-- Passages of what a linear problem hands to its solver. -/
structure LinearProblem.Passages (p : LinearProblem V S R σ) where
  new : ∀ name, Run.Passage (p.new name)
  operator : ∀ result v, Run.Passage (p.operator result v)

omit [Scalar S] in
/-- What a linear problem hands to its solver keeps to the conduct, which lets the right-hand side and
the unknown be written. -/
structure LinearProblem.Passages.Obey {p : LinearProblem V S R σ} (t : p.Passages)
    (C : Conduct V S R σ) : Prop where
  closed : C.Closed p.backend
  rhs : p.rhs ∈ C.writable
  unknown : p.unknown ∈ C.writable
  new : ∀ {s name}, C.Holds s → C.MayAsk s name →
    (t.new name).Obeys C (fun r s' => r ∈ C.writable ∧ C.Asked s' name) s
  operator : ∀ {s result v}, C.Holds s → result ∈ C.writable → v ∈ C.readable →
    (t.operator result v).Obeys C (fun _ _ => True) s

namespace Gmres

/-! ## Passages -/

section Passages

variable (g : Gmres S R) (lsq : LeastSquares S) {p : LinearProblem V S R σ} (t : p.Passages)

def orthogonalisePassage (p : LinearProblem V S R σ) (w : Ref) :
    ∀ vs, Run.Passage (orthogonalise p w vs)
  | [] => action (pure [])
  | v :: vs =>
    .bind (action (p.backend.dotAt w v)) fun h =>
      .bind (action (p.backend.addScaledWideInto w w v (-h))) fun _ =>
        .bind (orthogonalisePassage p w vs) fun hs => action (pure (h :: hs))

omit [Scalar S] in
def combinePassage (p : LinearProblem V S R σ) : ∀ vs ys, Run.Passage (combine p vs ys)
  | v :: vs, y :: ys =>
    .bind (action (p.backend.addScaledInto p.unknown p.unknown v y)) fun _ => combinePassage p vs ys
  | [], _ => action (pure ())
  | _ :: _, [] => action (pure ())

def stepPassage (w : Ref) (beta target : S) (v : Ref) (c : Cycle Ref S) :
    Run.Passage (step g lsq p w beta target v c) :=
  .bind (t.operator w v) fun _ =>
    .bind (action (p.lengthAt w)) fun _ =>
      .bind (orthogonalisePassage p w c.basis) fun _ =>
        .bind (action (p.lengthAt w)) fun h =>
          .ite (action (pure _)) <|
            .bind (action (Run.demand g.breakdownTol)) fun _ =>
              .ite (action (pure _)) <|
                .bind (t.new _) fun next =>
                  .bind (action (Run.reciprocal h)) fun d =>
                    .bind (action (p.backend.scaleInto next w d)) fun _ => action (pure _)

def stepsPassage (w : Ref) (beta target : S) :
    ∀ count v c, Run.Passage (steps g lsq p w beta target count v c)
  | 0, _, c => action (pure c)
  | count + 1, v, c =>
    .ite (.bind (stepPassage g lsq t w beta target v c) fun after => match after with
      | (c', some next) => stepsPassage w beta target count next c'
      | (c', none) => action (pure c')) (action (pure c))

def residualPassage (r : Ref) : Run.Passage (residualInto p r) :=
  .bind (t.operator r p.unknown) fun _ => action (p.backend.addScaledInto r p.rhs r _)

def cyclePassage (r w : Ref) (beta target : S) (spent : Nat) :
    Run.Passage (cycle g lsq p r w beta target spent) :=
  .bind (t.new (basisName 0)) fun v =>
    .bind (action (Run.reciprocal beta)) fun d =>
      .bind (action (p.backend.scaleInto v r d)) fun _ =>
        .bind (action (Run.demand g.restart)) fun count =>
          stepsPassage g lsq t w beta target count v _

def cyclesPassage (r w : Ref) (target : S) :
    ∀ fuel spent begun, Run.Passage (cycles g lsq p r w target fuel spent begun)
  | 0, _, _ => action (pure _)
  | fuel + 1, spent, begun =>
    .ite (.bind (residualPassage t r) fun _ =>
      .bind (action (p.lengthAt r)) fun beta =>
        .ite (action (pure _)) <| .ite (action (pure _)) <|
          .bind (cyclePassage g lsq t r w beta target spent) fun c =>
            .ite (action (pure _)) <|
              .bind (combinePassage p c.basis c.coefficients) fun _ =>
                .ite (action (pure _)) <| .ite (action (pure _)) <|
                  cyclesPassage r w target fuel c.spent (begun + 1)) (action (pure _))

def callPassage : Run.Passage (g.call lsq p) :=
  .bind (t.new "gmres_r") fun r =>
    .bind (t.new "gmres_w") fun w =>
      .bind (action (p.lengthAt p.rhs)) fun rhsLength =>
        .ite (.bind (action (p.backend.scaleInto p.unknown p.unknown _)) fun _ => action (pure _)) <|
          .bind (action (Run.demand g.tol)) fun tol =>
            cyclesPassage g lsq t r w (tol * rhsLength) g.maxiter 0 0

def solvePassage : Run.Passage (g.solve lsq p) :=
  .bind (callPassage g lsq t) fun _ => action (pure ())

end Passages

/-! ## Conduct -/

omit [Inhabited V] [Scalar S] in
/-- The vectors of a cycle have been handed out, and its last one is asked for under its name. -/
structure Cycle.Lent [Inhabited V] (C : Conduct V S R σ) (v : Ref) (c : Cycle Ref S)
    (s : Session V S R σ) : Prop where
  basis : ∀ r ∈ c.basis, r ∈ C.writable
  last : v ∈ C.writable
  asked : C.Asked s (basisName c.columns.size)

/-- The conduct lets work vectors be asked for in the order of GMRES. -/
structure Ordered (g : Gmres S R) (C : Conduct V S R σ) : Prop where
  first : ∀ {s}, C.Holds s → C.MayAsk s "gmres_r"
  second : ∀ {s}, C.Holds s → C.Asked s "gmres_r" → C.MayAsk s "gmres_w"
  start : ∀ {s}, C.Holds s → C.Asked s "gmres_w" → C.MayAsk s (basisName 0)
  next : ∀ {m j s}, g.restart = .ok m → j < m → C.Holds s → C.Asked s (basisName j) →
    C.MayAsk s (basisName (j + 1))

variable {g : Gmres S R} (lsq : LeastSquares S) {p : LinearProblem V S R σ} {t : p.Passages}
variable {C : Conduct V S R σ} {s : Session V S R σ} {r w v : Ref}

omit [Scalar S] in
theorem Ordered.of_may_ask (g : Gmres S R) (h : ∀ s name, C.MayAsk s name) : g.Ordered C :=
  ⟨fun _ => h _ _, fun _ _ => h _ _, fun _ _ => h _ _, fun _ _ _ _ => h _ _⟩

variable (ht : t.Obey C)
include ht

theorem orthogonalise_obeys (hw : w ∈ C.writable) {vs : List Ref} (hvs : ∀ r ∈ vs, r ∈ C.writable)
    (hs : C.Holds s) : (orthogonalisePassage p w vs).Obeys C (fun _ _ => True) s := by
  have hw' := C.writable_subset hw
  induction vs generalizing s with
  | nil => exact hs.still rfl trivial
  | cons v vs ih =>
    obtain ⟨hv, hvs⟩ := List.forall_mem_cons.mp hvs
    refine .bind (hs.dotAt p.backend w v) fun h s₁ _ hs₁ _ => ?_
    refine .bind (hs₁.addScaledWideInto ht.closed hw hw' (C.writable_subset hv) _) fun _ s₂ _ hs₂ _ => ?_
    exact .bind (ih hvs hs₂) fun _ _ _ hs₃ _ => hs₃.still rfl trivial

omit [Scalar S] in
theorem combine_obeys {vs : List Ref} (hvs : ∀ r ∈ vs, r ∈ C.writable) (ys : List S)
    (hs : C.Holds s) : (combinePassage p vs ys).Obeys C (fun _ _ => True) s := by
  induction vs generalizing s ys with
  | nil => exact hs.still rfl trivial
  | cons v vs ih =>
    obtain ⟨hv, hvs⟩ := List.forall_mem_cons.mp hvs
    cases ys with
    | nil => exact hs.still rfl trivial
    | cons y ys =>
      have hunknown := C.writable_subset ht.unknown
      refine .bind (hs.addScaledInto ht.closed ht.unknown hunknown (C.writable_subset hv) y) ?_
      exact fun _ s₁ _ hs₁ _ => ih hvs ys hs₁

theorem step_obeys (hw : w ∈ C.writable) (beta target : S) {c : Cycle Ref S} (hc : c.Lent C v s)
    (hnext : ∀ {s'}, C.Holds s' → C.Asked s' (basisName c.columns.size) →
      C.MayAsk s' (basisName (c.columns.size + 1)))
    (hs : C.Holds s) :
    (stepPassage g lsq t w beta target v c).Obeys C
      (fun after s' => (∀ r ∈ after.1.basis, r ∈ C.writable) ∧ ∀ next, after.2 = some next →
        after.1.columns.size = c.columns.size + 1 ∧ after.1.Lent C next s') s := by
  refine .bind (ht.operator hs hw (C.writable_subset hc.last)) fun _ s₁ _ hs₁ hlater₁ => ?_
  refine .bind (hs₁.lengthAt p w) fun before s₂ _ hs₂ hlater₂ => ?_
  refine .bind (orthogonalise_obeys ht hw hc.basis hs₂) fun projections s₃ _ hs₃ hlater₃ => ?_
  refine .bind (hs₃.lengthAt p w) fun h s₄ _ hs₄ hlater₄ => ?_
  refine .ite (fun _ => hs₄.still rfl ⟨hc.basis, nofun⟩) fun _ => ?_
  refine .bind (hs₄.demand g.breakdownTol) fun fraction s₅ _ hs₅ hlater₅ => ?_
  refine .ite (fun _ => hs₅.still rfl ⟨hc.basis, nofun⟩) fun _ => ?_
  have hcolumns : (c.columns.push (projections ++ [h]).toArray).size = c.columns.size + 1 :=
    Array.size_push _
  have hlater := C.trans (C.trans hlater₁ (C.trans hlater₂ hlater₃)) (C.trans hlater₄ hlater₅)
  have hask := hnext hs₅ (C.asked_later hc.asked hlater)
  refine .bind (ht.new hs₅ (hcolumns ▸ hask)) fun next s₆ hnew hs₆ _ => ?_
  refine .bind (hs₆.reciprocal h) fun d s₇ _ hs₇ hlater₇ => ?_
  refine .bind (hs₇.scaleInto ht.closed hnew.1 (C.writable_subset hw) d) fun _ s₈ _ hs₈ hlater₈ => ?_
  have hbasis : ∀ r ∈ c.basis ++ [next], r ∈ C.writable :=
    List.forall_mem_append.mpr ⟨hc.basis, List.forall_mem_singleton.mpr hnew.1⟩
  refine hs₈.still rfl ⟨hbasis, fun next' hsome => ?_⟩
  obtain rfl := Option.some.inj hsome
  exact ⟨hcolumns, hbasis, hnew.1, C.asked_later hnew.2 (C.trans hlater₇ hlater₈)⟩

variable (hg : g.Ordered C)
include hg

theorem steps_obeys {m : Nat} (hrestart : g.restart = .ok m) (hw : w ∈ C.writable)
    (beta target : S) {count : Nat} {c : Cycle Ref S} (hcount : c.columns.size + count ≤ m)
    (hc : c.Lent C v s) (hs : C.Holds s) :
    (stepsPassage g lsq t w beta target count v c).Obeys C
      (fun c' _ => ∀ r ∈ c'.basis, r ∈ C.writable) s := by
  induction count generalizing v c s with
  | zero => exact hs.still rfl hc.basis
  | succ count ih =>
    refine .ite (fun _ => ?_) fun _ => hs.still rfl hc.basis
    have hstep := step_obeys (g := g) lsq ht hw beta target hc (hg.next hrestart (by omega)) hs
    refine .bind hstep fun after s₁ hafter hs₁ _ => ?_
    obtain ⟨c', _ | next⟩ := after
    · exact hs₁.still rfl hafter.1
    · obtain ⟨hsize, hlent⟩ := hafter.2 next rfl
      exact ih (by rw [hsize]; omega) hlent hs₁

omit hg in
theorem residualInto_obeys (hr : r ∈ C.writable) (hs : C.Holds s) :
    (residualPassage t r).Obeys C (fun _ _ => True) s := by
  refine .bind (ht.operator hs hr (C.writable_subset ht.unknown)) fun _ s₁ _ hs₁ _ => ?_
  exact hs₁.addScaledInto ht.closed hr (C.writable_subset ht.rhs) (C.writable_subset hr) _

theorem cycle_obeys (hr : r ∈ C.writable) (hw : w ∈ C.writable) (hasked : C.Asked s "gmres_w")
    (beta target : S) (spent : Nat) (hs : C.Holds s) :
    (cyclePassage g lsq t r w beta target spent).Obeys C
      (fun c' _ => ∀ r ∈ c'.basis, r ∈ C.writable) s := by
  refine .bind (ht.new hs (hg.start hs hasked)) fun v s₁ hv hs₁ _ => ?_
  refine .bind (hs₁.reciprocal beta) fun d s₂ _ hs₂ hlater₂ => ?_
  refine .bind (hs₂.scaleInto ht.closed hv.1 (C.writable_subset hr) d) fun _ s₃ _ hs₃ hlater₃ => ?_
  refine .bind (hs₃.demand g.restart) fun m s₄ hrestart hs₄ hlater₄ => ?_
  have hstart : (Cycle.start v beta spent).Lent C v s₄ :=
    ⟨List.forall_mem_singleton.mpr hv.1, hv.1,
      C.asked_later hv.2 (C.trans hlater₂ (C.trans hlater₃ hlater₄))⟩
  exact steps_obeys lsq ht hg hrestart hw beta target (Nat.zero_add m).le hstart hs₄

theorem cycles_obeys (hr : r ∈ C.writable) (hw : w ∈ C.writable) (hasked : C.Asked s "gmres_w")
    (target : S) (fuel spent begun : Nat) (hs : C.Holds s) :
    (cyclesPassage g lsq t r w target fuel spent begun).Obeys C (fun _ _ => True) s := by
  induction fuel generalizing spent begun s with
  | zero => exact hs.still rfl trivial
  | succ fuel ih =>
    refine .ite (fun _ => ?_) fun _ => hs.still rfl trivial
    refine .bind (residualInto_obeys ht hr hs) fun _ s₁ _ hs₁ hlater₁ => ?_
    refine .bind (hs₁.lengthAt p r) fun beta s₂ _ hs₂ hlater₂ => ?_
    refine .ite (fun _ => hs₂.still rfl trivial) fun _ => ?_
    refine .ite (fun _ => hs₂.still rfl trivial) fun _ => ?_
    have hasked₂ := C.asked_later hasked (C.trans hlater₁ hlater₂)
    refine .bind (cycle_obeys lsq ht hg hr hw hasked₂ beta target spent hs₂) fun c s₃ hc hs₃ hlater₃ => ?_
    refine .ite (fun _ => hs₃.still rfl trivial) fun _ => ?_
    refine .bind (combine_obeys ht hc c.coefficients hs₃) fun _ s₄ _ hs₄ hlater₄ => ?_
    refine .ite (fun _ => hs₄.still rfl trivial) fun _ => ?_
    refine .ite (fun _ => hs₄.still rfl trivial) fun _ => ?_
    exact ih (C.asked_later hasked₂ (C.trans hlater₃ hlater₄)) _ _ hs₄

theorem call_obeys (hs : C.Holds s) : (callPassage g lsq t).Obeys C (fun _ _ => True) s := by
  refine .bind (ht.new hs (hg.first hs)) fun r s₁ hr hs₁ _ => ?_
  refine .bind (ht.new hs₁ (hg.second hs₁ hr.2)) fun w s₂ hw hs₂ _ => ?_
  refine .bind (hs₂.lengthAt p p.rhs) fun rhsLength s₃ _ hs₃ hlater₃ => ?_
  have hunknown := C.writable_subset ht.unknown
  refine .ite (fun _ => ?_) fun _ => ?_
  · refine .bind (hs₃.scaleInto ht.closed ht.unknown hunknown _) fun _ s₄ _ hs₄ _ => ?_
    exact hs₄.still rfl trivial
  · refine .bind (hs₃.demand g.tol) fun tol s₄ _ hs₄ hlater₄ => ?_
    have hasked := C.asked_later hw.2 (C.trans hlater₃ hlater₄)
    exact cycles_obeys lsq ht hg hr.1 hw.1 hasked _ _ _ _ hs₄

theorem solve_obeys (hs : C.Holds s) : (solvePassage g lsq t).Obeys C (fun _ _ => True) s :=
  .bind (call_obeys lsq ht hg hs) fun _ _ _ hs₁ _ => hs₁.still rfl trivial

end Gmres

end NewtonKrylov
