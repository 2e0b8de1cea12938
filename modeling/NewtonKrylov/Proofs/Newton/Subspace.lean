import NewtonKrylov.Proofs.LineSearch.Descent
import NewtonKrylov.Proofs.Newton.Passage
import NewtonKrylov.Proofs.Stiffness

/-!
# Runs within a subspace

`Newton.run_within`: over the real numbers, if a residual function maps a subspace into itself and a run
of GMRES starts in it, then in every session that the run passes through all the vectors that it works on
lie in the subspace: the iterate, the direction, the scratch vectors and the work vectors.

Every vector that is written is a combination of vectors of the subspace or a residual at one of them, and
a new vector is zero. What the least-squares solver and the norm answer does not matter, since they only
give coefficients; nor does how the search chooses its steps.
-/

namespace NewtonKrylov

open Run.Passage (action)

/-! ## Contents after an operation -/

namespace Store

variable {V : Type} [Inhabited V] {s : Store V} {v : V}

theorem read_write_cases (r r' : Ref) :
    (s.write r v).read r' = v ∨ (s.write r v).read r' = s.read r' := by
  by_cases hr : r = r'
  · subst hr
    by_cases hvalid : s.Valid r
    · exact .inl (read_write_self hvalid)
    · have hvalid' : s.cells.size ≤ r.index := Nat.not_lt.mp hvalid
      right
      simp [read, write, Array.getElem?_modify, Array.getElem?_eq_none hvalid']
  · exact .inr (read_write_of_ne hr)

theorem read_push_cases (name : String) (r : Ref) :
    (s.push name v).read r = v ∨ (s.push name v).read r = s.read r := by
  rcases Nat.lt_trichotomy r.index s.size with hlt | heq | hgt
  · exact .inr (read_push_of_valid hlt)
  · have hnext : r = s.next := congrArg Ref.mk heq
    exact .inl (hnext ▸ read_push_next)
  · have hvalid : s.cells.size ≤ r.index := hgt.le
    have hvalid' : (s.cells.push ⟨name, v⟩).size ≤ r.index := by
      rw [Array.size_push]
      exact hgt
    right
    simp only [read, push, Array.getElem?_eq_none hvalid, Array.getElem?_eq_none hvalid']

end Store

section Subspace

variable {d : Nat} {R σ : Type} {U : Submodule ℝ (EuclideanSpace ℝ (Fin d))} {own kept : Set Ref}
variable {n : Nat}

/-- All vectors of `own` lie in the subspace, and only vectors of `kept` are kept. New vectors are made
from reference `n` on. -/
def Conduct.within (U : Submodule ℝ (EuclideanSpace ℝ (Fin d))) (own kept : Set Ref) (n : Nat) :
    Conduct (Vector ℝ d) ℝ R σ where
  Holds s := n ≤ s.store.size ∧ (∀ r ∈ own, point (s.store.read r) ∈ U) ∧
    ∀ e ∈ s.buffers.entries, e.2 ∈ kept
  readable := own
  writable := own
  contents := {v | point v ∈ U}
  writable_subset := subset_rfl
  read_mem h hr := h.2.1 _ hr
  write {s r v} h hr hv := by
    refine ⟨⟨?_, fun r' hr' => ?_, h.2.2⟩, trivial⟩
    · rw [Session.store_write, Store.size_write]
      exact h.1
    · rw [Session.store_write]
      rcases Store.read_write_cases r r' (v := v) (s := s.store) with hread | hread
      · rw [hread]
        exact hv
      · rw [hread]
        exact h.2.1 r' hr'
  other h hstore hbuffers := by
    rw [hstore, hbuffers]
    exact ⟨h, trivial⟩

namespace Conduct

variable {K : Backend ℝ (Vector ℝ d)} {s : Session (Vector ℝ d) ℝ R σ}

theorem within_closed (hK : K.Exact point) : (within U own kept n : Conduct _ _ R σ).Closed K where
  addScaled {u v} c hu hv := by
    show point _ ∈ U
    rw [hK.addScaled_eq]
    exact U.add_mem hu (U.smul_mem c hv)
  addScaledWide {u v} c hu hv := by
    show point _ ∈ U
    rw [hK.addScaledWide_eq]
    exact U.add_mem hu (U.smul_mem c hv)
  scale {v} c hv := by
    show point _ ∈ U
    rw [hK.scale_eq]
    exact U.smul_mem c hv

theorem within_push (hzero : point (K.zero ()) = 0) (hs : (within U own kept n).Holds s)
    (name : String) : (within U own kept n).Holds (s.push name (K.zero ())) := by
  refine ⟨hs.1.trans (Nat.le_of_lt ?_), fun r hr => ?_, hs.2.2⟩
  · exact (Nat.lt_succ_self _).trans_eq Store.size_push.symm
  · show point ((s.store.push name _).read r) ∈ U
    rcases Store.read_push_cases name r (v := K.zero ()) (s := s.store) with hread | hread
    · rw [hread, hzero]
      exact U.zero_mem
    · rw [hread]
      exact hs.2.1 r hr

variable (hzero : point (K.zero ()) = 0) (hown : ∀ r : Ref, n ≤ r.index → r ∈ own)
include hzero hown

theorem within_new (name : String) (hs : (within U own kept n).Holds s) :
    (action (K.new name)).Obeys (within U own kept n) (fun r _ => r ∈ own) s :=
  .action (Ends.of_ok (K.new_run name) ⟨hown _ hs.1, within_push hzero hs name, trivial⟩)

theorem within_grants (name : String) (hs : (within U own own n).Holds s) :
    (action (Run.keptAs K.new name)).Obeys (within U own own n) (fun r _ => r ∈ own ∧ True) s := by
  refine hs.keptAs (fun r hfind => ⟨hs.2.2 _ (Buffers.mem_of_find? hfind), trivial⟩) fun _ => ?_
  have hnext := hown _ hs.1
  obtain ⟨hsize, hreads, hkept⟩ := within_push hzero hs name
  refine ⟨⟨hnext, trivial⟩, ⟨hsize, hreads, ?_⟩, trivial⟩
  simp only [Session.keep, Buffers.insert, List.forall_mem_append, List.forall_mem_singleton]
  exact ⟨hkept, hnext⟩

end Conduct

/-! ## Whole runs -/

namespace Newton

variable {P : NonlinearProblem (Vector ℝ d) ℝ R σ} {x : Ref} {given : Option Ref}
variable {s : Session (Vector ℝ d) ℝ R σ}

theorem opening_within (hK : P.backend.Exact point) (hzero : point (P.backend.zero ()) = 0)
    (hown : ∀ r : Ref, n ≤ r.index → r ∈ own) (hx : x ∈ own) (hgiven : ∀ dx ∈ given, dx ∈ own)
    (hs : (Conduct.within U own Set.univ n).Holds s) :
    (openingPassage P x given).Obeys (Conduct.within U own Set.univ n)
      (fun v s' => (v.1.residual ∈ own ∧ v.1.trial ⊆ own ∧ v.2 ∈ own) ∧ s'.buffers = {}) s := by
  have hnew {s : Session (Vector ℝ d) ℝ R σ} name
      (hs : (Conduct.within U own Set.univ n).Holds s) := Conduct.within_new hzero hown name hs
  have hallocate : (allocatePassage P.backend).Obeys (Conduct.within U own Set.univ n)
      (fun w _ => w.residual ∈ own ∧ w.trial ⊆ own) s := by
    refine .bind (hnew _ hs) fun residual s₁ hresidual hs₁ _ => ?_
    refine .bind (hnew _ hs₁) fun ahead s₂ hahead hs₂ _ => ?_
    refine .bind (hnew _ hs₂) fun behind s₃ hbehind hs₃ _ => ?_
    refine .bind (hnew _ hs₃) fun residualAhead s₄ hra hs₄ _ => ?_
    refine .bind (hnew _ hs₄) fun residualBehind s₅ hrb hs₅ _ => ?_
    refine hs₅.still rfl ⟨hresidual, ?_⟩
    rintro r (rfl | rfl | rfl | rfl)
    · exact hahead
    · exact hbehind
    · exact hra
    · exact hrb
  have hstart {s₁} (hs₁ : (Conduct.within U own Set.univ n).Holds s₁) :
      (startPassage P x given).Obeys (Conduct.within U own Set.univ n) (fun dx _ => dx ∈ own) s₁ := by
    cases given with
    | some dx => exact hs₁.still rfl (hgiven dx rfl)
    | none =>
      refine .bind (hnew "dx" hs₁) fun dx s₂ hdx hs₂ _ => ?_
      refine .bind (hs₂.scaleInto (Conduct.within_closed hK) hdx hx _) fun _ s₃ _ hs₃ _ => ?_
      exact hs₃.still rfl hdx
  refine .bind hallocate fun w s₁ hw hs₁ _ => .bind (hstart hs₁) fun dx s₂ hdx hs₂ _ => ?_
  have hreset : (action (modify fun s : Session (Vector ℝ d) ℝ R σ => { s with buffers := {} })).Obeys
      (Conduct.within U own Set.univ n) (fun _ s' => s'.buffers = {}) s₂ :=
    .action (Ends.of_ok rfl ⟨rfl, ⟨hs₂.1, hs₂.2.1, fun _ _ => trivial⟩, trivial⟩)
  exact .bind hreset fun _ s₃ hbuffers hs₃ _ => hs₃.still rfl ⟨⟨hw.1, hw.2, hdx⟩, hbuffers⟩

theorem allowed_within {w : Scratch} {dx : Ref} (hK : P.backend.Exact point)
    (hzero : point (P.backend.zero ()) = 0) (hown : ∀ r : Ref, n ≤ r.index → r ∈ own)
    (hf : ∀ old v o y o', point old ∈ U → point v ∈ U → P.residual old v o = .ok y o' → point y ∈ U)
    (hx : x ∈ own) (hdx : dx ∈ own) (hresidual : w.residual ∈ own) (htrial : w.trial ⊆ own) :
    Allowed (Conduct.within U own own n) P w x dx where
  closed := Conduct.within_closed hK
  respects := by
    intro old u o hold hu
    unfold Ends
    cases hrun : P.residual old u o with
    | ok y o' => exact hf old u o y o' hold hu hrun
    | error e o' => trivial
  grants hs _ := Conduct.within_grants hzero hown _ hs
  iterate := hx
  direction := hdx
  residual := hresidual
  trial := htrial

/-- The vectors that a run from `s` works on: the iterate, the direction, and all that it makes. -/
def working (x : Ref) (given : Option Ref) (s : Session (Vector ℝ d) ℝ R σ) : Set Ref :=
  {r | r = x ∨ r ∈ given ∨ ¬ s.store.Valid r}

theorem within_of_start (hx : point (s.store.read x) ∈ U)
    (hgiven : ∀ dx ∈ given, point (s.store.read dx) ∈ U) :
    (Conduct.within U (working x given s) Set.univ s.store.size).Holds s := by
  refine ⟨le_rfl, ?_, fun _ _ => trivial⟩
  rintro r (rfl | hr | hr)
  · exact hx
  · exact hgiven r hr
  · have hdefault : s.store.read r = default := by
      simp [Store.read, Array.getElem?_eq_none (Nat.not_lt.mp hr)]
    rw [hdefault, point_default]
    exact U.zero_mem

variable [Magnitude R] {M : Method (Vector ℝ d) ℝ R σ} {g : Gmres ℝ R} {lsq : LeastSquares ℝ}
variable {q : Inquiry ℝ R (Fault R) σ} {notify : Option (R → Nat → Run (Vector ℝ d) ℝ R σ Bool)}

/-- A run that starts in a subspace, of a residual function that stays in it, stays in it. -/
theorem run_within (hP : P.backend = (Component.plain ℝ).backend d)
    (hf : ∀ old v o y o', point old ∈ U → point v ∈ U → P.residual old v o = .ok y o' → point y ∈ U)
    (hsolver : M.solver = g.solve lsq)
    (hsearch : ∀ profile, M.search profile M.reach = q.run Run.turn profile) (hquiet : Quiet notify)
    (hx : point (s.store.read x) ∈ U) (hgiven : ∀ dx ∈ given, point (s.store.read dx) ∈ U) :
    ∀ t ∈ (passage P notify x (.ofGmres hsolver hsearch) given).sessions s,
      ∀ r ∈ working x given s, point (t.store.read r) ∈ U := by
  have hK : P.backend.Exact point := hP ▸ Component.plain_exact d
  have hzero : point (P.backend.zero ()) = 0 := by
    rw [hP]
    exact point_zero
  have hown : ∀ r : Ref, s.store.size ≤ r.index → r ∈ working x given s := fun r hr =>
    .inr (.inr (Nat.not_lt.mpr hr))
  have hx_own : x ∈ working x given s := .inl rfl
  have hopening := opening_within hK hzero hown hx_own (fun dx hdx => .inr (.inl hdx))
    (within_of_start hx hgiven)
  have hobeys : (passage P notify x (.ofGmres hsolver hsearch) given).Obeys
      (Conduct.within U (working x given s) Set.univ s.store.size) (fun _ _ => True) s := by
    refine Run.Passage.Obeys.of_eq (.bind hopening fun v s₀ hv hs₀ _ => ?_) _
    obtain ⟨⟨hresidual, htrial, hdx⟩, hbuffers⟩ := hv
    have hallowed := allowed_within hK hzero hown hf hx_own hdx hresidual htrial
    have hs₀' : (Conduct.within U (working x given s) (working x given s) s.store.size).Holds s₀ :=
      ⟨hs₀.1, hs₀.2.1, by simp [hbuffers]⟩
    refine (onward_obeys hallowed ?_ hx_own hquiet hs₀').weaken ?_ fun _ _ _ => trivial
    · exact Method.Passages.obey_of_gmres hsolver hsearch (.of_may_ask g fun _ _ => trivial)
    · exact fun _ hs' => ⟨hs'.1, hs'.2.1, fun _ _ => trivial⟩
  exact fun t ht => (hobeys.holds t ht).1.2.1

end Newton

end Subspace

/-! ## The mirror symmetry of the Bratu problem -/

namespace Bratu

variable {n : Nat} {u : Vector ℝ n}

/-- The points that are their own mirror images. -/
def mirrored (n : Nat) : Submodule ℝ (EuclideanSpace ℝ (Fin n)) where
  carrier := {u | ∀ i, u i.rev = u i}
  add_mem' hu hv i := congrArg₂ (· + ·) (hu i) (hv i)
  zero_mem' _ := rfl
  smul_mem' c _ hu i := congrArg (c * ·) (hu i)

theorem mem_mirrored : point u ∈ mirrored n ↔ u.reverse = u := by
  constructor
  · intro h
    apply point_injective
    ext i
    exact (get_reverse u i).trans (h i)
  · intro h i
    exact (get_reverse u i).symm.trans (congrArg (Vector.get · i) h)

theorem residual_mirrored (exp : ℝ → ℝ) (hh lam : ℝ) (hu : point u ∈ mirrored n) :
    point (residual exp hh lam u) ∈ mirrored n := by
  rw [mem_mirrored] at hu ⊢
  rw [← residual_reverse, hu]

end Bratu

namespace Newton

/-- The problem on five points, over the real numbers. -/
noncomputable def bratuProblem : NonlinearProblem (Vector ℝ 5) ℝ Extended Unit where
  backend := (Component.plain ℝ).backend 5
  residual := Residual.whole fun u => pure (Bratu.residual Real.exp (Bratu.squaredWidth 5) 1 u)
  norm u := pure (.number ↑(((Component.plain ℝ).backend 5).meanSquare u))

noncomputable def bratuMethod : Method (Vector ℝ 5) ℝ Extended Unit where
  accepts _ := false
  maxiter := .ok 7
  reach := .upTo 1
  halfWidth := .ok 1
  solver := Gmres.solve ⟨.ok 0, .ok 5, 20, .ok 0⟩ LeastSquares.exact
  search := LineSearch.run ⟨.bisection, .ok 20⟩
  checkFinite := true

theorem bratuMethod_search (profile : ℝ → Run (Vector ℝ 5) ℝ Extended Unit Extended) :
    bratuMethod.search profile bratuMethod.reach =
      (LineSearch.inquiry ⟨.bisection, .ok 20⟩ (.upTo 1)).run Run.turn profile :=
  LineSearch.run_eq_inquiry ⟨.bisection, .ok 20⟩

def tentSession : Session (Vector ℝ 5) ℝ Extended Unit where
  store := ({} : Store (Vector ℝ 5)).push "x" #v[-1, 0, 1, 0, -1]
  outside := ()

theorem run_bratu_mirrored :
    point (tentSession.store.read ⟨0⟩) ∈ Bratu.mirrored 5 ∧
      ∀ t ∈ (passage bratuProblem none ⟨0⟩ (.ofGmres (M := bratuMethod) rfl bratuMethod_search)
          none).sessions tentSession,
        ∀ r ∈ working ⟨0⟩ none tentSession, point (t.store.read r) ∈ Bratu.mirrored 5 := by
  have hstart : point (tentSession.store.read ⟨0⟩) ∈ Bratu.mirrored 5 := by
    intro i
    fin_cases i
    all_goals rfl
  refine ⟨hstart, run_within rfl ?_ rfl bratuMethod_search (quiet_consult none) hstart nofun⟩
  rintro old u o y o' - hu hrun
  obtain ⟨rfl, -⟩ := EStateM.Result.ok.inj hrun
  exact Bratu.residual_mirrored Real.exp _ 1 hu

end Newton

end NewtonKrylov
