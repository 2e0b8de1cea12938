import NewtonKrylov.Proofs.Krylov.Course
import NewtonKrylov.Proofs.Krylov.InPlace

/-!
# GMRES with an operator that writes its result only

An operator that writes `result`, and besides only `scratch` vectors of its own, may make what it
writes depend on anything: on stale contents, on the unknown, on how often it was called
(`LinearProblem.Framed`). Then a call follows no refinement on values. What still can be said is that
each step makes of the operator's answer what `Gmres.advance` makes of it (`Gmres.Answered`), and where
the operator is applied to what.

One lemma for each function of the recorded call says this, whether the function returns or fails
(`step_framed` to `course_framed`). What the operator is given is read off the record that it keeps
(`LinearProblem.Sees`).
-/

namespace NewtonKrylov

variable {V S R σ : Type}

section Operator

variable [Inhabited V]

/-! ## Operators that write their result only -/

/-- As long as the guarded vectors hold what they held in `s₀`, the operation writes its result and
scratch vectors only, wherever it ends. -/
def WritesResult (op : (result v : Ref) → Run V S R σ Unit) (guard scratch : Set Ref)
    (s₀ : Session V S R σ) : Prop :=
  ∀ s result v, s₀.Keeps guard s → s.store.Valid result → s.store.Valid v →
    result ∉ guard ∪ scratch → v ∉ scratch →
    Ends (fun _ s' => s.Wrote (insert result scratch) s' s'.outside)
      (fun s' => s.Wrote (insert result scratch) s' s'.outside) (op result v) s

/-- What the operation leaves in its result when it is applied at session `s`. -/
def answerAt (op : (result v : Ref) → Run V S R σ Unit) (result v : Ref) (s : Session V S R σ) :
    Collab R σ V := fun _ =>
  match op result v s with
  | .ok _ s' => .ok (s'.store.read result) s'.outside
  | .error e s' => .error e s'.outside

theorem answers_of_ends {op : (result v : Ref) → Run V S R σ Unit} {scratch : Set Ref}
    {result v : Ref} {s : Session V S R σ}
    (h : Ends (fun _ s' => s.Wrote (insert result scratch) s' s'.outside)
      (fun s' => s.Wrote (insert result scratch) s' s'.outside) (op result v) s) :
    Answers op (fun _ => answerAt op result v s) scratch result v s := by
  cases hop : op result v s with
  | ok u s' =>
    have hanswer : answerAt op result v s s.outside = .ok (s'.store.read result) s'.outside := by
      simp only [answerAt, hop]
    exact Follows.of_ok hop hanswer ⟨rfl, h.run_ok hop⟩
  | error e s' =>
    have hanswer : answerAt op result v s s.outside = .error e s'.outside := by
      simp only [answerAt, hop]
    exact Follows.of_error hop hanswer (h.run_error hop)

/-- An application as its caller makes it: where the result goes, what the operator is applied to, and
what the right-hand side and the unknown hold meanwhile. -/
structure Sight (V : Type) where
  result : Ref
  argument : Ref
  rhs : V
  unknown : V

namespace LinearProblem

variable {p : LinearProblem V S R σ} {guard scratch : Set Ref} {s s' s'' : Session V S R σ}
variable {new new' : List (Sight V)}

/-- The vectors of the problem are apart, and its operator writes its result only. -/
structure Framed (p : LinearProblem V S R σ) (guard scratch : Set Ref) (s : Session V S R σ) :
    Prop where
  writes : WritesResult p.operator guard scratch s
  rhs_mem : p.rhs ∈ guard
  placed : p.Placed guard scratch s

theorem Framed.of_keeps (h : p.Framed guard scratch s) (hkeeps : s.Keeps guard s') :
    p.Framed guard scratch s' where
  writes := fun t result v ht => h.writes t result v (hkeeps.trans ht)
  rhs_mem := h.rhs_mem
  placed := h.placed.of_keeps hkeeps

/-! ## What an operator sees -/

/-- The operator takes down every application, also one that fails. -/
def Sees (p : LinearProblem V S R σ) (sights : σ → List (Sight V)) : Prop :=
  ∀ result v s,
    Ends (fun _ s' => sights s'.outside =
        sights s.outside ++ [⟨result, v, s.store.read p.rhs, s.store.read p.unknown⟩])
      (fun s' => sights s'.outside =
        sights s.outside ++ [⟨result, v, s.store.read p.rhs, s.store.read p.unknown⟩])
      (p.operator result v) s

theorem Sees.answer {sights : σ → List (Sight V)} (hsees : p.Sees sights) (result v : Ref)
    (s : Session V S R σ) :
    Ends (fun _ o => sights o =
        sights s.outside ++ [⟨result, v, s.store.read p.rhs, s.store.read p.unknown⟩])
      (fun o => sights o =
        sights s.outside ++ [⟨result, v, s.store.read p.rhs, s.store.read p.unknown⟩])
      (answerAt p.operator result v s) s.outside := by
  have hseen := hsees result v s
  unfold answerAt Ends
  unfold Ends at hseen
  cases hrun : p.operator result v s with
  | ok u s' =>
    rw [hrun] at hseen
    exact hseen
  | error e s' =>
    rw [hrun] at hseen
    exact hseen

/-- From session `s` to session `s'` the operator is applied in just this way. -/
def Given (p : LinearProblem V S R σ) (s s' : Session V S R σ) (new : List (Sight V)) : Prop :=
  ∀ sights, p.Sees sights → sights s'.outside = sights s.outside ++ new

theorem Given.of_outside_eq (h : s'.outside = s.outside) : p.Given s s' [] :=
  fun sights _ => by rw [h, List.append_nil]

theorem Given.of_start (h : p.Given s' s'' new) (hout : s'.outside = s.outside) :
    p.Given s s'' new :=
  fun sights hp => by rw [h sights hp, hout]

theorem Given.trans (h : p.Given s s' new) (h' : p.Given s' s'' new') :
    p.Given s s'' (new ++ new') :=
  fun sights hp => by rw [h' sights hp, h sights hp, List.append_assoc]

end LinearProblem

end Operator

namespace Gmres

/-! ## Answers -/

section Values

variable [Scalar S] (lsq : LeastSquares S) (K : Backend S V)

/-- The cycle with the column that the operator's answer `u` gives. -/
def Cycle.answered (beta : S) (u : V) (c : Cycle V S) : Cycle V S :=
  Cycle.withColumn lsq beta { c with spent := c.spent + 1 }
    ((project K u c.basis).2 ++ [K.length (project K u c.basis).1])

/-- What a step makes of a cycle when the operator answers `u`. -/
inductive Answered (beta : S) (u : V) (c : Cycle V S) : Cycle V S → Option V → Prop
  /-- What is left of the answer has no finite length; it gives no column. -/
  | notFinite (h : Scalar.isFinite (K.length (project K u c.basis).1) = false) :
    Answered beta u c { c with spent := c.spent + 1, brokeDown := true } none
  | last (h : Scalar.isFinite (K.length (project K u c.basis).1) = true) (broke : Bool) :
    Answered beta u c { c.answered lsq K beta u with brokeDown := broke } none
  | next (h : Scalar.isFinite (K.length (project K u c.basis).1) = true) (broke : Bool) (d : S) :
    Answered beta u c
      { c.answered lsq K beta u with
        brokeDown := broke, basis := c.basis ++ [K.scale (project K u c.basis).1 d] }
      (some (K.scale (project K u c.basis).1 d))

/-- What the steps of a cycle build from `c`, whatever the operator answers. -/
inductive Grows (beta : S) : Cycle V S → List (Cycle V S) → Prop
  | nil (c : Cycle V S) : Grows beta c []
  | last {c c' : Cycle V S} (u : V) (h : Answered lsq K beta u c c' none) : Grows beta c [c']
  | cons {c c' : Cycle V S} {cs : List (Cycle V S)} (u : V) {v : V}
    (h : Answered lsq K beta u c c' (some v)) (hrest : Grows beta c' cs) : Grows beta c (c' :: cs)

variable {lsq K} {g : Gmres S R} {A : V → Collab R σ V} {beta target : S} {v u : V} {c c' : Cycle V S}
variable {next : Option V} {o o' : σ}

theorem Answered.basis_eq (h : Answered lsq K beta u c c' next) :
    c'.basis = c.basis ++ next.toList := by
  cases h with
  | notFinite => exact (List.append_nil _).symm
  | last => exact (List.append_nil _).symm
  | next => rfl

theorem advance_eq_ok (h : advance g lsq K A beta target v c o = .ok (c', next) o') :
    ∃ u, Answered lsq K beta u c c' next := by
  unfold advance at h
  obtain ⟨u, o₁, -, h⟩ := bind_eq_ok h
  refine ⟨u, ?_⟩
  dsimp only at h
  split at h
  · rename_i hfinite
    obtain ⟨heq, -⟩ := pure_eq_ok h
    cases heq
    exact .notFinite (by simpa using hfinite)
  rename_i hfinite
  obtain ⟨fraction, o₂, -, h⟩ := bind_eq_ok h
  split at h
  · obtain ⟨heq, -⟩ := pure_eq_ok h
    cases heq
    exact .last (by simpa using hfinite) _
  · obtain ⟨d, o₃, -, h⟩ := bind_eq_ok h
    obtain ⟨heq, -⟩ := pure_eq_ok h
    cases heq
    exact .next (by simpa using hfinite) _ d

theorem orFail_ends {α β : Type} {P : σ → Prop} (x : Except (Fault R) α) {f : α → Collab R σ β}
    (hP : P o) (hf : ∀ a, Ends (fun _ => P) P (f a) o) :
    Ends (fun _ => P) P (LineSearch.orFail x >>= f) o := by
  cases x with
  | ok a => exact hf a
  | error e => exact Ends.of_error rfl hP

theorem advance_ends {P : σ → Prop} (h : Ends (fun _ => P) P (A v) o) :
    Ends (fun _ => P) P (advance g lsq K A beta target v c) o := by
  unfold advance
  refine h.bind fun u o₁ hP => ?_
  refine Ends.ite (fun _ => Ends.of_ok rfl hP) fun _ => ?_
  refine orFail_ends _ hP fun fraction => ?_
  refine Ends.ite (fun _ => Ends.of_ok rfl hP) fun _ => ?_
  exact orFail_ends _ hP fun d => Ends.of_ok rfl hP

end Values

/-! ## Steps -/

/-- In a call that began at `s₀`, the vector `v` was handed out as the `j`-th basis vector. It is not
`w`, and no vector of the caller. -/
structure Operand (p : LinearProblem V S R σ) (guard scratch : Set Ref) [Inhabited V]
    (s₀ : Session V S R σ) (w : Ref) (j : Nat) (v : Ref) : Prop where
  requested : ∃ t t', s₀.Keeps guard t ∧ p.new (basisName j) t = .ok v t'
  ne : v ≠ w
  not_mem : v ∉ p.own guard scratch

variable [Inhabited V] [Scalar S] {p : LinearProblem V S R σ} {guard scratch : Set Ref}
variable {sup : Supply p.new (p.own guard scratch)} {s₀ s s' s'' : Session V S R σ} {r w : Ref}

omit [Scalar S] in
theorem Operand.of_keeps {j : Nat} {v : Ref} (h : Operand p guard scratch s w j v)
    (hkeeps : s₀.Keeps guard s) : Operand p guard scratch s₀ w j v where
  requested := h.requested.imp fun _ => Exists.imp fun _ ⟨ht, hnew⟩ => ⟨hkeeps.trans ht, hnew⟩
  ne := h.ne
  not_mem := h.not_mem

/-- From session `s` to session `s'` of a cycle that began at `s₀`, the operator is applied to the basis
vectors `vs`, from the `j`-th on, into `w`. -/
structure Walked (p : LinearProblem V S R σ) (guard scratch : Set Ref) [Inhabited V]
    (s₀ : Session V S R σ) (w : Ref) (s s' : Session V S R σ) (j : Nat) (vs : List Ref) : Prop where
  operand : ∀ e ∈ vs.zipIdx j, Operand p guard scratch s₀ w e.2 e.1
  given : p.Given s s' (vs.map fun v => ⟨w, v, s₀.store.read p.rhs, s₀.store.read p.unknown⟩)

omit [Scalar S] in
theorem Walked.nil (h : s'.outside = s.outside) (j : Nat) :
    Walked p guard scratch s₀ w s s' j [] where
  operand := nofun
  given := .of_outside_eq h

omit [Scalar S] in
theorem Walked.of_start {j : Nat} {vs : List Ref} (h : Walked p guard scratch s₀ w s' s'' j vs)
    (hout : s'.outside = s.outside) : Walked p guard scratch s₀ w s s'' j vs :=
  ⟨h.operand, h.given.of_start hout⟩

omit [Scalar S] in
theorem Walked.cons {j : Nat} {v : Ref} {vs : List Ref}
    (h : Walked p guard scratch s₀ w s' s'' (j + 1) vs) (hv : Operand p guard scratch s₀ w j v)
    (hgiven : p.Given s s' [⟨w, v, s₀.store.read p.rhs, s₀.store.read p.unknown⟩]) :
    Walked p guard scratch s₀ w s s'' j (v :: vs) where
  operand := by
    intro e he
    rw [List.zipIdx_cons, List.mem_cons] at he
    rcases he with rfl | he
    · exact hv
    · exact h.operand e he
  given := hgiven.trans h.given

omit [Scalar S] in
theorem Building.operand {basis : List Ref} {o : σ} (h : Building sup s₀ r w s basis o) {v : Ref}
    (hv : v ∈ basis) {t t' : Session V S R σ} (hkeeps : s₀.Keeps guard t) {j : Nat}
    (hnew : p.new (basisName j) t = .ok v t') : Operand p guard scratch s₀ w j v := by
  obtain ⟨name, hhas⟩ := h.exists_has hv
  exact ⟨⟨t, t', hkeeps, hnew⟩, fun e => h.w_not_mem (e ▸ hv), sup.not_mem hhas⟩

omit [Scalar S] in
theorem Building.writes {basis : List Ref} (h : Building sup s₀ r w s basis s.outside)
    (hp : p.Framed guard scratch s₀) {v : Ref} (hv : v ∈ basis) :
    Ends (fun _ s' => s.Wrote (insert w scratch) s' s'.outside)
      (fun s' => s.Wrote (insert w scratch) s' s'.outside) (p.operator w v) s := by
  obtain ⟨name, hhas⟩ := h.exists_has hv
  exact hp.writes s w v (h.keeps.mono (Set.subset_insert _ _)) h.w_valid (sup.valid hhas)
    (not_own_of_has h.has_w).2 fun hs => (not_own_of_has hhas).2 (.inr hs)

theorem Stepped.basis_eq {target : S} {c c' : Cycle Ref S} {next : Option Ref}
    (h : Stepped p w target c s' c' next) : c'.basis = c.basis ++ next.toList := by
  cases h with
  | notFinite => exact (List.append_nil _).symm
  | last _ hbasis => exact hbasis.trans (List.append_nil _).symm
  | grown _ hbasis => exact hbasis

variable (g : Gmres S R) (lsq : LeastSquares S) (beta target : S) {c : Cycle Ref S}

/-- A step makes something of what the operator answers, and applies it once. -/
theorem step_framed (hp : p.Framed guard scratch s₀) {v : Ref}
    (h : Building sup s₀ r w s c.basis s.outside) (hv : v ∈ c.basis)
    (hlength : c.basis.length = c.columns.size + 1) :
    Ends
      (fun q s' => Building sup s₀ r w s' q.1.basis s'.outside ∧
        q.1.basis = c.basis ++ q.2.toList ∧
        c.basis.map s'.store.read = c.basis.map s.store.read ∧
        (∃ u, Answered lsq p.backend beta u (c.valued s.store) (q.1.valued s'.store)
          (q.2.map s'.store.read)) ∧
        (∀ next ∈ q.2, q.1.basis.length = q.1.columns.size + 1 ∧
          Operand p guard scratch s₀ w c.basis.length next) ∧
        p.Given s s' [⟨w, v, s₀.store.read p.rhs, s₀.store.read p.unknown⟩])
      (fun s' => s₀.Keeps (insert p.unknown guard) s' ∧ sup.Ready s' ∧
        p.Given s s' [⟨w, v, s₀.store.read p.rhs, s₀.store.read p.unknown⟩])
      (step g lsq p w beta target v c) s := by
  have hanswers := answers_of_ends (h.writes hp hv)
  have hrhs := h.keeps.read_eq p.rhs (.inr hp.rhs_mem)
  have hunknown := h.keeps.read_eq p.unknown (Set.mem_insert _ _)
  rw [← hrhs, ← hunknown]
  have hfollows := step_answers g lsq beta target hp.placed h hlength hanswers
  rcases hfollows.cases with ⟨q, s', q', o', hstep, hadvance, hbuild, rfl, hnext⟩ |
    ⟨e, s', o', hstep, hadvance, hout, hkeeps, hready⟩
  · refine Ends.of_ok hstep ?_
    obtain ⟨c', next⟩ := q
    have hbasis := (step_eq_ok hstep).1.basis_eq
    obtain ⟨u, hanswered⟩ := advance_eq_ok hadvance
    refine ⟨hbuild.outside_eq ▸ hbuild, hbasis, ?_, ⟨u, hanswered⟩, ?_, fun sights hsees => ?_⟩
    · have hvalues : c'.basis.map s'.store.read = c.basis.map s.store.read ++ _ :=
        hanswered.basis_eq
      rw [hbasis, List.map_append] at hvalues
      exact (List.append_inj hvalues (by simp)).1
    · intro v' hv'
      obtain ⟨hmem, hlength', t, t', hkeeps, hnew⟩ := hnext v' hv'
      exact ⟨hlength', hbuild.operand hmem (hkeeps.mono (Set.subset_insert _ _)) hnew⟩
    · rw [hbuild.outside_eq]
      exact (advance_ends (P := fun o => sights o = _) (hsees.answer w v s)).run_ok hadvance
  · refine Ends.of_error hstep ⟨hkeeps, hready, fun sights hsees => ?_⟩
    rw [hout]
    exact (advance_ends (P := fun o => sights o = _) (hsees.answer w v s)).run_error hadvance

/-! ## Stages and cycles -/

omit [Scalar S] in
theorem Cycle.valued_eq {store store' : Store V}
    (h : c.basis.map store'.read = c.basis.map store.read) : c.valued store' = c.valued store := by
  rw [valued, valued, h]

omit [Scalar S] in
theorem getLastD_valued (cs : List (Cycle Ref S)) (c : Cycle Ref S) (store : Store V) :
    (cs.map (·.valued store)).getLastD (c.valued store) = (cs.getLastD c).valued store := by
  rw [List.getLastD_eq_getLast?, List.getLast?_map, List.getLastD_eq_getLast?]
  cases cs.getLast? with
  | none => rfl
  | some c => rfl

theorem stages_framed (hp : p.Framed guard scratch s₀) (count : Nat) {v : Ref} {before : List Ref}
    (h : Building sup s₀ r w s c.basis s.outside) (hv : c.basis = before ++ [v])
    (hlength : c.basis.length = c.columns.size + 1)
    (hoperand : Operand p guard scratch s₀ w before.length v) :
    Ends
      (fun cs s' => Building sup s₀ r w s' (cs.getLastD c).basis s'.outside ∧
        c.basis.map s'.store.read = c.basis.map s.store.read ∧
        c.basis <+: (cs.getLastD c).basis ∧
        Grows lsq p.backend beta (c.valued s'.store) (cs.map (·.valued s'.store)) ∧
        Walked p guard scratch s₀ w s s' before.length
          (((cs.getLastD c).basis.drop before.length).take cs.length))
      (fun s' => s₀.Keeps (insert p.unknown guard) s' ∧ sup.Ready s' ∧
        ∃ vs, Walked p guard scratch s₀ w s s' before.length vs)
      (stages g lsq p w beta target count v c) s := by
  induction count generalizing v c s before with
  | zero =>
    exact Ends.of_ok rfl ⟨h, rfl, List.prefix_rfl, .nil _, by simpa using Walked.nil rfl _⟩
  | succ count ih =>
    have hmem : v ∈ c.basis := by simp [hv]
    unfold stages
    refine Ends.ite (fun _ => ?_) fun _ =>
      Ends.of_ok rfl ⟨h, rfl, List.prefix_rfl, .nil _, by simpa using Walked.nil rfl _⟩
    refine (step_framed g lsq beta target hp h hmem hlength).bind_mono ?_ ?_
    · rintro s' ⟨hkeeps, hready, hgiven⟩
      exact ⟨hkeeps, hready, [v], (Walked.nil rfl _).cons hoperand hgiven⟩
    rintro ⟨c₁, next⟩ s₁ ⟨hbuild, hbasis, hread, ⟨u, hanswered⟩, hnext, hgiven⟩
    rw [← Cycle.valued_eq hread] at hanswered
    cases next with
    | none =>
      have hsame : c₁.basis = c.basis := hbasis.trans (List.append_nil _)
      refine Ends.of_ok rfl ⟨hbuild, hread, hbasis ▸ List.prefix_append _ _, .last u hanswered, ?_⟩
      have htake : (c₁.basis.drop before.length).take 1 = [v] := by simp [hsame, hv]
      have hrest : Walked p guard scratch s₀ w s₁ s₁ (before.length + 1) [] := .nil rfl _
      exact htake ▸ hrest.cons hoperand hgiven
    | some next =>
      obtain ⟨hlength₁, hoperand₁⟩ := hnext next rfl
      have hv₁ : c₁.basis = (before ++ [v]) ++ [next] := hbasis.trans (congrArg (· ++ [next]) hv)
      have hnumber : (before ++ [v]).length = c.basis.length := congrArg List.length hv.symm
      have hrest := ih hbuild hv₁ hlength₁ (hnumber ▸ hoperand₁)
      rw [List.length_append, List.length_singleton] at hrest
      refine hrest.bind_mono ?_ ?_
      · rintro s' ⟨hkeeps, hready, vs, hwalked⟩
        exact ⟨hkeeps, hready, v :: vs, hwalked.cons hoperand hgiven⟩
      rintro cs s' ⟨hbuild', hread', hprefix, hgrows, hwalked⟩
      have hread₁ : c.basis.map s'.store.read = c.basis.map s₁.store.read := by
        have hboth := hread'
        rw [hbasis, List.map_append, List.map_append] at hboth
        exact (List.append_inj hboth (by simp)).1
      rw [← Cycle.valued_eq hread₁, ← Cycle.valued_eq hread'] at hanswered
      obtain ⟨rest, hlast⟩ : before ++ [v] ++ [next] <+: (cs.getLastD c₁).basis := hv₁ ▸ hprefix
      have htake : ((cs.getLastD c₁).basis.drop before.length).take (cs.length + 1) =
          v :: ((cs.getLastD c₁).basis.drop (before.length + 1)).take cs.length := by
        rw [← hlast]
        simp
      refine Ends.of_ok rfl ?_
      rw [List.getLastD_cons, List.length_cons, htake]
      exact ⟨hbuild', hread₁.trans hread, (hbasis ▸ List.prefix_append _ _).trans hprefix,
        .cons u hanswered hgrows, hwalked.cons hoperand hgiven⟩

theorem cycleStages_framed (hp : p.Framed guard scratch s) {u : Unknown V σ}
    (h : Refining sup s₀ r w s u) (spent : Nat) :
    Ends
      (fun q s' => Building sup s r w s' (q.2.getLastD q.1).basis s'.outside ∧
        (∃ v, q.1 = Cycle.start v beta spent) ∧
        Grows lsq p.backend beta (q.1.valued s'.store) (q.2.map (·.valued s'.store)) ∧
        Walked p guard scratch s w s s' 0 ((q.2.getLastD q.1).basis.take q.2.length))
      (fun s' => s.Keeps (insert p.unknown guard) s' ∧ sup.Ready s' ∧
        ∃ vs, Walked p guard scratch s w s s' 0 vs)
      (cycleStages g lsq p r w beta target spent) s := by
  have hbuild : Building sup s r w s [] s.outside := h.outside_eq ▸ h.building
  obtain ⟨v, s₁, hnew, hall, h₁, hgrow⟩ := hbuild.grow hp.placed
  have hnone : Walked p guard scratch s w s s₁ 0 [] := .nil h₁.outside_eq 0
  unfold cycleStages
  refine Ends.skip hnew ?_
  rw [Run.reciprocal_eq]
  refine Run.demand_ends _ ⟨h₁.keeps, h₁.ready, [], hnone⟩ fun d => ?_
  refine Ends.skip (p.backend.scaleInto_run v r d) ?_
  obtain ⟨hbuild₁, -, -⟩ := hgrow (p.backend.scale (s₁.store.read r) d)
  generalize hs₂ : s₁.write v (p.backend.scale (s₁.store.read r) d) = s₂ at *
  have hout : s₂.outside = s.outside := hbuild₁.outside_eq
  refine Run.demand_ends g.restart ⟨hbuild₁.keeps, hbuild₁.ready, [], .nil hout 0⟩ fun count => ?_
  have hoperand := hbuild₁.operand (List.mem_singleton_self v) (Session.Keeps.refl guard s) hnew
  have hbasis : (Cycle.start v beta spent).basis = [] ++ [v] := rfl
  refine (stages_framed g lsq beta target hp count (hout ▸ hbuild₁) hbasis rfl hoperand).bind_mono
    ?_ ?_
  · rintro s' ⟨hkeeps, hready, vs, hwalked⟩
    exact ⟨hkeeps, hready, vs, hwalked.of_start hout⟩
  · rintro cs s' ⟨hbuild', -, -, hgrows, hwalked⟩
    exact Ends.of_ok rfl ⟨hbuild', ⟨v, rfl⟩, hgrows, hwalked.of_start hout⟩

/-! ## Cycles of a call -/

/-- A cycle as its operator sees it: what the unknown holds as long as it lasts, and the basis vectors
that the operator is applied to. -/
structure Visit (V : Type) where
  unknown : V
  applied : List Ref

/-- The applications of a cycle while the right-hand side holds `b`: the first one to the unknown `x`,
the others to basis vectors. -/
def Visit.sights (x r w : Ref) (b : V) (visit : Visit V) : List (Sight V) :=
  ⟨r, x, b, visit.unknown⟩ :: visit.applied.map fun v => ⟨w, v, b, visit.unknown⟩

def Round.visit (ρ : Round V S) : Visit V := ⟨ρ.start, ρ.applied⟩

/-- From session `s` to session `s'` of a call that began at `s₀`, the operator sees these cycles. -/
structure Attended (p : LinearProblem V S R σ) (guard scratch : Set Ref) (s₀ : Session V S R σ)
    (r w : Ref) (s s' : Session V S R σ) (visits : List (Visit V)) : Prop where
  operand : ∀ visit ∈ visits, ∀ e ∈ visit.applied.zipIdx, Operand p guard scratch s₀ w e.2 e.1
  given : p.Given s s' (visits.flatMap (Visit.sights p.unknown r w (s₀.store.read p.rhs)))

omit [Scalar S] in
theorem Attended.nil (h : s'.outside = s.outside) : Attended p guard scratch s₀ r w s s' [] where
  operand := nofun
  given := .of_outside_eq h

omit [Scalar S] in
theorem Attended.of_start {visits : List (Visit V)}
    (h : Attended p guard scratch s₀ r w s' s'' visits) (hout : s'.outside = s.outside) :
    Attended p guard scratch s₀ r w s s'' visits :=
  ⟨h.operand, h.given.of_start hout⟩

omit [Scalar S] in
theorem Attended.append {visits visits' : List (Visit V)}
    (h : Attended p guard scratch s₀ r w s s' visits)
    (h' : Attended p guard scratch s₀ r w s' s'' visits') :
    Attended p guard scratch s₀ r w s s'' (visits ++ visits') where
  operand := by
    intro visit hvisit
    rcases List.mem_append.mp hvisit with hvisit | hvisit
    · exact h.operand visit hvisit
    · exact h'.operand visit hvisit
  given := by
    rw [List.flatMap_append]
    exact h.given.trans h'.given

omit [Scalar S] in
theorem Walked.attended {x : V} {vs : List Ref} (h : Walked p guard scratch s w s s' 0 vs)
    (hunknown : s.store.read p.unknown = x) (hkeeps : s₀.Keeps guard s) (hrhs : p.rhs ∈ guard)
    {t : Session V S R σ} (hfirst : p.Given t s [⟨r, p.unknown, s₀.store.read p.rhs, x⟩]) :
    Attended p guard scratch s₀ r w t s' [⟨x, vs⟩] where
  operand := by
    intro visit hvisit e he
    obtain rfl := List.mem_singleton.mp hvisit
    exact (h.operand e he).of_keeps hkeeps
  given := by
    have hgiven := h.given
    rw [hunknown, hkeeps.read_eq p.rhs hrhs] at hgiven
    rw [List.flatMap_singleton]
    exact hfirst.trans hgiven

theorem residualInto_framed (hp : p.Framed guard scratch s₀) {x : V}
    (h : Refining sup s₀ r w s ⟨x, s.outside⟩) :
    Ends
      (fun _ s' => Refining sup s₀ r w s' ⟨x, s'.outside⟩ ∧
        p.Given s s' [⟨r, p.unknown, s₀.store.read p.rhs, x⟩])
      (fun s' => s₀.Keeps guard s' ∧ sup.Ready s' ∧ s'.store.read p.unknown = x ∧
        p.Given s s' [⟨r, p.unknown, s₀.store.read p.rhs, x⟩])
      (residualInto p r) s := by
  have hvalue : s.store.read p.unknown = x := h.value_eq
  have hop := hp.writes s r p.unknown h.keeps (sup.valid h.has_r)
    (h.keeps.valid hp.placed.unknown_valid) (not_own_of_has h.has_r).2
    fun hs => hp.placed.unknown_not_mem (.inr hs)
  have hfollows := residualInto_answers hp.placed hp.rhs_mem h (answers_of_ends hop)
  have hseen : ∀ sights, p.Sees sights → Ends
      (fun _ s' => sights s'.outside = sights s.outside ++ [⟨r, p.unknown, s₀.store.read p.rhs, x⟩])
      (fun s' => sights s'.outside = sights s.outside ++ [⟨r, p.unknown, s₀.store.read p.rhs, x⟩])
      (residualInto p r) s := by
    intro sights hsees
    have hoperator := hsees r p.unknown s
    rw [hvalue, h.keeps.read_eq p.rhs hp.rhs_mem] at hoperator
    exact hoperator.bind fun _ s₁ hs₁ => Ends.of_ok (p.backend.addScaledInto_run r p.rhs r _) hs₁
  rcases hfollows.cases with ⟨_, s', y, u', hrun, -, h', -, hx⟩ |
    ⟨e, s', u', hrun, -, ⟨hx', hout, hkeeps⟩, hready, hx⟩
  · refine Ends.of_ok hrun ⟨?_, fun sights hsees => (hseen sights hsees).run_ok hrun⟩
    have hu : u' = ⟨x, s'.outside⟩ := congrArg₂ Unknown.mk hx h'.outside_eq.symm
    exact hu ▸ h'
  · exact Ends.of_error hrun ⟨hkeeps, hready, hx'.trans hx,
      fun sights hsees => (hseen sights hsees).run_error hrun⟩

/-- A cycle that was not ended by a test of its residual: what its steps have built, with the basis
vectors read from a store, is `c` at the end. -/
structure Round.Grown (lsq : LeastSquares S) (K : Backend S V) (target : S) (ρ : Round V S)
    (store : Store V) (c : Cycle Ref S) : Prop where
  large : ¬Scalar.le ρ.beta target = true
  finite : Scalar.isFinite ρ.beta = true
  grows : ∃ v spent, c = ρ.stages.getLastD (Cycle.start v ρ.beta spent) ∧
    Grows lsq K ρ.beta ((Cycle.start v ρ.beta spent).valued store) (ρ.stages.map (·.valued store))

/-- What a cycle makes of the unknown, and how it ends the call, if it does. -/
inductive Round.Ran (lsq : LeastSquares S) (K : Backend S V) (target : S) (ρ : Round V S) :
    Option Exit → Prop
  | withinTolerance (hle : Scalar.le ρ.beta target = true) (hstages : ρ.stages = [])
    (hfinish : ρ.finish = ρ.start) : ρ.Ran lsq K target (some .withinTolerance)
  | notFinite (hfinite : Scalar.isFinite ρ.beta = false) (hstages : ρ.stages = [])
    (hfinish : ρ.finish = ρ.start) : ρ.Ran lsq K target (some .notFinite)
  | emptyCycle {store : Store V} {c : Cycle Ref S} (h : ρ.Grown lsq K target store c)
    (hempty : c.columns.isEmpty = true) (hfinish : ρ.finish = ρ.start) :
    ρ.Ran lsq K target (some .emptyCycle)
  | closed {store : Store V} {c : Cycle Ref S} (h : ρ.Grown lsq K target store c)
    (hcolumns : ¬c.columns.isEmpty = true)
    (hfinish : ρ.finish = combination K ρ.start (c.basis.map store.read) c.coefficients) :
    ρ.Ran lsq K target (c.exit target)

theorem close_framed (hp : p.Placed guard scratch s₀) {s₁ : Session V S R σ} {x : V}
    (h : Refining sup s₀ r w s ⟨x, s.outside⟩) (hbuild : Building sup s₁ r w s c.basis s.outside)
    (cs : List (Cycle Ref S)) :
    Ends
      (fun q s' => ∃ x', q.1 = ⟨x, beta, cs, x'⟩ ∧ Refining sup s₀ r w s' ⟨x', s'.outside⟩ ∧
        s'.outside = s.outside ∧
        (c.columns.isEmpty = true ∧ q.2 = some .emptyCycle ∧ x' = x ∨
          ¬c.columns.isEmpty = true ∧ q.2 = c.exit target ∧
            x' = combination p.backend x (c.basis.map s.store.read) c.coefficients))
      (fun _ => False) (close p target beta x c cs) s := by
  have hvalue : s.store.read p.unknown = x := h.value_eq
  unfold close
  refine Ends.ite (fun hempty => ?_) fun hcolumns => ?_
  · exact Ends.of_ok rfl ⟨x, rfl, h, rfl, .inl ⟨hempty, rfl, rfl⟩⟩
  · have hwritten := h.write_unknown hp
      (combination p.backend x (c.basis.map s.store.read) c.coefficients)
    refine Ends.skip (combine_run p (h.keeps.valid hp.unknown_valid) hbuild.unknown_not_mem) ?_
    rw [hvalue]
    refine Ends.skip (Run.contents_run p.unknown) ?_
    rw [hwritten.value_eq]
    exact Ends.of_ok rfl ⟨_, rfl, hwritten, rfl, .inr ⟨hcolumns, rfl, rfl⟩⟩

theorem turn_framed (hp : p.Framed guard scratch s₀) {x : V}
    (h : Refining sup s₀ r w s ⟨x, s.outside⟩) (spent : Nat) :
    Ends
      (fun q s' => Refining sup s₀ r w s' ⟨q.1.finish, s'.outside⟩ ∧ q.1.start = x ∧
        q.1.Ran lsq p.backend target q.2 ∧ Attended p guard scratch s₀ r w s s' [q.1.visit])
      (fun s' => s₀.Keeps guard s' ∧ sup.Ready s' ∧ s'.store.read p.unknown = x ∧
        ∃ vs, Attended p guard scratch s₀ r w s s' [⟨x, vs⟩])
      (turn g lsq p r w target spent) s := by
  have hvalue : s.store.read p.unknown = x := h.value_eq
  have hrhs := hp.rhs_mem
  unfold turn
  refine Ends.skip (Run.contents_run p.unknown) ?_
  rw [hvalue]
  refine (residualInto_framed hp h).bind_mono ?_ ?_
  · rintro s' ⟨hkeeps, hready, hx, hgiven⟩
    have hnone : Walked p guard scratch s' w s' s' 0 [] := .nil rfl 0
    exact ⟨hkeeps, hready, hx, [], hnone.attended hx hkeeps hrhs hgiven⟩
  rintro ⟨⟩ s₁ ⟨h₁, hgiven⟩
  have hx₁ : s₁.store.read p.unknown = x := h₁.value_eq
  have hnone : Walked p guard scratch s₁ w s₁ s₁ 0 [] := .nil rfl 0
  have hidle := hnone.attended hx₁ h₁.keeps hrhs hgiven
  refine Ends.skip (p.lengthAt_run r s₁) ?_
  generalize p.backend.length (s₁.store.read r) = beta
  refine Ends.ite (fun hle => ?_) fun hlarge => ?_
  · exact Ends.of_ok rfl ⟨h₁, rfl, .withinTolerance hle rfl rfl, hidle⟩
  refine Ends.ite (fun hfinite => ?_) fun hfinite => ?_
  · exact Ends.of_ok rfl ⟨h₁, rfl, .notFinite (by simpa using hfinite) rfl rfl, hidle⟩
  refine (cycleStages_framed g lsq beta target (hp.of_keeps h₁.keeps) h₁ spent).bind_mono ?_ ?_
  · rintro s' ⟨hkeeps, hready, vs, hwalked⟩
    have hx' : s'.store.read p.unknown = x :=
      (hkeeps.read_eq p.unknown (Set.mem_insert _ _)).trans hx₁
    exact ⟨h₁.keeps.trans (hkeeps.mono (Set.subset_insert _ _)), hready, hx', vs,
      hwalked.attended hx₁ h₁.keeps hrhs hgiven⟩
  rintro ⟨c₀, cs⟩ s₂ ⟨hbuild, ⟨v, rfl⟩, hgrows, hwalked⟩
  have h₂ : Refining sup s₀ r w s₂ ⟨x, s₂.outside⟩ := hbuild.refining h₁
  refine (close_framed beta target hp.placed h₂ hbuild cs).mono ?_ fun _ hE => hE.elim
  rintro ⟨_, exit⟩ s' ⟨x', rfl, h', hout, hclose⟩
  have hgrown : Round.Grown lsq p.backend target ⟨x, beta, cs, x'⟩ s₂.store
      (cs.getLastD (Cycle.start v beta spent)) :=
    ⟨hlarge, by simpa using hfinite, v, spent, rfl, hgrows⟩
  refine ⟨h', rfl, ?_, ?_⟩
  · rcases hclose with ⟨hempty, rfl, hfinish⟩ | ⟨hcolumns, rfl, hfinish⟩
    · exact .emptyCycle hgrown hempty hfinish
    · exact .closed hgrown hcolumns hfinish
  · have hvisit : Round.visit ⟨x, beta, cs, x'⟩ =
        ⟨x, (cs.getLastD (Cycle.start v beta spent)).basis.take cs.length⟩ :=
      congrArg (Visit.mk x) (Round.applied_eq ⟨x, beta, cs, x'⟩ (Cycle.start v beta spent))
    rw [hvisit]
    exact (hwalked.attended hx₁ h₁.keeps hrhs hgiven).append (.nil hout)

/-- The cycles of a call lead from one value of the unknown to another, and end the call, if they do. -/
inductive Lead (lsq : LeastSquares S) (K : Backend S V) (target : S) :
    V → List (Round V S) → Option Exit → V → Prop
  | nil (x : V) : Lead lsq K target x [] none x
  | last {ρ : Round V S} {exit : Exit} (h : ρ.Ran lsq K target (some exit)) :
    Lead lsq K target ρ.start [ρ] (some exit) ρ.finish
  | cons {ρ : Round V S} {ρs : List (Round V S)} {exit : Option Exit} {x : V}
    (h : ρ.Ran lsq K target none) (hrest : Lead lsq K target ρ.finish ρs exit x) :
    Lead lsq K target ρ.start (ρ :: ρs) exit x

/-- The cycles of a call that has ended with `exit` lead from `x` to `x'`: the last one has ended it, or the
budget is spent. -/
def Led (lsq : LeastSquares S) (K : Backend S V) (target : S) (x : V) (ρs : List (Round V S))
    (exit : Exit) (x' : V) : Prop :=
  exit = .budgetSpent ∧ Lead lsq K target x ρs none x' ∨ Lead lsq K target x ρs (some exit) x'

/-- What is left where the cycles of a call that began at `s₀` fail: the cycles gone through have led to
the unknown that is left, and one has just begun. -/
def Stuck (p : LinearProblem V S R σ) (guard scratch : Set Ref) (s₀ : Session V S R σ) (r w : Ref)
    (lsq : LeastSquares S) (target : S) (s : Session V S R σ) (x : V) (s' : Session V S R σ) : Prop :=
  ∃ ρs vs, Lead lsq p.backend target x ρs none (s'.store.read p.unknown) ∧
    Attended p guard scratch s₀ r w s s' (ρs.map Round.visit ++ [⟨s'.store.read p.unknown, vs⟩])

/-- Cycle after cycle, the operator is given the unknown and then basis vectors. -/
theorem rounds_framed (hp : p.Framed guard scratch s₀) {x : V}
    (h : Refining sup s₀ r w s ⟨x, s.outside⟩) (fuel spent : Nat) :
    Ends
      (fun q s' => ∃ x', Refining sup s₀ r w s' ⟨x', s'.outside⟩ ∧
        Led lsq p.backend target x q.1 q.2 x' ∧
        Attended p guard scratch s₀ r w s s' (q.1.map Round.visit))
      (fun s' => s₀.Keeps guard s' ∧ sup.Ready s' ∧
        Stuck p guard scratch s₀ r w lsq target s x s')
      (rounds g lsq p r w target fuel spent) s := by
  induction fuel generalizing s x spent with
  | zero => exact Ends.of_ok rfl ⟨x, h, .inl ⟨rfl, .nil x⟩, .nil rfl⟩
  | succ fuel ih =>
    unfold rounds
    refine Ends.ite (fun _ => ?_) fun _ => Ends.of_ok rfl ⟨x, h, .inl ⟨rfl, .nil x⟩, .nil rfl⟩
    refine (turn_framed g lsq target hp h spent).bind_mono ?_ ?_
    · rintro s' ⟨hkeeps, hready, rfl, vs, hattended⟩
      exact ⟨hkeeps, hready, [], vs, .nil _, hattended⟩
    rintro ⟨ρ, exit⟩ s₁ ⟨h₁, rfl, hran, hattended⟩
    cases exit with
    | some exit => exact Ends.of_ok rfl ⟨ρ.finish, h₁, .inr (.last hran), hattended⟩
    | none =>
      refine (ih h₁ (spent + ρ.steps)).bind_mono ?_ ?_
      · rintro s' ⟨hkeeps, hready, ρs, vs, hlead, hattended'⟩
        exact ⟨hkeeps, hready, ρ :: ρs, vs, .cons hran hlead, hattended.append hattended'⟩
      · rintro ⟨ρs, exit⟩ s' ⟨x', h', hlead, hattended'⟩
        refine Ends.of_ok rfl ⟨x', h', ?_, hattended.append hattended'⟩
        exact hlead.imp (And.imp_right (.cons hran)) (.cons hran)

/-- A call asks for two work vectors. It scales the unknown if the right-hand side has no length, and
goes through its cycles otherwise. -/
theorem course_framed (sup : Supply p.new (p.own guard scratch)) (hp : p.Framed guard scratch s)
    (hready : sup.Ready s) :
    ∃ r w s₁ s₂, p.new "gmres_r" s = .ok r s₁ ∧ p.new "gmres_w" s₁ = .ok w s₂ ∧
      r ∉ p.own guard scratch ∧ w ∉ p.own guard scratch ∧
      Ends
        (fun q s' => s.Keeps guard s' ∧ sup.Ready s' ∧
          Attended p guard scratch s r w s s' (q.1.map Round.visit) ∧
          (q = ([], .zeroRhs) ∧ Scalar.isZero (p.backend.length (s.store.read p.rhs)) = true ∧
              s'.store.read p.unknown =
                p.backend.scale (s.store.read p.unknown) (Scalar.ofNat 0) ∨
            ∃ tol, g.tol = .ok tol ∧
              Led lsq p.backend (tol * p.backend.length (s.store.read p.rhs))
                (s.store.read p.unknown) q.1 q.2 (s'.store.read p.unknown)))
        (fun s' => s.Keeps guard s' ∧ sup.Ready s' ∧
          (s'.store.read p.unknown = s.store.read p.unknown ∧
              Attended p guard scratch s r w s s' [] ∨
            ∃ tol, g.tol = .ok tol ∧ Stuck p guard scratch s r w lsq
              (tol * p.backend.length (s.store.read p.rhs)) s (s.store.read p.unknown) s'))
        (course g lsq p) s := by
  obtain ⟨r, w, s₁, s₂, hnew_r, hnew_w, hkeeps, h⟩ := Refining.opening sup hp.placed hready
  have hrhs : s₂.store.read p.rhs = s.store.read p.rhs :=
    hkeeps.read_eq _ (hp.placed.guard_valid _ hp.rhs_mem)
  have hout : s₂.outside = s.outside := h.outside_eq
  refine ⟨r, w, s₁, s₂, hnew_r, hnew_w, sup.not_mem h.has_r, sup.not_mem h.has_w, ?_⟩
  unfold course
  refine Ends.skip hnew_r (Ends.skip hnew_w (Ends.skip (p.lengthAt_run p.rhs s₂) ?_))
  rw [hrhs]
  refine Ends.ite (fun hzero => ?_) fun hlong => ?_
  · have hscaled := h.write_unknown hp.placed
      (p.backend.scale (s₂.store.read p.unknown) (Scalar.ofNat 0))
    refine Ends.skip (p.backend.scaleInto_run p.unknown p.unknown _) ?_
    refine Ends.of_ok rfl ⟨hscaled.keeps, hscaled.ready, .nil hout, .inl ⟨rfl, hzero, ?_⟩⟩
    rw [hscaled.value_eq, h.value_eq]
  cases htol : g.tol with
  | error e =>
    exact Ends.of_error rfl ⟨h.keeps, h.ready, .inl ⟨h.value_eq, .nil hout⟩⟩
  | ok tol =>
    have h₂ : Refining sup s r w s₂ ⟨s.store.read p.unknown, s₂.outside⟩ := hout ▸ h
    refine Ends.skip rfl ((rounds_framed g lsq _ hp h₂ g.maxiter 0).mono ?_ ?_)
    · rintro ⟨ρs, exit⟩ s' ⟨x', h', hlead, hattended⟩
      have hx' : s'.store.read p.unknown = x' := h'.value_eq
      exact ⟨h'.keeps, h'.ready, hattended.of_start hout, .inr ⟨tol, rfl, hx' ▸ hlead⟩⟩
    · rintro s' ⟨hkeeps', hready', ρs, vs, hlead, hattended⟩
      exact ⟨hkeeps', hready', .inr ⟨tol, rfl, ρs, vs, hlead, hattended.of_start hout⟩⟩

end Gmres

end NewtonKrylov
