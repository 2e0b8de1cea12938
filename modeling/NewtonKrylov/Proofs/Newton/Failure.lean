import NewtonKrylov.Krylov.GmresOptions
import NewtonKrylov.Proofs.Newton.Passage
import NewtonKrylov.Proofs.Newton.Rounds

/-!
# What a run that fails leaves in the iterate

`Newton.run_failed`: a run that fails leaves the iterate where its complete rounds led it. The residual
function, the norm, the callback, the solver and the search may fail whenever they are called, GMRES may
divide by zero and a norm may be refused for not being finite. The solver and the search are only asked
to act through what they are handed (`Method.Passages.Handed`).

Between two steps of a run the iterate keeps to one conduct (`Conduct.holding`): a vector that is never
handed out holds given contents. Solver and search keep to it wherever they end, so there is no need to
know where in them a failure comes from.
-/

namespace NewtonKrylov

variable {V S R σ : Type} [Inhabited V]

open Run.Passage (action)

/-- The vector `x` holds `v` and is none of those that are kept. Everything else may be written. -/
def Conduct.holding (x : Ref) (v : V) : Conduct V S R σ where
  Holds s := s.store.read x = v ∧ s.store.Valid x ∧ ∀ e ∈ s.buffers.entries, e.2 ≠ x
  writable := {r | r ≠ x}
  write h hr _ := ⟨⟨(Store.read_write_of_ne hr).trans h.1, h.2.1.write _, h.2.2⟩, trivial⟩
  other h hstore hbuffers := by
    rw [hstore, hbuffers]
    exact ⟨h, trivial⟩

namespace Conduct

variable {x : Ref} {v : V} {s : Session V S R σ}

theorem holding_free : (holding x v : Conduct V S R σ).Free := ⟨rfl, rfl, fun _ _ => trivial⟩

theorem holding_grants (K : Backend S V) (name : String)
    (hs : (holding x v : Conduct V S R σ).Holds s) :
    (action (Run.keptAs K.new name)).Obeys (holding x v)
      (fun r _ => r ∈ (holding x v : Conduct V S R σ).writable ∧ True) s := by
  refine hs.keptAs (fun r hfind => ⟨hs.2.2 _ (Buffers.mem_of_find? hfind), trivial⟩) fun _ => ?_
  obtain ⟨hread, hvalid, hbuffers⟩ := hs
  have hnext := hvalid.ne_next.symm
  refine ⟨⟨hnext, trivial⟩, ⟨?_, hvalid.push name, ?_⟩, trivial⟩
  · exact (Store.read_push_of_valid hvalid).trans hread
  · simp only [Session.keep, Buffers.insert, List.forall_mem_append, List.forall_mem_singleton]
    exact ⟨hbuffers, hnext⟩

end Conduct

namespace Newton

variable [Scalar S] {P : NonlinearProblem V S R σ} {M : Method V S R σ} {T : M.Passages}
variable {notify : Option (R → Nat → Run V S R σ Bool)} {w : Scratch} {x dx : Ref} {v : V}
variable {s₀ s s' : Session V S R σ}

omit [Scalar S] in
theorem Laid.allowed (h : Laid w x dx s) (P : NonlinearProblem V S R σ) (v : V) :
    Allowed (Conduct.holding x v) P w x dx where
  closed := Conduct.closed_of_univ rfl P.backend
  respects := Conduct.respects_of_univ rfl P.residual
  grants hs _ := Conduct.holding_grants P.backend _ hs
  iterate := trivial
  direction := h.distinct.1.symm
  residual := h.distinct.2.1.symm
  trial _ hr hx := h.not_mem_trial.1 (hx ▸ hr)

omit [Scalar S] in
theorem Refilled.holding (h : Refilled w s s') (hx : w.residual ≠ x)
    (hs : (Conduct.holding x v).Holds s) : (Conduct.holding x v).Holds s' := by
  obtain ⟨y, hstore, hbuffers, -⟩ := h
  exact ((Conduct.holding x v).other ((Conduct.holding x v).write hs hx trivial).1 hstore hbuffers).1

variable [Magnitude R] {rs : List (Round V S R)} {k n : Nat} {e : Fault R}

/-- After complete rounds the iterate is where their steps lead. -/
theorem Rounds.holding (hT : T.Handed) (hquiet : Quiet notify) (hlaid : Laid w x dx s₀)
    (h₀ : (Conduct.holding x v).Holds s₀) (h : Rounds P M notify w x dx s₀ rs s) :
    (Conduct.holding x (walk P.backend v rs)).Holds s := by
  induction h with
  | start => exact h₀
  | @next rs s s₁ s₂ s₃ err alpha line h hheard haccepts hsolver hsearch ih =>
    have hallowed := hlaid.allowed P (walk P.backend v rs)
    have hT' := hT _ (Conduct.holding_free (x := x) (v := walk P.backend v rs))
    have h₁ := (hheard.refilled hquiet).holding hlaid.distinct.2.1.symm ih
    have h₂ := ((solver_obeys hallowed hT' h₁).leaves.run_ok hsolver).2.1
    obtain ⟨hread, hvalid, hbuffers⟩ := ((search_obeys hallowed hT' h₂).leaves.run_ok hsearch).2.1
    refine ⟨?_, hvalid.write _, hbuffers⟩
    rw [walk_concat, ← hread]
    exact Store.read_write_self hvalid

theorem Raises.read_eq (hT : T.Handed) (hquiet : Quiet notify) (hlaid : Laid w x dx s₀)
    (hs : (Conduct.holding x v).Holds s) (h : Raises P M notify w x dx k s e s') :
    s'.store.read x = v := by
  have hne := hlaid.distinct.2.1.symm
  have hallowed := hlaid.allowed P v
  have hT' := hT _ (Conduct.holding_free (x := x) (v := v))
  cases h with
  | measure hmeasure => exact (((measure_ends s).run_error hmeasure).1.holding hne hs).1
  | callback hmeasure hfinite hanswer =>
    have hrefilled := ((measure_ends s).run_ok hmeasure).1
    exact ((hrefilled.alike ((hquiet _ _ _).run_error hanswer)).holding hne hs).1
  | solver hheard haccepts hsolver =>
    have h₁ := (hheard.refilled hquiet).holding hne hs
    exact ((solver_obeys hallowed hT' h₁).leaves.run_error hsolver).1.1
  | search hheard haccepts hsolver hsearch =>
    have h₁ := (hheard.refilled hquiet).holding hne hs
    have h₂ := ((solver_obeys hallowed hT' h₁).leaves.run_ok hsolver).2.1
    exact ((search_obeys hallowed hT' h₂).leaves.run_error hsearch).1.1

/-- A run that fails does so before its first iteration, or in the iteration after its complete rounds,
and leaves the iterate where these led. -/
theorem run_failed (hT : T.Handed) (hquiet : Quiet notify) {given : Option Ref}
    (hx : s.store.Valid x) (hgiven : ∀ dx ∈ given, s.store.Valid dx ∧ x ≠ dx)
    (hrun : run P M notify x given s = .error e s') :
    M.maxiter = .error e ∧ s'.store.read x = s.store.read x ∨
      ∃ w dx s₀ n rs s₁, opening P x given s = .ok (w, dx) s₀ ∧ M.maxiter = .ok n ∧ rs.length < n ∧
        Rounds P M notify w x dx s₀ rs s₁ ∧
        (Exits P M notify w x n rs s₁ (.error e s') ∨
          Raises P M notify w x dx (rs.length + 1) s₁ e s') ∧
        s₁.store.read x = walk P.backend (s.store.read x) rs ∧
        s'.store.read x = walk P.backend (s.store.read x) rs := by
  obtain ⟨w, s₀, hopening, hopened⟩ := opening_run P hx hgiven
  have hread₀ := hopened.keeps.read_eq x hx
  cases hmax : M.maxiter with
  | error e' =>
    rw [run_of_opening P M notify hopening, hmax] at hrun
    obtain ⟨rfl, rfl⟩ := EStateM.Result.error.inj hrun
    exact .inl ⟨rfl, hread₀⟩
  | ok n =>
    refine .inr ?_
    have h₀ : (Conduct.holding x (s.store.read x)).Holds s₀ :=
      ⟨hread₀, hopened.keeps.valid hx, by simp [hopened.no_buffers]⟩
    rw [run_eq_reported notify hopening hmax] at hrun
    obtain ⟨rs, s₁, hrounds, hended⟩ :=
      iterations_rounds P M notify w x (directionAt given s) n s₀
    have h₁ := hrounds.holding hT hquiet hopened.laid h₀
    cases hiter : iterations P M notify w x (directionAt given s) n 0 none s₀ with
    | ok ending s₂ =>
      rw [hiter] at hrun
      exact nomatch hrun
    | error e₂ s₂ =>
      rw [hiter] at hrun hended
      obtain ⟨rfl, rfl⟩ := EStateM.Result.error.inj hrun
      rcases hended with hexits | ⟨hlt, _, _, hresult, hraises⟩
      · have hlt : rs.length < n := by
          cases hexits with
          | nonFinite hlt => exact hlt
        have hread := hexits.read_eq hquiet hopened.laid.distinct.2.1.symm
        exact ⟨w, _, s₀, n, rs, s₁, hopening, rfl, hlt, hrounds, .inl hexits, h₁.1, hread.trans h₁.1⟩
      · obtain ⟨rfl, rfl⟩ := EStateM.Result.error.inj hresult
        exact ⟨w, _, s₀, n, rs, s₁, hopening, rfl, hlt, hrounds, .inr hraises, h₁.1,
          hraises.read_eq hT hquiet hopened.laid h₁⟩

/-! ## A failure within a Krylov solve -/

/-- A residual function of one number that fails when it is asked for the eighth time. -/
def tiring (v : Vector Float 1) : Collab Float Nat (Vector Float 1) := fun n =>
  if n < 7 then .ok v (n + 1) else .error (.collaborator "tired") n

def tiringProblem : NonlinearProblem (Vector Float 1) Float Float Nat where
  backend := (Component.plain Float).backend 1
  residual := Residual.whole tiring
  norm v := pure (((Component.plain Float).backend 1).meanSquare v)

/-- Half steps along the directions of GMRES. -/
def halfMethod : Method (Vector Float 1) Float Float Nat where
  accepts _ := false
  maxiter := .ok 2
  reach := .upTo 0.5
  halfWidth := .ok 0.5
  solver := GmresOptions.solver {}
  search := LineSearch.run ⟨.full, .ok 1⟩
  checkFinite := true

def restedSession : Session (Vector Float 1) Float Float Nat where
  store := (({} : Store (Vector Float 1)).push "x" #v[2]).push "dx" #v[2]
  outside := 0

/-- What a run that fails leaves in the first vector. -/
def spoils (r : EStateM.Result (Fault Float) (Session (Vector Float 1) Float Float Nat)
    (Ending Float)) : Option (Vector Float 1) :=
  match r with
  | .error _ s => some (s.store.read ⟨0⟩)
  | .ok _ _ => none

/-- In the second iteration the residual function fails behind the iterate, in the first step of GMRES.
The run leaves the iterate after one half step. -/
theorem run_tiring_failed :
    ∃ e s', run tiringProblem halfMethod none ⟨0⟩ (some ⟨1⟩) restedSession = .error e s' ∧
      s'.store.read ⟨0⟩ = #v[1] ∧
      ∃ w dx s₀ rs s₁, opening tiringProblem ⟨0⟩ (some ⟨1⟩) restedSession = .ok (w, dx) s₀ ∧
        rs.length < 2 ∧ Rounds tiringProblem halfMethod none w ⟨0⟩ dx s₀ rs s₁ ∧
        s'.store.read ⟨0⟩ = walk tiringProblem.backend #v[2] rs := by
  have hspoils : spoils (run tiringProblem halfMethod none ⟨0⟩ (some ⟨1⟩) restedSession) =
      some #v[1] := by decide +kernel
  cases hrun : run tiringProblem halfMethod none ⟨0⟩ (some ⟨1⟩) restedSession with
  | ok ending s' =>
    rw [hrun] at hspoils
    exact nomatch hspoils
  | error e s' =>
    rw [hrun] at hspoils
    have hhanded := Method.Passages.handed_of_gmres (M := halfMethod) rfl
      fun _ => LineSearch.run_eq_inquiry (S := Float) (R := Float) ⟨.full, .ok 1⟩
    rcases run_failed hhanded (quiet_consult none) (s := restedSession) Nat.zero_lt_two
      (given_second Nat.one_lt_two) hrun with ⟨hmax, -⟩ | ⟨w, dx, s₀, n, rs, s₁, hopening, hmax, hlt,
        hrounds, -, -, hread⟩
    · exact nomatch hmax
    · obtain rfl := Except.ok.inj hmax
      exact ⟨e, s', rfl, Option.some.inj hspoils, w, dx, s₀, rs, s₁, hopening, hlt, hrounds, hread⟩

end Newton

end NewtonKrylov
