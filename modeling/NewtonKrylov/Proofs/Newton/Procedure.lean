import NewtonKrylov.Proofs.Newton.Passage

/-!
# Krylov solvers as procedures

A `Procedure` is a Krylov solver that acts only through the problem it is handed: a tree that says which
work vector to ask for, which vector to read or write and what to apply the operator to, and for every
outcome how to go on. It may ask for any names in any order, survive a failure of the operator, fail at
any point and keep a state of its own, but it always ends.

A procedure owns vectors (`Procedure.Owns`) if it writes no others but those that it is given. One that
owns its right-hand side and its unknown keeps to every conduct that leaves open what is read and
written (`Procedure.handed`).
-/

namespace NewtonKrylov

variable {V S R σ : Type}

open Run.Passage (action)

/-- A Krylov solver by what it does next. -/
inductive Procedure (V R σ : Type) where
  | done
  | fail (e : Fault R)
  /-- Asks for a work vector and goes on with it. -/
  | request (name : String) (next : Ref → Procedure V R σ)
  | read (r : Ref) (next : V → Procedure V R σ)
  | write (r : Ref) (v : V) (next : Procedure V R σ)
  /-- Applies the operator and goes on with its failure, if it fails. -/
  | apply (result v : Ref) (next : Option (Fault R) → Procedure V R σ)
  /-- Changes its own state and goes on with what it was. -/
  | turn (change : σ → σ) (next : σ → Procedure V R σ)

/-- How a run went: its failure, if it failed. -/
def Run.attempt (x : Run V S R σ Unit) : Run V S R σ (Option (Fault R)) := fun s =>
  match x s with
  | .ok _ s' => .ok none s'
  | .error e s' => .ok (some e) s'

def Run.Passage.attempt {x : Run V S R σ Unit} (t : x.Passage) : (Run.attempt x).Passage where
  sessions := t.sessions
  ends s := by
    have hx := t.ends s
    unfold Ends Run.attempt at *
    cases hrun : x s with
    | ok a s' => simpa only [hrun] using hx
    | error e s' => simpa only [hrun] using hx

/-- A run whose failure is survived keeps to what it kept to. -/
theorem Run.Passage.Obeys.attempt [Inhabited V] {x : Run V S R σ Unit} {t : x.Passage}
    {C : Conduct V S R σ} {Q : Unit → Session V S R σ → Prop} {s : Session V S R σ}
    (h : t.Obeys C Q s) : t.attempt.Obeys C (fun _ _ => True) s := by
  refine ⟨h.holds, h.ordered, ?_⟩
  unfold Ends Run.attempt
  cases x s with
  | ok a s' => trivial
  | error e s' => trivial

namespace Procedure

/-- Only these vectors are written, and those that are asked for. -/
def Owns (own : Set Ref) : Procedure V R σ → Prop
  | done => True
  | fail _ => True
  | request _ next => ∀ r, (next r).Owns (insert r own)
  | read _ next => ∀ v, (next v).Owns own
  | write r _ next => r ∈ own ∧ next.Owns own
  | apply result _ next => result ∈ own ∧ ∀ e, (next e).Owns own
  | turn _ next => ∀ o, (next o).Owns own

variable [Inhabited V]

def run (p : LinearProblem V S R σ) : Procedure V R σ → Run V S R σ Unit
  | done => pure ()
  | fail e => throw e
  | request name next => p.new name >>= fun r => (next r).run p
  | read r next => Run.contents r >>= fun v => (next v).run p
  | write r v next => Run.overwrite r v >>= fun _ => next.run p
  | apply result v next => Run.attempt (p.operator result v) >>= fun e => (next e).run p
  | turn change next => Run.turn change >>= fun o => (next o).run p

def passage {p : LinearProblem V S R σ} (t : p.Passages) : ∀ q, Run.Passage (run p q)
  | done => action (pure ())
  | fail e => action (throw e)
  | request name next => .bind (t.new name) fun r => passage t (next r)
  | read r next => .bind (action (Run.contents r)) fun v => passage t (next v)
  | write r v next => .bind (action (Run.overwrite r v)) fun _ => passage t next
  | apply result v next => .bind (t.operator result v).attempt fun e => passage t (next e)
  | turn change next => .bind (action (Run.turn change)) fun o => passage t (next o)

/-- The procedure that is chosen by the right-hand side and the unknown. -/
def solver (q : (rhs unknown : Ref) → Procedure V R σ) : KrylovSolver V S R σ := fun p =>
  (q p.rhs p.unknown).run p

variable {C : Conduct V S R σ} {p : LinearProblem V S R σ} {t : p.Passages} {s : Session V S R σ}

theorem run_obeys (hC : C.Free) (ht : t.Obey C) {own : Set Ref} (hown : own ⊆ C.writable)
    {q : Procedure V R σ} (hq : q.Owns own) (hs : C.Holds s) :
    (passage t q).Obeys C (fun _ _ => True) s := by
  induction q generalizing own s with
  | done => exact hs.still rfl trivial
  | fail e => exact hs.fails rfl
  | request name next ih =>
    refine .bind (ht.new hs (hC.may_ask s name)) fun r s₁ hr hs₁ _ => ?_
    exact ih r (Set.insert_subset hr.1 hown) (hq r) hs₁
  | read r next ih =>
    exact .bind (hs.still (Q := fun _ _ => True) rfl trivial) fun v _ _ hs₁ _ => ih v hown (hq v) hs₁
  | write r v next ih =>
    have hv := Conduct.mem_of_univ hC.contents_eq v
    exact .bind (hs.overwrites rfl (hown hq.1) hv) fun _ s₁ _ hs₁ _ => ih hown hq.2 hs₁
  | apply result v next ih =>
    refine .bind (ht.operator hs (hown hq.1) (hC.can_read v)).attempt fun e s₁ _ hs₁ _ => ?_
    exact ih e hown (hq.2 e) hs₁
  | turn change next ih =>
    exact .bind (hs.consult _) fun o _ _ hs₁ _ => ih o hown (hq o) hs₁

section Method

variable {M : Method V S R σ} {q : (rhs unknown : Ref) → Procedure V R σ}
variable {search : Inquiry S R (Fault R) σ} (hsolver : M.solver = solver q)
variable (hsearch : ∀ profile, M.search profile M.reach = search.run Run.turn profile)

/-- The passages of a procedure and of an inquiry. -/
def passages : M.Passages where
  solver t := (passage t (q _ _)).of_eq (congrFun hsolver _).symm
  search t := Method.searchPassage hsearch t

theorem handed (hq : ∀ rhs unknown, (q rhs unknown).Owns {rhs, unknown}) :
    (passages hsolver hsearch).Handed := fun C hC =>
  { solver := fun {p t s} ht hs => by
      have hown : {p.rhs, p.unknown} ⊆ C.writable :=
        Set.insert_subset ht.rhs (Set.singleton_subset_iff.mpr ht.unknown)
      exact (run_obeys hC ht hown (hq _ _) hs).of_eq (congrFun hsolver p).symm
    search := fun ht hs => Method.search_obeys hsearch ht hs }

end Method

end Procedure

end NewtonKrylov
