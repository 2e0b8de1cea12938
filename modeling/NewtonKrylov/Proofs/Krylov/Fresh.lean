import NewtonKrylov.Jacobian
import NewtonKrylov.Proofs.Krylov.InPlace

/-!
# Linear problems by themselves

A problem that shares no vectors with anything (`LinearProblem.fresh`): an operator on values, a
right-hand side and an unknown in a session of their own. It is posed in the sense of
`LinearProblem.Posed`, and GMRES does on it what it does on values (`Gmres.solve_onFresh`).
-/

namespace NewtonKrylov

variable {V S R σ : Type}

/-- A residual function that writes all of its vector. -/
def Residual.whole (f : V → Collab R σ V) : Residual V R σ := fun _ x => f x

variable [Inhabited V] {s s' : Session V S R σ}

theorem Residual.into_follows (f : V → Collab R σ V) {W : Set Ref} {out : Ref} {o : σ}
    (h : s.Wrote W s' o) (hvalid : s.store.Valid out) (hout : out ∈ W) (x : Ref) :
    Follows
      (fun _ s'' y o' => s.Wrote W s'' o' ∧ s''.store.read out = y ∧
        ∀ r, out ≠ r → s''.store.read r = s'.store.read r)
      (s.Wrote W) ((Residual.whole f).into out x) s' (f (s'.store.read x)) o := by
  have hconsult := Run.consult_follows (f (s'.store.read x)) s'
  rw [h.outside_eq] at hconsult
  rw [← bind_pure (f (s'.store.read x))]
  refine Follows.skip_left (Run.contents_run out) (Follows.skip_left (Run.contents_run x) ?_)
  refine Follows.bind_mono hconsult ?_ ?_
  · rintro _ o' rfl
    exact h.consult o'
  rintro y _ _ o' ⟨rfl, rfl⟩
  refine Follows.of_ok (Run.overwrite_run out y) rfl ⟨(h.consult o').write hout y, ?_, ?_⟩
  · exact Store.read_write_self (h.valid hvalid)
  · exact fun r hr => Store.read_write_of_ne hr

theorem Residual.into_computes (A : V → Collab R σ V) (guard : Set Ref) (s₀ : Session V S R σ) :
    Computes (Residual.whole A).into A guard ∅ s₀ := by
  intro s result v _ hresult _ _ _
  refine (Residual.into_follows A (Session.Wrote.refl (insert result ∅) s) hresult
    (Set.mem_insert result ∅) v).mono ?_ fun _ _ hE => hE
  exact fun _ _ _ _ hdone => ⟨hdone.2.1, hdone.1⟩

/-- The problem `A x = b` on two vectors of its own, with new work vectors. -/
def LinearProblem.fresh (K : Backend S V) (A : V → Collab R σ V) : LinearProblem V S R σ where
  backend := K
  new := K.new
  operator := (Residual.whole A).into
  rhs := ⟨0⟩
  unknown := ⟨1⟩

/-- The session that holds the two vectors. -/
def Session.fresh (b x : V) (o : σ) : Session V S R σ where
  store := (({} : Store V).push "rhs" b).push "unknown" x
  outside := o

/-- A solver on values: a call on vectors of its own. -/
def KrylovSolver.onFresh (solver : KrylovSolver V S R σ) (K : Backend S V) (A : V → Collab R σ V)
    (b : V) : OnUnknown V R σ Unit := fun u =>
  seenThrough (fun s => ⟨s.store.read ⟨1⟩, s.outside⟩)
    (solver (LinearProblem.fresh K A) (Session.fresh b u.value u.outside))

theorem LinearProblem.fresh_posed (K : Backend S V) (A : V → Collab R σ V) (b x : V) (o : σ) :
    (LinearProblem.fresh K A).Posed A {⟨0⟩} ∅ (Session.fresh (S := S) (R := R) b x o) where
  computes := Residual.into_computes A _ _
  rhs_mem := rfl
  guard_valid := by
    rintro r rfl
    exact Nat.zero_lt_two
  unknown_valid := Nat.one_lt_two
  disjoint := fun _ _ hr => hr
  unknown_not_mem := by
    rintro (h | h)
    · exact absurd (congrArg Ref.index h) Nat.one_ne_zero
    · exact h

theorem LinearProblem.fresh_ready [Scalar S] (K : Backend S V) (A : V → Collab R σ V) (b x : V)
    (o : σ) : (Supply.fresh K ((LinearProblem.fresh (R := R) K A).own {⟨0⟩} ∅)).Ready
      (Session.fresh (S := S) (R := R) b x o) := by
  have hposed := LinearProblem.fresh_posed (S := S) (R := R) K A b x o
  rintro r (rfl | rfl | hr)
  · exact hposed.unknown_valid
  · exact hposed.guard_valid _ rfl
  · exact hr.elim

theorem Gmres.solve_onFresh [Scalar S] (g : Gmres S R) (lsq : LeastSquares S) (K : Backend S V)
    (A : V → Collab R σ V) (b : V) :
    KrylovSolver.onFresh (g.solve lsq) K A b = (do
      let _ ← g.refine lsq K A b
      pure ()) := by
  funext u
  have hposed := LinearProblem.fresh_posed (S := S) (R := R) K A b u.value u.outside
  have hready := LinearProblem.fresh_ready (S := S) (R := R) K A b u.value u.outside
  refine Follows.seenThrough_eq ((g.solve_follows lsq (Supply.fresh K _) hposed hready).mono ?_ ?_)
  · rintro ⟨⟩ s' ⟨⟩ u' ⟨hvalue, hout, -⟩
    exact ⟨rfl, congrArg₂ Unknown.mk hvalue hout⟩
  · rintro s' u' ⟨⟨hvalue, hout, -⟩, -⟩
    exact congrArg₂ Unknown.mk hvalue hout

end NewtonKrylov
