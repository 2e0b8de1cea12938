import NewtonKrylov.Proofs.Krylov.Arnoldi

/-!
# What GMRES learns from its operator

GMRES sees what its operator returns, and nothing of the state that the operator keeps. Two operators
that respond alike on states of their own lead to the same account and the same unknown
(`Gmres.refine_agrees`). So what is found with an operator that remembers its arguments holds also with
one that keeps no state (`Gmres.refine_of_traced`).
-/

namespace NewtonKrylov

variable {V S R ε s t σ τ α β : Type}

/-- Both runs end with the same result or for the same cause, and keep their states related. -/
def Agree (I : s → t → Prop) (x : EStateM ε s α) (a : s) (y : EStateM ε t α) (b : t) : Prop :=
  Follows (fun u a' v b' => u = v ∧ I a' b') I x a y b

namespace Agree

variable {I : s → t → Prop} {x : EStateM ε s α} {y : EStateM ε t α} {a : s} {b : t}

theorem pure (u : α) (h : I a b) : Agree I (Pure.pure u : EStateM ε s α) a (Pure.pure u) b :=
  Follows.of_ok rfl rfl ⟨rfl, h⟩

theorem bind {f : α → EStateM ε s β} {g : α → EStateM ε t β} (h : Agree I x a y b)
    (hf : ∀ u a' b', I a' b' → Agree I (f u) a' (g u) b') : Agree I (x >>= f) a (y >>= g) b := by
  refine Follows.bind h ?_
  rintro u a' _ b' ⟨rfl, h'⟩
  exact hf u a' b' h'

theorem orFail (u : Except ε α) (h : I a b) :
    Agree I (LineSearch.orFail u) a (LineSearch.orFail u) b := by
  cases u with
  | ok u => exact pure u h
  | error e => exact Follows.of_error rfl rfl h

end Agree

/-- The unknowns are the same, and the states of the collaborators are related. -/
def Unknown.Same (I : σ → τ → Prop) (u : Unknown V σ) (u' : Unknown V τ) : Prop :=
  u.value = u'.value ∧ I u.outside u'.outside

theorem OnUnknown.consult_both {J : α → σ → β → τ → Prop} {E : σ → τ → Prop} {act : Collab R σ α}
    {act' : Collab R τ β} {u : Unknown V σ} {u' : Unknown V τ}
    (h : Follows J E act u.outside act' u'.outside) :
    Follows
      (fun v w v' w' => J v w.outside v' w'.outside ∧ w.value = u.value ∧ w'.value = u'.value)
      (fun w w' => E w.outside w'.outside ∧ w.value = u.value ∧ w'.value = u'.value)
      (OnUnknown.consult act) u (OnUnknown.consult act') u' := by
  refine (OnUnknown.consult_follows (OnUnknown.consult_follows h).symm).symm.mono ?_ ?_
  · exact fun _ _ _ _ ⟨⟨hJ, hw'⟩, hw⟩ => ⟨hJ, hw, hw'⟩
  · exact fun _ _ ⟨⟨hE, hw'⟩, hw⟩ => ⟨hE, hw, hw'⟩

theorem OnUnknown.consult_agrees {I : σ → τ → Prop} {act : Collab R σ α} {act' : Collab R τ α}
    {u : Unknown V σ} {u' : Unknown V τ} (hvalue : u.value = u'.value)
    (h : Agree I act u.outside act' u'.outside) :
    Agree (Unknown.Same I) (OnUnknown.consult act) u (OnUnknown.consult act') u' := by
  refine (OnUnknown.consult_both h).mono ?_ ?_
  · rintro v w _ w' ⟨⟨rfl, hI⟩, hw, hw'⟩
    exact ⟨rfl, hw.trans (hvalue.trans hw'.symm), hI⟩
  · rintro w w' ⟨hI, hw, hw'⟩
    exact ⟨hw.trans (hvalue.trans hw'.symm), hI⟩

namespace Gmres

variable [Scalar S] {K : Backend S V} {A : V → Collab R σ V} {A' : V → Collab R τ V}
variable {I : σ → τ → Prop} (g : Gmres S R) (lsq : LeastSquares S)
variable (hA : ∀ v o o', I o o' → Agree I (A v) o (A' v) o')
include hA

theorem advance_agrees (beta target : S) (v : V) (c : Cycle V S) {o : σ} {o' : τ} (h : I o o') :
    Agree I (advance g lsq K A beta target v c) o (advance g lsq K A' beta target v c) o' := by
  unfold advance
  refine (hA v o o' h).bind fun u o o' h => ?_
  refine Follows.ite (fun _ => Agree.pure _ h) fun _ => ?_
  refine (Agree.orFail g.breakdownTol h).bind fun fraction o o' h => ?_
  refine Follows.ite (fun _ => Agree.pure _ h) fun _ => ?_
  exact (Agree.orFail _ h).bind fun d o o' h => Agree.pure _ h

theorem advances_agree (beta target : S) (count : Nat) (v : V) (c : Cycle V S) {o : σ} {o' : τ}
    (h : I o o') :
    Agree I (advances g lsq K A beta target count v c) o
      (advances g lsq K A' beta target count v c) o' := by
  induction count generalizing v c o o' with
  | zero => exact Agree.pure c h
  | succ count ih =>
    unfold advances
    refine Follows.ite (fun _ => ?_) fun _ => Agree.pure c h
    refine (advance_agrees g lsq hA beta target v c h).bind fun q o o' h => ?_
    obtain ⟨c', _ | next⟩ := q
    · exact Agree.pure c' h
    · exact ih next c' h

theorem residualAt_agrees (b x : V) {o : σ} {o' : τ} (h : I o o') :
    Agree I (residualAt K A b x) o (residualAt K A' b x) o' :=
  (hA x o o' h).bind fun _ _ _ h => Agree.pure _ h

theorem cycleFrom_agrees (target beta : S) (r : V) (spent : Nat) {o : σ} {o' : τ} (h : I o o') :
    Agree I (cycleFrom g lsq K A target beta r spent) o
      (cycleFrom g lsq K A' target beta r spent) o' := by
  unfold cycleFrom
  refine (Agree.orFail _ h).bind fun d o o' h => ?_
  refine (Agree.orFail _ h).bind fun count o o' h => ?_
  exact advances_agree g lsq hA beta target count _ _ h

theorem refineFrom_agrees (b : V) (target : S) (fuel spent begun : Nat) {u : Unknown V σ}
    {u' : Unknown V τ} (h : Unknown.Same I u u') :
    Agree (Unknown.Same I) (refineFrom g lsq K A b target fuel spent begun) u
      (refineFrom g lsq K A' b target fuel spent begun) u' := by
  induction fuel generalizing spent begun u u' with
  | zero => exact Agree.pure _ h
  | succ fuel ih =>
    unfold refineFrom
    refine Follows.ite (fun _ => ?_) fun _ => Agree.pure _ h
    refine Follows.skip_left rfl (Follows.skip_right rfl ?_)
    rw [h.1]
    have hr := OnUnknown.consult_agrees h.1 (residualAt_agrees (K := K) hA b u'.value h.2)
    refine hr.bind fun r u₁ u₁' h => ?_
    refine Follows.ite (fun _ => Agree.pure _ h) fun _ => ?_
    refine Follows.ite (fun _ => Agree.pure _ h) fun _ => ?_
    refine (OnUnknown.consult_agrees h.1 (cycleFrom_agrees g lsq hA target _ r spent h.2)).bind
      fun c u₂ u₂' h => ?_
    refine Follows.ite (fun _ => Agree.pure _ h) fun _ => ?_
    refine Follows.skip_left rfl (Follows.skip_right rfl ?_)
    refine Follows.ite (fun _ => Agree.pure _ ⟨rfl, h.2⟩) fun _ => ?_
    refine Follows.ite (fun _ => Agree.pure _ ⟨rfl, h.2⟩) fun _ => ?_
    exact ih c.spent (begun + 1) ⟨rfl, h.2⟩

theorem refine_agrees (b : V) {u : Unknown V σ} {u' : Unknown V τ} (h : Unknown.Same I u u') :
    Agree (Unknown.Same I) (refine g lsq K A b) u (refine g lsq K A' b) u' := by
  unfold refine
  refine Follows.ite (fun _ => ?_) fun _ => ?_
  · refine Follows.skip_left rfl (Follows.skip_right rfl ?_)
    exact Agree.pure _ ⟨congrArg (K.scale · _) h.1, h.2⟩
  · refine (OnUnknown.consult_agrees h.1 (Agree.orFail g.tol h.2)).bind fun tol u u' h => ?_
    exact refineFrom_agrees g lsq hA b _ _ _ _ h

omit hA in
/-- An operator that keeps no state leads where one leads that remembers its arguments. -/
theorem refine_of_traced {a : V → V} {b x : V} {trace : List V} {account : Account}
    {u : Unknown V (List V)} (h : refine g lsq K (traced a) b ⟨x, trace⟩ = .ok account u) (o : σ) :
    refine g lsq K (fun v => (pure (a v) : Collab R σ V)) b ⟨x, o⟩ = .ok account ⟨u.value, o⟩ := by
  have hresponds : ∀ v o' (trace : List V), o' = o →
      Agree (fun o' _ => o' = o) (pure (a v) : Collab R σ V) o' (traced a v) trace :=
    fun v o' trace ho => Follows.of_ok rfl rfl ⟨rfl, ho⟩
  have hsame : Unknown.Same (fun o' _ => o' = o) (⟨x, o⟩ : Unknown V σ)
      (⟨x, trace⟩ : Unknown V (List V)) := ⟨rfl, rfl⟩
  have hagree := refine_agrees (K := K) g lsq hresponds b hsame
  obtain ⟨_, ⟨value, _⟩, hrun, rfl, rfl, rfl⟩ := Follows.exists_ok hagree h
  exact hrun

end Gmres

end NewtonKrylov
