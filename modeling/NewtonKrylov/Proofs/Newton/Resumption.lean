import NewtonKrylov.Proofs.Newton.Course
import NewtonKrylov.Proofs.Newton.Recurrence

/-!
# A run in two parts

Between iterations a run carries the iterate, the direction and the state of the collaborators, and
nothing else that matters: not the scratch vectors, not the vectors that the solver kept, not the
number of the iteration. So a run of `n` iterations and then one of `m` more on the same two vectors
leave them as one run of `n + m` iterations does (`Newton.solve_resumed`).

It is proved on trails, where the recurrence of `n + m` iterations goes through that of `n`
(`Newton.pureFrom_add`), and where it goes does not depend on how the iterations are numbered
(`Newton.pureFrom_kindred`). A first part that ends early ends at a norm that ends the second part
at once (`Newton.pureFrom_settled`): for this the norm has to be a function of the iterate, and
the answer of the callback one of the norm.

A failure may say in which iteration it occurred, so the runs are compared without the causes of their
failures (`mute`).
-/

namespace NewtonKrylov

variable {V S R σ ε s t α β : Type}

/-! ## Failures without a cause -/

/-- The same run, not saying why it fails. -/
def mute (x : EStateM ε s α) : EStateM Unit s α := fun a =>
  match x a with
  | .ok u a' => .ok u a'
  | .error _ a' => .error () a'

theorem mute_ok {x : EStateM ε s α} {a a' : s} {u : α} (h : x a = .ok u a') :
    mute x a = .ok u a' := by
  rw [mute, h]

theorem mute_error {x : EStateM ε s α} {a a' : s} {e : ε} (h : x a = .error e a') :
    mute x a = .error () a' := by
  rw [mute, h]

theorem mute_bind (x : EStateM ε s α) (f : α → EStateM ε s β) :
    mute (x >>= f) = mute x >>= fun u => mute (f u) := by
  funext a
  cases h : x a with
  | ok u a' =>
    rw [bind_run_ok (mute_ok h), mute, bind_run_ok h]
    rfl
  | error e a' => rw [bind_run_error (mute_error h), mute_error (bind_run_error h f)]

theorem Follows.mute {J : α → s → β → t → Prop} {E : s → t → Prop} {x : EStateM ε s α} {a : s}
    {y : EStateM ε t β} {b : t} (h : Follows J E x a y b) :
    Follows J E (NewtonKrylov.mute x) a (NewtonKrylov.mute y) b := by
  rcases h.cases with ⟨u, a', v, b', hx, hy, h⟩ | ⟨e, a', b', hx, hy, h⟩
  · exact of_ok (mute_ok hx) (mute_ok hy) h
  · exact of_error (mute_error hx) (mute_error hy) h

theorem Follows.of_seen {v : s → t} {J : t → t → Prop} {x y : EStateM ε s α} {x' y' : EStateM ε t α}
    {a : s} {b : t} (hx : Follows (fun _ a' _ b' => v a' = b') (fun a' b' => v a' = b') x a x' b)
    (hy : Follows (fun _ a' _ b' => v a' = b') (fun a' b' => v a' = b') y a y' b)
    (h : Follows (fun _ b₁ _ b₂ => J b₁ b₂) J (NewtonKrylov.mute x') b (NewtonKrylov.mute y') b) :
    Follows (fun _ a₁ _ a₂ => J (v a₁) (v a₂)) (fun a₁ a₂ => J (v a₁) (v a₂))
      (NewtonKrylov.mute x) a (NewtonKrylov.mute y) a := by
  rcases hx.cases with ⟨_, _, _, _, hxa, hxb, rfl⟩ | ⟨_, _, _, hxa, hxb, rfl⟩
  · rcases hy.cases with ⟨_, _, _, _, hya, hyb, rfl⟩ | ⟨_, _, _, hya, hyb, rfl⟩
    · rw [Follows, mute_ok hxb, mute_ok hyb] at h
      exact of_ok (mute_ok hxa) (mute_ok hya) h
    · rw [Follows, mute_ok hxb, mute_error hyb] at h
      exact h.elim
  · rcases hy.cases with ⟨_, _, _, _, hya, hyb, rfl⟩ | ⟨_, _, _, hya, hyb, rfl⟩
    · rw [Follows, mute_error hxb, mute_ok hyb] at h
      exact h.elim
    · rw [Follows, mute_error hxb, mute_error hyb] at h
      exact of_error (mute_error hxa) (mute_error hya) h.2

/-! ## Norms in a log -/

/-- The residual norms that a report tells for the first time. -/
def Record.residuals : Record S R → List R
  | .update _ err _ _ => [err]
  | .ended (.stopped _ err) => [err]
  | .ended (.converged _ err) => [err]
  | .ended (.exhausted _ _) => []

/-- The residual norms that a log tells, in order. -/
def residualsIn (log : List (Record S R)) : List R := log.flatMap Record.residuals

theorem residualsIn_concat (log : List (Record S R)) (r : Record S R) :
    residualsIn (log ++ [r]) = residualsIn log ++ r.residuals := by
  simp [residualsIn]

/-- The trails differ at most in how the iterations were numbered. -/
structure Trail.Kindred (t t' : Trail V S R σ) : Prop where
  x_eq : t.x = t'.x
  dx_eq : t.dx = t'.dx
  outside_eq : t.outside = t'.outside
  residuals_eq : residualsIn t.log = residualsIn t'.log

namespace Trail.Kindred

variable {t t' : Trail V S R σ}

theorem withOutside (h : t.Kindred t') (o : σ) :
    Trail.Kindred { t with outside := o } { t' with outside := o } :=
  ⟨h.x_eq, h.dx_eq, rfl, h.residuals_eq⟩

theorem report (h : t.Kindred t') {r r' : Record S R} (hr : r.residuals = r'.residuals) :
    Trail.Kindred { t with log := t.log ++ [r] } { t' with log := t'.log ++ [r'] } :=
  ⟨h.x_eq, h.dx_eq, h.outside_eq, by rw [residualsIn_concat, residualsIn_concat, h.residuals_eq, hr]⟩

theorem of_within {part : Trail V S R σ → s} {put : Trail V S R σ → s → Trail V S R σ}
    (hpart : part t = part t') (hput : ∀ c, (put t c).Kindred (put t' c)) (act : EStateM ε s α) :
    Follows (fun u t₁ v t₁' => u = v ∧ t₁.Kindred t₁') Trail.Kindred
      (within part put act) t (within part put act) t' := by
  cases hact : act (part t) with
  | ok u c =>
    refine Follows.of_ok (u := u) (v := u) ?_ ?_ ⟨rfl, hput c⟩
    · simp only [within, hact]
    · simp only [within, ← hpart, hact]
  | error e c =>
    refine Follows.of_error (e := e) ?_ ?_ (hput c)
    · simp only [within, hact]
    · simp only [within, ← hpart, hact]

theorem consult (h : t.Kindred t') (act : Collab R σ α) :
    Follows (fun u t₁ v t₁' => u = v ∧ t₁.Kindred t₁') Trail.Kindred
      (OnTrail.consult act) t (OnTrail.consult act) t' :=
  of_within h.outside_eq h.withOutside act

theorem refining (h : t.Kindred t') (act : OnUnknown V R σ α) :
    Follows (fun u t₁ v t₁' => u = v ∧ t₁.Kindred t₁') Trail.Kindred
      (OnTrail.refining act) t (OnTrail.refining act) t' := by
  have hpart : (⟨t.dx, t.outside⟩ : Unknown V σ) = ⟨t'.dx, t'.outside⟩ := by
    rw [h.dx_eq, h.outside_eq]
  have hput : ∀ u : Unknown V σ, Trail.Kindred { t with dx := u.value, outside := u.outside }
      { t' with dx := u.value, outside := u.outside } := fun u =>
    ⟨h.x_eq, rfl, rfl, h.residuals_eq⟩
  exact of_within hpart hput act

end Trail.Kindred

/-- The same method with a budget of `n` iterations. -/
def Method.upTo (M : Method V S R σ) (n : Nat) : Method V S R σ := { M with maxiter := .ok n }

/-- The trail after an ending has been reported. -/
def Trail.closing (ending : Ending R) (t : Trail V S R σ) : Trail V S R σ :=
  { t with log := t.log ++ [.ended ending] }

/-- The trail after a norm has been noted. -/
def Trail.noting (note : R → σ → σ) (err : R) (t : Trail V S R σ) : Trail V S R σ :=
  { t with outside := note err t.outside }

namespace Newton

/-! ## Iterations that depend on the norm alone -/

/-- What a callback answers, and whether it fails, depends on the norm alone; it may note the norm in
the state of the collaborators. -/
def Heeds (callback : Option (Callback R σ)) (reply : R → Except (Fault R) Bool) (note : R → σ → σ) :
    Prop :=
  ∀ err k o, answer callback k err o =
    match reply err with
    | .ok stop => .ok stop (note err o)
    | .error e => .error e (note err o)

/-- What a norm does to a run. -/
inductive Effect (R : Type) where
  /-- The norm may not be seen. -/
  | nonFinite
  | refused (e : Fault R)
  | stops
  | converges
  | none

section Recurrence

variable [Inhabited V] [Scalar S] [Magnitude R]
variable (K : Backend S V) (f : V → V) (measure : V → R)
variable (M : Method V S R σ) (search : Inquiry S R (Fault R) σ)
variable (callback : Option (Callback R σ)) (reply : R → Except (Fault R) Bool) (note : R → σ → σ)

def effect (err : R) : Effect R :=
  if M.checkFinite && !Magnitude.isFinite err then .nonFinite
  else match reply err with
    | .error e => .refused e
    | .ok stop => if stop then .stops else if M.accepts err then .converges else .none

/-- The recurrence with a residual and a norm that are functions of the point. -/
def pureFrom (remaining done : Nat) (last : Option R) : OnTrail V S R σ (Ending R) :=
  recurrenceFrom K (fun v => pure (f v)) (fun v => pure (measure v)) M search
    (callback.map fun tell _ _ => tell) remaining done last

variable {K f measure M search callback reply note} {t t' : Trail V S R σ} {n k k' : Nat}
variable {last last' : Option R}

/-- What a run on trails tells. -/
def telling (callback : Option (Callback R σ)) : Option (R → Nat → OnTrail V S R σ Bool) :=
  (callback.map fun tell (_ _ : V) => tell).map fun tell err k => do
    let t ← get
    OnTrail.consult (tell t.x t.dx err k)

omit [Inhabited V] [Scalar S] [Magnitude R] in
theorem answer_telling (k : Nat) (err : R) :
    answer (telling callback) k err =
      (OnTrail.consult (answer callback k err) : OnTrail V S R σ Bool) := by
  cases callback with
  | none => rfl
  | some tell => rfl

theorem pureFrom_eq_endsAt (n k : Nat) (last : Option R) (t : Trail V S R σ) :
    pureFrom K f measure M search callback (n + 1) k last t = (do
      match ← endsAt M (telling callback) (k + 1) (measure (f t.x)) with
      | some ending => pure ending
      | none =>
        advance K (fun v => pure (f v)) (fun v => pure (measure v)) M search (k + 1)
          (measure (f t.x)) (f t.x)
        pureFrom K f measure M search callback n (k + 1) (some (measure (f t.x)))) t := rfl

variable (hheeds : Heeds callback reply note)
include hheeds

theorem pureFrom_succ (n k : Nat) (last : Option R) (t : Trail V S R σ) :
    pureFrom K f measure M search callback (n + 1) k last t =
      match effect M reply (measure (f t.x)) with
      | .nonFinite => .error (.nonFinite (k + 1) (measure (f t.x))) t
      | .refused e => .error e (t.noting note (measure (f t.x)))
      | .stops => .ok (.stopped (k + 1) (measure (f t.x))) (t.noting note (measure (f t.x)))
      | .converges => .ok (.converged (k + 1) (measure (f t.x))) (t.noting note (measure (f t.x)))
      | .none => (do
          advance K (fun v => pure (f v)) (fun v => pure (measure v)) M search (k + 1)
            (measure (f t.x)) (f t.x)
          pureFrom K f measure M search callback n (k + 1) (some (measure (f t.x))))
          (t.noting note (measure (f t.x))) := by
  rw [pureFrom_eq_endsAt]
  generalize measure (f t.x) = err
  by_cases hfinite : M.checkFinite = true → Magnitude.isFinite err = true
  · have hseen : effect M reply err = match reply err with
        | .error e => .refused e
        | .ok stop => if stop then .stops else if M.accepts err then .converges else .none := by
      unfold effect
      rw [if_neg]
      simpa using hfinite
    rw [endsAt_of_finite hfinite, answer_telling, hseen, bind_assoc]
    have hanswer := hheeds err (k + 1) t.outside
    cases hreply : reply err with
    | error e =>
      rw [hreply] at hanswer
      have hconsult : (OnTrail.consult (answer callback (k + 1) err) : OnTrail V S R σ Bool) t =
          .error e (t.noting note err) := by
        simp only [OnTrail.consult, within, hanswer]
        rfl
      exact bind_run_error hconsult _
    | ok stop =>
      rw [hreply] at hanswer
      have hconsult : (OnTrail.consult (answer callback (k + 1) err) : OnTrail V S R σ Bool) t =
          .ok stop (t.noting note err) := by
        simp only [OnTrail.consult, within, hanswer]
        rfl
      rw [bind_run_ok hconsult, pure_bind]
      unfold verdict
      cases stop with
      | true => rfl
      | false =>
        cases M.accepts err with
        | true => rfl
        | false => rfl
  · obtain ⟨hcheck, herr⟩ := Classical.not_imp.mp hfinite
    rw [Bool.not_eq_true] at herr
    have hseen : effect M reply err = .nonFinite := by
      unfold effect
      rw [hcheck, herr]
      rfl
    rw [hseen, bind_run_error (endsAt_of_not_finite hcheck herr)]

/-- The iterations of a run go through those of a shorter one, and go on where that was exhausted. -/
theorem pureFrom_add (n m k : Nat) (last : Option R) (t : Trail V S R σ) :
    pureFrom K f measure M search callback (n + m) k last t =
      match pureFrom K f measure M search callback n k last t with
      | .ok (.exhausted done last') t' => pureFrom K f measure M search callback m done last' t'
      | result => result := by
  induction n generalizing k last t with
  | zero =>
    rw [Nat.zero_add]
    rfl
  | succ n ih =>
    rw [Nat.add_right_comm n 1 m, pureFrom_succ hheeds, pureFrom_succ hheeds]
    cases effect M reply (measure (f t.x)) with
    | nonFinite => rfl
    | refused e => rfl
    | stops => rfl
    | converges => rfl
    | none =>
      simp only []
      cases hadvance : advance K (fun v => pure (f v)) (fun v => pure (measure v)) M search (k + 1)
          (measure (f t.x)) (f t.x) (t.noting note (measure (f t.x))) with
      | error e t' => rw [bind_run_error hadvance, bind_run_error hadvance]
      | ok _ t' =>
        rw [bind_run_ok hadvance, bind_run_ok hadvance]
        exact ih (k + 1) _ t'

omit hheeds [Magnitude R] in
theorem advance_kindred (h : t.Kindred t') (k k' : Nat) (err : R) (F : V) (f : V → Collab R σ V)
    (measure : V → Collab R σ R) :
    Follows (fun _ t₁ _ t₁' => t₁.Kindred t₁') Trail.Kindred
      (advance K f measure M search k err F) t (advance K f measure M search k' err F) t' := by
  unfold advance
  refine Follows.skip_left rfl (Follows.skip_right rfl ?_)
  rw [h.x_eq]
  refine Follows.bind (h.refining _) ?_
  rintro ⟨⟩ t₁ ⟨⟩ t₁' ⟨-, h₁⟩
  refine Follows.skip_left rfl (Follows.skip_right rfl ?_)
  rw [h₁.dx_eq]
  refine Follows.bind (h₁.consult _) ?_
  rintro ⟨alpha, line⟩ t₂ _ t₂' ⟨rfl, h₂⟩
  have hresiduals : (Record.update k err alpha line : Record S R).residuals =
      (Record.update k' err alpha line).residuals := rfl
  refine Follows.skip_left rfl (Follows.skip_right rfl (Follows.of_ok rfl rfl ?_))
  exact ⟨rfl, h₂.dx_eq, h₂.outside_eq, (h₂.report hresiduals).residuals_eq⟩

/-- Where iterations go does not depend on how they are numbered. -/
theorem pureFrom_kindred (n k k' : Nat) (last last' : Option R) (h : t.Kindred t') :
    Follows
      (fun ending t₁ ending' t₁' => t₁.Kindred t₁' ∧
        (Record.ended ending : Record S R).residuals = (Record.ended ending' : Record S R).residuals)
      Trail.Kindred (mute (pureFrom K f measure M search callback n k last)) t
      (mute (pureFrom K f measure M search callback n k' last')) t' := by
  induction n generalizing t t' k k' last last' with
  | zero => exact Follows.of_ok rfl rfl ⟨h, rfl⟩
  | succ n ih =>
    have hnoting : (t.noting note (measure (f t.x))).Kindred (t'.noting note (measure (f t.x))) := by
      rw [Trail.noting, Trail.noting, h.outside_eq]
      exact h.withOutside _
    unfold Follows mute
    rw [pureFrom_succ hheeds, pureFrom_succ hheeds, ← h.x_eq]
    cases effect M reply (measure (f t.x)) with
    | nonFinite => exact ⟨rfl, h⟩
    | refused e => exact ⟨rfl, hnoting⟩
    | stops => exact ⟨hnoting, rfl⟩
    | converges => exact ⟨hnoting, rfl⟩
    | none =>
      show Follows _ _ (mute (_ >>= _)) _ (mute (_ >>= _)) _
      rw [mute_bind, mute_bind]
      refine Follows.bind (advance_kindred hnoting (k + 1) (k' + 1) _ _ _ _).mute ?_
      exact fun _ t₁ _ t₁' h₁ => ih (k + 1) (k' + 1) _ _ h₁

/-- The norm at the iterate ends a run. -/
def Settles (f : V → V) (measure : V → R) (M : Method V S R σ) (reply : R → Except (Fault R) Bool)
    (t : Trail V S R σ) : Prop :=
  effect M reply (measure (f t.x)) = .stops ∨ effect M reply (measure (f t.x)) = .converges

theorem pureFrom_settled {ending : Ending R}
    (h : pureFrom K f measure M search callback n k last t = .ok ending t') :
    (∃ last', ending = .exhausted (k + n) last') ∨
      (∀ done last', ending ≠ .exhausted done last') ∧ Settles f measure M reply t' := by
  induction n generalizing k last t with
  | zero =>
    obtain ⟨rfl, rfl⟩ := EStateM.Result.ok.inj h
    exact .inl ⟨last, rfl⟩
  | succ n ih =>
    rw [pureFrom_succ hheeds] at h
    cases heffect : effect M reply (measure (f t.x)) with
    | nonFinite =>
      rw [heffect] at h
      exact nomatch h
    | refused e =>
      rw [heffect] at h
      exact nomatch h
    | stops =>
      rw [heffect] at h
      obtain ⟨rfl, rfl⟩ := EStateM.Result.ok.inj h
      exact .inr ⟨nofun, .inl heffect⟩
    | converges =>
      rw [heffect] at h
      obtain ⟨rfl, rfl⟩ := EStateM.Result.ok.inj h
      exact .inr ⟨nofun, .inr heffect⟩
    | none =>
      rw [heffect] at h
      obtain ⟨_, t₁, -, h⟩ := bind_eq_ok h
      rw [Nat.add_comm n 1, ← Nat.add_assoc]
      exact ih h

/-- At an iterate that ends a run the vectors stay as they are. -/
theorem pureFrom_of_settles (h : Settles f measure M reply t) (n k : Nat) (last : Option R) :
    ∃ ending t', pureFrom K f measure M search callback n k last t = .ok ending t' ∧
      t'.x = t.x ∧ t'.dx = t.dx := by
  cases n with
  | zero => exact ⟨_, t, rfl, rfl, rfl⟩
  | succ n =>
    rw [pureFrom_succ hheeds]
    rcases h with heffect | heffect
    · rw [heffect]
      exact ⟨_, _, rfl, rfl, rfl⟩
    · rw [heffect]
      exact ⟨_, _, rfl, rfl, rfl⟩

/-! ## Whole runs on trails -/

omit hheeds

def conclude (ending : Ending R) : OnTrail V S R σ (Ending R) := do
  OnTrail.report (.ended ending)
  pure ending

variable (K f measure M search callback) in
/-- At most `n` iterations, and the report of their ending. -/
def pureRun (n : Nat) : OnTrail V S R σ (Ending R) :=
  pureFrom K f measure M search callback n 0 none >>= conclude

variable (K M search) in
theorem recurrenceFrom_upTo (f : V → Collab R σ V) (measure : V → Collab R σ R)
    (tell : Option (V → V → R → Nat → Collab R σ Bool)) (budget n k : Nat) (last : Option R) :
    recurrenceFrom K f measure (M.upTo budget) search tell n k last =
      recurrenceFrom K f measure M search tell n k last := by
  induction n generalizing k last with
  | zero => rfl
  | succ n ih =>
    unfold recurrenceFrom
    simp only [ih]
    rfl

theorem recurrence_upTo (n : Nat) :
    recurrence K (fun v => pure (f v)) (fun v => pure (measure v)) (M.upTo n) search
      (callback.map fun tell (_ _ : V) => tell) = pureRun K f measure M search callback n := by
  unfold pureRun pureFrom
  have hbudget := recurrenceFrom_upTo K M search (fun v => (pure (f v) : Collab R σ V))
    (fun v => pure (measure v)) (callback.map fun tell (_ _ : V) => tell) n n 0 none
  rw [← hbudget]
  rfl

theorem pureRun_ok {ending : Ending R}
    (h : pureFrom K f measure M search callback n 0 none t = .ok ending t') :
    pureRun K f measure M search callback n t = .ok ending (t'.closing ending) :=
  bind_run_ok h _

theorem pureRun_error {e : Fault R}
    (h : pureFrom K f measure M search callback n 0 none t = .error e t') :
    pureRun K f measure M search callback n t = .error e t' :=
  bind_run_error h _

include hheeds in
theorem conclude_kindred (h : t.Kindred t') (n k k' : Nat) (last last' : Option R) :
    Follows (fun _ t₁ _ t₁' => t₁.Kindred t₁') Trail.Kindred
      (mute (pureFrom K f measure M search callback n k last >>= conclude)) t
      (mute (pureFrom K f measure M search callback n k' last' >>= conclude)) t' := by
  rw [mute_bind, mute_bind]
  refine Follows.bind (pureFrom_kindred hheeds n k k' last last' h) ?_
  rintro ending t₁ ending' t₁' ⟨h₁, hresiduals⟩
  exact Follows.of_ok rfl rfl (h₁.report hresiduals)

include hheeds in
/-- Two runs on a trail, one after the other, against one with the iterations of both. -/
theorem pureRun_twice (n m : Nat) (t : Trail V S R σ) :
    Follows (fun _ t₁ _ t₂ => t₁.x = t₂.x ∧ t₁.dx = t₂.dx) (fun t₁ t₂ => t₁.x = t₂.x ∧ t₁.dx = t₂.dx)
        (mute (pureRun K f measure M search callback n >>= fun _ =>
          pureRun K f measure M search callback m)) t
        (mute (pureRun K f measure M search callback (n + m))) t ∧
      ∀ done last t', pureRun K f measure M search callback n t = .ok (.exhausted done last) t' →
        Follows (fun _ t₁ _ t₂ => t₁.Kindred t₂) Trail.Kindred
          (mute (pureRun K f measure M search callback n >>= fun _ =>
            pureRun K f measure M search callback m)) t
          (mute (pureRun K f measure M search callback (n + m))) t := by
  cases hfirst : pureFrom K f measure M search callback n 0 none t with
  | error e t₁ =>
    have hrun := pureRun_error hfirst
    have honce : pureFrom K f measure M search callback (n + m) 0 none t = .error e t₁ := by
      rw [pureFrom_add hheeds, hfirst]
    refine ⟨Follows.of_error (mute_error (bind_run_error hrun _)) (mute_error (pureRun_error honce))
      ⟨rfl, rfl⟩, fun done last t' hexhausted => ?_⟩
    rw [hrun] at hexhausted
    exact nomatch hexhausted
  | ok ending t₁ =>
    have hrun := pureRun_ok hfirst
    rcases pureFrom_settled hheeds hfirst with ⟨last, rfl⟩ | ⟨hending, hsettles⟩
    · have hkindred : (t₁.closing (.exhausted (0 + n) last)).Kindred t₁ :=
        ⟨rfl, rfl, rfl, (residualsIn_concat _ _).trans (List.append_nil _)⟩
      have htwice : mute (pureRun K f measure M search callback n >>= fun _ =>
          pureRun K f measure M search callback m) t =
            mute (pureRun K f measure M search callback m)
              (t₁.closing (.exhausted (0 + n) last)) := by
        simp only [mute, bind_run_ok hrun]
      have honce : mute (pureRun K f measure M search callback (n + m)) t =
          mute (pureFrom K f measure M search callback m (0 + n) last >>= conclude) t₁ := by
        simp only [mute, pureRun, bind_run]
        rw [pureFrom_add hheeds, hfirst]
      have hboth : Follows (fun _ t₁ _ t₂ => t₁.Kindred t₂) Trail.Kindred
          (mute (pureRun K f measure M search callback n >>= fun _ =>
            pureRun K f measure M search callback m)) t
          (mute (pureRun K f measure M search callback (n + m))) t := by
        rw [Follows, htwice, honce]
        exact conclude_kindred hheeds hkindred m 0 (0 + n) none last
      exact ⟨hboth.mono (fun _ _ _ _ h => ⟨h.x_eq, h.dx_eq⟩) fun _ _ h => ⟨h.x_eq, h.dx_eq⟩,
        fun _ _ _ _ => hboth⟩
    · have honce : pureFrom K f measure M search callback (n + m) 0 none t = .ok ending t₁ := by
        rw [pureFrom_add hheeds, hfirst]
        cases ending with
        | stopped k err => rfl
        | converged k err => rfl
        | exhausted done last => exact absurd rfl (hending done last)
      have hclosed : Settles f measure M reply (t₁.closing ending) := hsettles
      have hrest : ∃ ending' t₂, pureFrom K f measure M search callback m 0 none
          (t₁.closing ending) = .ok ending' t₂ ∧ t₂.x = t₁.x ∧ t₂.dx = t₁.dx :=
        pureFrom_of_settles hheeds hclosed m 0 none
      obtain ⟨ending', t₂, hrest, hx, hdx⟩ := hrest
      refine ⟨Follows.of_ok (mute_ok ((bind_run_ok hrun _).trans (pureRun_ok hrest)))
        (mute_ok (pureRun_ok honce)) ⟨hx, hdx⟩, fun done last t' hexhausted => ?_⟩
      rw [hrun] at hexhausted
      exact absurd (EStateM.Result.ok.inj hexhausted).1 (hending done last)

end Recurrence

/-! ## Runs on shared vectors -/

section Shared

variable [Inhabited V] [Scalar S] [Magnitude R]
variable {P : NonlinearProblem V S R σ} {M : Method V S R σ} {f : V → V} {m : V → R}
variable {g : Gmres S R} {lsq : LeastSquares S} {q : Inquiry S R (Fault R) σ}
variable {callback : Option (Callback R σ)} {reply : R → Except (Fault R) Bool} {note : R → σ → σ}
variable {x dx : Ref} {s : Session V S R σ}
variable (hP : Evaluates P f m) (hsolver : M.solver = g.solve lsq)
  (hsearch : ∀ profile, M.search profile M.reach = q.run Run.turn profile) (hne : x ≠ dx)
include hP hsolver hsearch hne

variable (callback) in
theorem solve_follows (hx : s.store.Valid x) (hdx : s.store.Valid dx) (n : Nat) :
    Follows
      (fun ending s' ending' t' => ending = ending' ∧ s'.store.Valid x ∧ s'.store.Valid dx ∧
        Trail.of x dx s' = t')
      (fun s' t' => Trail.of x dx s' = t')
      (solve P (M.upTo n) callback x (some dx)) s
      (pureRun P.backend f m M q callback n) (Trail.of x dx s) := by
  have hgiven : ∀ r ∈ some dx, s.store.Valid r ∧ x ≠ r := by
    intro r hr
    obtain rfl := Option.some.inj hr
    exact ⟨hdx, hne⟩
  have hfollows := run_follows (M := M.upTo n) hP.residual_eq hsolver hsearch
    (callback.map fun tell (_ _ : V) => tell) hx hgiven
  rw [hP.norm_eq, recurrence_upTo] at hfollows
  rw [solve_eq_run callback x dx (some dx)]
  refine hfollows.mono ?_ fun _ _ h => h
  rintro ending s' _ t' ⟨rfl, w, h⟩
  exact ⟨rfl, h.laid.valid x (by simp), h.laid.valid dx (by simp [directionAt]), h.trail_eq⟩

/-- Two runs on the same two vectors, one after the other, against one with the iterations of both: all
return or some run fails on either side, and they leave the same iterate and direction. Where the first
one is exhausted, they also leave the collaborators in the same state, and their logs tell the same
residual norms. -/
theorem solve_resumed (hheeds : Heeds callback reply note) (hx : s.store.Valid x)
    (hdx : s.store.Valid dx) (n k : Nat) :
    Follows
        (fun _ s₁ _ s₂ => s₁.store.read x = s₂.store.read x ∧ s₁.store.read dx = s₂.store.read dx)
        (fun s₁ s₂ => s₁.store.read x = s₂.store.read x ∧ s₁.store.read dx = s₂.store.read dx)
        (mute (solve P (M.upTo n) callback x (some dx) >>= fun _ =>
          solve P (M.upTo k) callback x (some dx))) s
        (mute (solve P (M.upTo (n + k)) callback x (some dx))) s ∧
      ∀ done last s', solve P (M.upTo n) callback x (some dx) s = .ok (.exhausted done last) s' →
        Follows (fun _ s₁ _ s₂ => (Trail.of x dx s₁).Kindred (Trail.of x dx s₂))
          (fun s₁ s₂ => (Trail.of x dx s₁).Kindred (Trail.of x dx s₂))
          (mute (solve P (M.upTo n) callback x (some dx) >>= fun _ =>
            solve P (M.upTo k) callback x (some dx))) s
          (mute (solve P (M.upTo (n + k)) callback x (some dx))) s := by
  have hfirst := solve_follows callback hP hsolver hsearch hne hx hdx n
  have htwice : Follows (fun _ s' _ t' => Trail.of x dx s' = t') (fun s' t' => Trail.of x dx s' = t')
      (solve P (M.upTo n) callback x (some dx) >>= fun _ =>
        solve P (M.upTo k) callback x (some dx)) s
      (pureRun P.backend f m M q callback n >>= fun _ => pureRun P.backend f m M q callback k)
      (Trail.of x dx s) := by
    refine Follows.bind hfirst ?_
    rintro ending s' _ _ ⟨rfl, hx', hdx', rfl⟩
    exact (solve_follows callback hP hsolver hsearch hne hx' hdx' k).mono (fun _ _ _ _ h => h.2.2.2)
      fun _ _ h => h
  have honce := (solve_follows callback hP hsolver hsearch hne hx hdx (n + k)).mono
    (fun _ _ _ _ h => h.2.2.2) fun _ _ h => h
  obtain ⟨hvectors, hexhausted⟩ := pureRun_twice (K := P.backend) (f := f) (M := M) hheeds n k
    (Trail.of x dx s)
  refine ⟨Follows.of_seen htwice honce hvectors, fun done last s' hrun => ?_⟩
  rcases hfirst.cases with ⟨_, _, _, _, hrun', htrail, rfl, -, -, rfl⟩ | ⟨_, _, _, hrun', -, -⟩
  · rw [hrun] at hrun'
    obtain ⟨rfl, rfl⟩ := EStateM.Result.ok.inj hrun'
    exact Follows.of_seen htwice honce (hexhausted done last _ htrail)
  · rw [hrun] at hrun'
    exact nomatch hrun'

end Shared

theorem crossTell_heeds :
    Heeds (some crossTell) (fun _ => .ok false) fun err told => told ++ [err] := fun _ _ _ => rfl

theorem solve_cross_resumed :
    crossSession.store.Valid ⟨0⟩ ∧ crossSession.store.Valid ⟨1⟩ ∧ (⟨0⟩ : Ref) ≠ ⟨1⟩ ∧
      Follows
        (fun _ s₁ _ s₂ => s₁.store.read ⟨0⟩ = s₂.store.read ⟨0⟩ ∧
          s₁.store.read ⟨1⟩ = s₂.store.read ⟨1⟩)
        (fun s₁ s₂ => s₁.store.read ⟨0⟩ = s₂.store.read ⟨0⟩ ∧
          s₁.store.read ⟨1⟩ = s₂.store.read ⟨1⟩)
        (mute (solve crossProblem (crossMethod.upTo 1) (some crossTell) ⟨0⟩ (some ⟨1⟩) >>= fun _ =>
          solve crossProblem (crossMethod.upTo 2) (some crossTell) ⟨0⟩ (some ⟨1⟩))) crossSession
        (mute (solve crossProblem (crossMethod.upTo 3) (some crossTell) ⟨0⟩ (some ⟨1⟩)))
        crossSession := by
  have hP : Evaluates crossProblem CrossProduct.residual
      ((Component.plain Float).backend 3).meanSquare := ⟨rfl, rfl⟩
  have hsearch : ∀ profile, crossMethod.search profile crossMethod.reach =
      (LineSearch.inquiry ⟨.bisection, .ok 20⟩ (.upTo 1.0)).run Run.turn profile := fun _ =>
    LineSearch.run_eq_inquiry (S := Float) (R := Float) ⟨.bisection, .ok 20⟩
  have hne : (⟨0⟩ : Ref) ≠ ⟨1⟩ := by decide
  have hx : crossSession.store.Valid ⟨0⟩ := Nat.zero_lt_two
  have hdx : crossSession.store.Valid ⟨1⟩ := Nat.one_lt_two
  exact ⟨hx, hdx, hne, (solve_resumed hP rfl hsearch hne crossTell_heeds hx hdx 1 2).1⟩

end Newton

end NewtonKrylov
