import Mathlib.Algebra.Order.Floor.Div
import Mathlib.GroupTheory.GroupAction.Ring
import NewtonKrylov.Proofs.Krylov.Course
import NewtonKrylov.Proofs.Krylov.Fresh

/-!
# The operator budget

`Gmres.call_budget`: whatever the operator does and whatever the arithmetic is, a call that returns has
applied the operator to no more basis vectors than the budget allows and once per cycle besides, in as
many cycles as full ones take, and it has spent the budget unless one of its tests has ended it. The
loop over cycles needs no bound of its own: a cycle that another one follows has made a step
(`Turned.progress`), so any fuel that covers what is left of the budget gives the same run
(`Gmres.cycles_fuel`).

What an operator is applied to is read off notes that it takes (`LinearProblem.Notes`). Any operator can
be made to take them (`LinearProblem.noting`).
-/

namespace NewtonKrylov

variable {V S R σ τ α : Type}

/-! ## Operators that take notes -/

/-- The session for those that see only the first part of the collaborators' state. -/
def Session.first (s : Session V S R (σ × τ)) : Session V S R σ := { s with outside := s.outside.1 }

/-- A run that does not see the second part of the collaborators' state. -/
def Run.beside (x : Run V S R σ α) : Run V S R (σ × τ) α :=
  within Session.first (fun s s' => { s' with outside := (s'.outside, s.outside.2) }) x

theorem Run.beside_eq_ok {x : Run V S R σ α} {s s' : Session V S R (σ × τ)} {a : α}
    (h : Run.beside x s = .ok a s') : s'.outside.2 = s.outside.2 := by
  unfold Run.beside within at h
  split at h
  · obtain ⟨-, rfl⟩ := EStateM.Result.ok.inj h
    rfl
  · exact nomatch h

namespace LinearProblem

/-- The problem whose operator takes notes, beside its collaborators' state. -/
def noting (p : LinearProblem V S R σ) : LinearProblem V S R (σ × List (Ref × Ref)) where
  backend := p.backend
  new name := Run.beside (p.new name)
  operator result v := do
    Run.beside (p.operator result v)
    modify fun s => { s with outside := (s.outside.1, s.outside.2 ++ [(result, v)]) }
  rhs := p.rhs
  unknown := p.unknown

theorem noting_notes (p : LinearProblem V S R σ) : p.noting.Notes Prod.snd where
  operator := by
    intro result v s s' h
    obtain ⟨⟨⟩, s₁, hoperator, h⟩ := bind_eq_ok h
    obtain ⟨-, rfl⟩ := EStateM.Result.ok.inj h
    exact congrArg (· ++ [(result, v)]) (Run.beside_eq_ok hoperator)
  new := Run.beside_eq_ok

end LinearProblem

variable [Inhabited V] [Scalar S]

namespace Gmres

variable {g : Gmres S R} {lsq : LeastSquares S} {p : LinearProblem V S R σ} {r w : Ref} {target : S}
variable {s s' : Session V S R σ}

/-! ## Fuel -/

theorem cycles_of_le {spent : Nat} (h : g.maxiter ≤ spent) (fuel begun : Nat) :
    cycles g lsq p r w target fuel spent begun = pure ⟨.budgetSpent, spent, begun⟩ := by
  cases fuel with
  | zero => rfl
  | succ fuel => rw [cycles_succ, if_neg (Nat.not_lt_of_le h)]

/-- Fuel for what is left of the budget is enough. -/
theorem cycles_fuel {fuel fuel' spent : Nat} (h : g.maxiter ≤ spent + fuel)
    (h' : g.maxiter ≤ spent + fuel') (begun : Nat) :
    cycles g lsq p r w target fuel spent begun = cycles g lsq p r w target fuel' spent begun := by
  induction fuel generalizing fuel' spent begun with
  | zero => exact (cycles_of_le h 0 begun).trans (cycles_of_le h fuel' begun).symm
  | succ fuel ih =>
    cases fuel' with
    | zero => exact (cycles_of_le h' _ begun).trans (cycles_of_le h' 0 begun).symm
    | succ fuel' =>
      rw [cycles_succ, cycles_succ]
      split
      · rename_i hbudget
        funext s
        refine bind_run_congr fun q s₁ hturn => ?_
        obtain ⟨ρ, _ | exit⟩ := q
        · have hprogress := (turn_eq_ok hbudget hturn).1.progress rfl
          exact congrFun (ih (by omega) (by omega) (begun + 1)) s₁
        · rfl
      · rfl

/-! ## Cycles within the budget -/

/-- The cycles of a call that make at most `m` steps each, with `spent` of the budget spent before. -/
structure Budgeted (g : Gmres S R) (m spent : Nat) (ρs : List (Round V S)) : Prop where
  within : spent + (ρs.map Round.steps).sum ≤ g.maxiter
  begun : ρs ≠ [] → spent + (ρs.length - 1) * m < g.maxiter
  steps_le : ∀ ρ ∈ ρs, ρ.steps ≤ m
  applied : ∀ ρ ∈ ρs, ρ.applied.length = ρ.steps
  full : ∀ ρ ∈ ρs.dropLast, ρ.steps = m

namespace Budgeted

variable {m spent : Nat} {ρ : Round V S} {ρs : List (Round V S)}

omit [Inhabited V] [Scalar S] in
theorem nil (h : spent ≤ g.maxiter) : Budgeted (V := V) g m spent [] where
  within := h
  begun := fun hne => absurd rfl hne
  steps_le := nofun
  applied := nofun
  full := nofun

theorem singleton (hbudget : spent < g.maxiter) (hrestart : g.restart = .ok m) {exit : Option Exit}
    (h : Turned g p r w target spent ρ exit s') : Budgeted g m spent [ρ] where
  within := by simpa using h.within
  begun := by simpa using hbudget
  steps_le := by simpa using h.steps_le m hrestart
  applied := by simpa using h.applied
  full := nofun

theorem cons (hbudget : spent < g.maxiter) (hrestart : g.restart = .ok m)
    (h : Turned g p r w target spent ρ none s') (hρs : Budgeted g m (spent + ρ.steps) ρs) :
    Budgeted g m spent (ρ :: ρs) := by
  by_cases hne : ρs = []
  · exact hne ▸ singleton hbudget hrestart h
  have hbegun := hρs.begun hne
  have hsteps : ρ.steps = m := by
    rcases h.full rfl with hfull | hspent
    · exact Except.ok.inj (hfull.symm.trans hrestart)
    · omega
  refine ⟨?_, fun _ => ?_, ?_, ?_, ?_⟩
  · rw [List.map_cons, List.sum_cons, ← Nat.add_assoc]
    exact hρs.within
  · obtain ⟨n, hn⟩ := Nat.exists_eq_add_one_of_ne_zero (List.length_pos_iff.mpr hne).ne'
    rw [hn, Nat.add_sub_cancel, hsteps] at hbegun
    rw [List.length_cons, Nat.add_sub_cancel, hn, Nat.succ_mul]
    omega
  · exact List.forall_mem_cons.mpr ⟨hsteps.le, hρs.steps_le⟩
  · exact List.forall_mem_cons.mpr ⟨h.applied, hρs.applied⟩
  · rw [List.dropLast_cons_of_ne_nil hne]
    exact List.forall_mem_cons.mpr ⟨hsteps, hρs.full⟩

omit [Inhabited V] [Scalar S] in
/-- No more cycles are begun than full ones are needed for the budget. -/
theorem length_le (h : Budgeted g m 0 ρs) (hm : 0 < m) : ρs.length ≤ g.maxiter ⌈/⌉ m := by
  by_cases hne : ρs = []
  · exact hne ▸ Nat.zero_le _
  by_contra hlt
  have hfew : g.maxiter ⌈/⌉ m ≤ ρs.length - 1 := by omega
  have hcover : g.maxiter ≤ (ρs.length - 1) * m := by
    rw [Nat.mul_comm]
    exact (ceilDiv_le_iff_le_smul hm).mp hfew
  have hbegun := h.begun hne
  omega

end Budgeted

theorem rounds_eq_ok {m : Nat} (hrestart : g.restart = .ok m) (hm : 0 < m) {fuel spent : Nat}
    (hspent : spent ≤ g.maxiter) (hfuel : g.maxiter ≤ spent + fuel) {ρs : List (Round V S)}
    {exit : Exit} (h : rounds g lsq p r w target fuel spent s = .ok (ρs, exit) s') :
    Budgeted g m spent ρs ∧
      (exit = .budgetSpent ∧ spent + (ρs.map Round.steps).sum = g.maxiter ∨
        ∃ ρ ∈ ρs.getLast?, Shows p r w target s' ρ exit) ∧
      ∀ notes, p.Notes notes → notes s'.outside =
        notes s.outside ++ ρs.flatMap fun ρ => ρ.applications p r w := by
  have hroom : g.restart ≠ .ok 0 := fun h0 => hm.ne (Except.ok.inj (h0.symm.trans hrestart))
  induction fuel generalizing spent ρs s with
  | zero =>
    obtain ⟨heq, rfl⟩ := pure_eq_ok h
    cases heq
    exact ⟨.nil hspent, .inl ⟨rfl, hspent.antisymm hfuel⟩, by simp⟩
  | succ fuel ih =>
    by_cases hbudget : spent < g.maxiter
    · obtain ⟨ρ, next, s₁, hturn, hrest⟩ := rounds_succ_eq_ok hbudget h
      obtain ⟨hturned, hnotes⟩ := turn_eq_ok hbudget hturn
      rcases hrest with ⟨rfl, rfl, rfl⟩ | ⟨rfl, ρs', rfl, hrounds⟩
      · refine ⟨.singleton hbudget hrestart hturned, .inr ⟨ρ, rfl, hturned.shows hroom _ rfl⟩, ?_⟩
        simpa using hnotes
      · have hprogress := hturned.progress rfl
        obtain ⟨hbudgeted, hends, hnotes'⟩ := ih hturned.within (by omega) hrounds
        refine ⟨hbudgeted.cons hbudget hrestart hturned, ?_, fun notes hp => ?_⟩
        · rcases hends with ⟨hexit, hall⟩ | ⟨ρ', hlast, hshows⟩
          · refine .inl ⟨hexit, ?_⟩
            rw [List.map_cons, List.sum_cons, ← Nat.add_assoc]
            exact hall
          · refine .inr ⟨ρ', ?_, hshows⟩
            rw [List.getLast?_cons, hlast]
            rfl
        · rw [hnotes' notes hp, hnotes notes hp, List.flatMap_cons, List.append_assoc]
    · have hover := Nat.le_of_not_lt hbudget
      rw [rounds_of_le hover] at h
      obtain ⟨heq, rfl⟩ := pure_eq_ok h
      cases heq
      exact ⟨.nil hspent, .inl ⟨rfl, hspent.antisymm hover⟩, by simp⟩

/-! ## A whole call -/

/-- Whatever the operator does and whatever the arithmetic is, a call that returns keeps to its budget.
The loop over its cycles ends by itself: more fuel than the budget changes nothing. Every cycle but the
last is full. Unless the right-hand side is zero or a test has ended the call, the budget is spent. -/
theorem call_budget {m : Nat} (hrestart : g.restart = .ok m) (hm : 0 < m) {account : Account}
    (hrun : g.call lsq p s = .ok account s') :
    ∃ r w s₁ s₂ ρs, p.new "gmres_r" s = .ok r s₁ ∧ p.new "gmres_w" s₁ = .ok w s₂ ∧
      g.course lsq p s = .ok (ρs, account.exit) s' ∧ account = Account.of ρs account.exit ∧
      account.applications ≤ g.maxiter ∧ account.cycles ≤ g.maxiter ⌈/⌉ m ∧
      (∀ ρ ∈ ρs.dropLast, ρ.steps = m) ∧ (∀ ρ ∈ ρs, ρ.steps ≤ m ∧ ρ.applied.length = ρ.steps) ∧
      (account.exit = .zeroRhs ∧ Scalar.isZero (p.backend.length (s₂.store.read p.rhs)) = true ∨
        account.exit = .budgetSpent ∧ account.applications = g.maxiter ∨
        ∃ tol, g.tol = .ok tol ∧ ∃ ρ ∈ ρs.getLast?,
          Shows p r w (tol * p.backend.length (s₂.store.read p.rhs)) s' ρ account.exit) ∧
      (∀ notes, p.Notes notes → notes s'.outside =
        notes s.outside ++ ρs.flatMap fun ρ => ρ.applications p r w) ∧
      ∀ target fuel begun, g.maxiter ≤ fuel →
        cycles g lsq p r w target fuel 0 begun = cycles g lsq p r w target g.maxiter 0 begun := by
  rw [call_eq_course] at hrun
  obtain ⟨⟨ρs, exit⟩, s₀, hcourse, hrun⟩ := bind_eq_ok hrun
  obtain ⟨rfl, rfl⟩ := pure_eq_ok hrun
  have hloop : ∀ r w target fuel begun, g.maxiter ≤ fuel →
      cycles g lsq p r w target fuel 0 begun = cycles g lsq p r w target g.maxiter 0 begun :=
    fun r w target fuel begun hfuel =>
      cycles_fuel (hfuel.trans_eq (Nat.zero_add fuel).symm) (Nat.zero_add g.maxiter).ge begun
  have hwhole := hcourse
  obtain ⟨r, s₁, hr, hcourse⟩ := bind_eq_ok hcourse
  obtain ⟨w, s₂, hw, hcourse⟩ := bind_eq_ok hcourse
  have hnotes : ∀ notes, p.Notes notes → notes s₂.outside = notes s.outside :=
    fun notes hp => (hp.new hw).trans (hp.new hr)
  rw [bind_run_ok (p.lengthAt_run p.rhs s₂)] at hcourse
  split at hcourse
  · rename_i hzero
    rw [bind_run_ok (p.backend.scaleInto_run p.unknown p.unknown _)] at hcourse
    obtain ⟨heq, rfl⟩ := pure_eq_ok hcourse
    cases heq
    refine ⟨r, w, s₁, s₂, [], hr, hw, hwhole, rfl, Nat.zero_le _, Nat.zero_le _, nofun, nofun,
      .inl ⟨rfl, hzero⟩, fun notes hp => ?_, hloop r w⟩
    rw [Session.outside_write, hnotes notes hp, List.flatMap_nil, List.append_nil]
  · obtain ⟨tol, s₃, hdemand, hcourse⟩ := bind_eq_ok hcourse
    obtain ⟨htol, rfl⟩ := Run.demand_eq_ok hdemand
    obtain ⟨hbudgeted, hends, hnotes'⟩ :=
      rounds_eq_ok hrestart hm (Nat.zero_le _) (by omega) hcourse
    have hspent := hbudgeted.within
    rw [Nat.zero_add] at hspent hends
    refine ⟨r, w, s₁, s₂, ρs, hr, hw, hwhole, rfl, hspent, hbudgeted.length_le hm, hbudgeted.full,
      fun ρ hρ => ⟨hbudgeted.steps_le ρ hρ, hbudgeted.applied ρ hρ⟩, .inr ?_, fun notes hp => ?_,
      hloop r w⟩
    · exact hends.imp_right fun hshows => ⟨tol, htol, hshows⟩
    · rw [hnotes' notes hp, hnotes notes hp]

/-- A quarter turn of the plane. Single steps of GMRES make nothing of it. -/
def quarterTurn (v : Vector Float 2) : Collab Float Unit (Vector Float 2) := pure #v[-v.get 1, v.get 0]

/-- The turn to invert, with notes. -/
def turnProblem : LinearProblem (Vector Float 2) Float Float (Unit × List (Ref × Ref)) :=
  (LinearProblem.fresh ((Component.plain Float).backend 2) quarterTurn).noting

/-- A call with cycles of one step and a budget of three. -/
def turnCall : EStateM.Result (Fault Float)
    (Session (Vector Float 2) Float Float (Unit × List (Ref × Ref))) Account :=
  Gmres.call ⟨.ok 0, .ok 1, 3, .ok 0⟩ (fun k _ _ => Vector.replicate k 0) turnProblem
    (.fresh #v[1, 0] #v[0, 0] ((), []))

theorem call_turn_budget :
    ∃ account s', turnCall = .ok account s' ∧ account.applications = 3 ∧
      account.cycles ≤ 3 ⌈/⌉ 1 ∧
      ∃ r w ρs, account = Account.of ρs account.exit ∧ (∀ ρ ∈ ρs.dropLast, ρ.steps = 1) ∧
        s'.outside.2 = ρs.flatMap fun ρ => ρ.applications turnProblem r w := by
  have hexit : (match turnCall with
      | .ok account _ => some account.exit
      | .error _ _ => none) = some .budgetSpent := by decide +kernel
  cases hrun : turnCall with
  | error e s' =>
    rw [hrun] at hexit
    exact nomatch hexit
  | ok account s' =>
    rw [hrun] at hexit
    obtain ⟨r, w, s₁, s₂, ρs, -, -, -, haccount, -, hcycles, hfull, -, hends, hnotes, -⟩ :=
      call_budget rfl Nat.one_pos hrun
    refine ⟨account, s', rfl, ?_, hcycles, r, w, ρs, haccount, hfull, ?_⟩
    · rw [Option.some.inj hexit] at hends
      rcases hends with ⟨hzero, -⟩ | ⟨-, hspent⟩ | ⟨_, _, _, _, hshows⟩
      · exact nomatch hzero
      · exact hspent
      · exact nomatch hshows
    · exact hnotes Prod.snd (LinearProblem.noting_notes _)

end Gmres

end NewtonKrylov
