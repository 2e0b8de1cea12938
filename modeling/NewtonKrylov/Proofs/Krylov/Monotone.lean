import NewtonKrylov.Proofs.Krylov.Optimality

/-!
# Larger budgets

Two calls that differ in their budgets do the same until the smaller budget cuts a cycle. What the cut
cycle has built is the beginning of what the longer one builds (`Gmres.turn_cut`), in any arithmetic.
In exact arithmetic the longer one leaves no larger residual, since it looks for the least one on a
larger space, and no later cycle makes it larger: the tracked residuals of a call never rise
(`Gmres.residuals_fall`). So a larger budget never hurts (`Gmres.call_monotone`).
-/

namespace NewtonKrylov

variable {V S R σ : Type}

namespace Gmres

/-! ## Calls that are cut -/

section Prefix

variable [Inhabited V] [Scalar S] {g : Gmres S R} {lsq : LeastSquares S} {p : LinearProblem V S R σ}
variable {r w : Ref} {beta target : S} {s s₁ s₂ : Session V S R σ} {m : Nat}

/-- The steps under a larger budget are the same, or the smaller budget has cut them. -/
theorem stages_cut (hm : g.maxiter ≤ m) {count : Nat} {v : Ref} {c : Cycle Ref S}
    {cs cs' : List (Cycle Ref S)} (h : stages g lsq p w beta target count v c s = .ok cs s₁)
    (h' : stages { g with maxiter := m } lsq p w beta target count v c s = .ok cs' s₂) :
    cs = cs' ∧ s₁ = s₂ ∨ g.maxiter ≤ (cs.getLastD c).spent ∧ cs <+: cs' := by
  induction count generalizing v c cs cs' s with
  | zero =>
    obtain ⟨rfl, rfl⟩ := pure_eq_ok h
    obtain ⟨rfl, rfl⟩ := pure_eq_ok h'
    exact .inl ⟨rfl, rfl⟩
  | succ count ih =>
    unfold stages at h h'
    by_cases hbudget : c.spent < g.maxiter
    · rw [if_pos hbudget] at h
      rw [if_pos (hbudget.trans_le hm)] at h'
      obtain ⟨⟨c₁, next⟩, s', hstep, h⟩ := bind_eq_ok h
      have hstep' : step { g with maxiter := m } lsq p w beta target v c s = .ok (c₁, next) s' := hstep
      rw [bind_run_ok hstep'] at h'
      cases next with
      | none =>
        obtain ⟨rfl, rfl⟩ := pure_eq_ok h
        obtain ⟨rfl, rfl⟩ := pure_eq_ok h'
        exact .inl ⟨rfl, rfl⟩
      | some next =>
        obtain ⟨cs₁, s₁', hrest, h⟩ := bind_eq_ok h
        obtain ⟨rfl, rfl⟩ := pure_eq_ok h
        obtain ⟨cs₂, s₂', hrest', h'⟩ := bind_eq_ok h'
        obtain ⟨rfl, rfl⟩ := pure_eq_ok h'
        rw [List.getLastD_cons, List.cons_prefix_cons]
        rcases ih hrest hrest' with ⟨rfl, rfl⟩ | ⟨hspent, hcs⟩
        · exact .inl ⟨rfl, rfl⟩
        · exact .inr ⟨hspent, rfl, hcs⟩
    · rw [if_neg hbudget] at h
      obtain ⟨rfl, rfl⟩ := pure_eq_ok h
      exact .inr ⟨Nat.le_of_not_lt hbudget, List.nil_prefix⟩

theorem cycleStages_cut (hm : g.maxiter ≤ m) {spent : Nat} {c₀ c₀' : Cycle Ref S}
    {cs cs' : List (Cycle Ref S)} (h : cycleStages g lsq p r w beta target spent s = .ok (c₀, cs) s₁)
    (h' : cycleStages { g with maxiter := m } lsq p r w beta target spent s = .ok (c₀', cs') s₂) :
    c₀ = c₀' ∧ cs = cs' ∧ s₁ = s₂ ∨ g.maxiter ≤ spent + cs.length ∧ cs <+: cs' := by
  obtain ⟨_, v₀, -, hstart, hstaged, -⟩ := cycleStages_eq_ok h
  unfold cycleStages at h h'
  obtain ⟨v, t₁, hnew, h⟩ := bind_eq_ok h
  rw [bind_run_ok hnew] at h'
  obtain ⟨d, t₂, hreciprocal, h⟩ := bind_eq_ok h
  rw [bind_run_ok hreciprocal] at h'
  obtain ⟨⟨⟩, t₃, hscale, h⟩ := bind_eq_ok h
  rw [bind_run_ok hscale] at h'
  obtain ⟨count, t₄, hdemand, h⟩ := bind_eq_ok h
  rw [bind_run_ok hdemand] at h'
  obtain ⟨cs₁, t₅, hstages, h⟩ := bind_eq_ok h
  obtain ⟨heq, rfl⟩ := pure_eq_ok h
  cases heq
  obtain ⟨cs₂, t₆, hstages', h'⟩ := bind_eq_ok h'
  obtain ⟨heq, rfl⟩ := pure_eq_ok h'
  cases heq
  refine (stages_cut hm hstages hstages').imp (fun h => ⟨rfl, h⟩) fun ⟨hspent, hcs⟩ => ⟨?_, hcs⟩
  exact hspent.trans_eq hstaged.spent_eq

theorem turn_cut (hm : g.maxiter ≤ m) {spent : Nat} {ρ ρ' : Round V S} {exit exit' : Option Exit}
    (h : turn g lsq p r w target spent s = .ok (ρ, exit) s₁)
    (h' : turn { g with maxiter := m } lsq p r w target spent s = .ok (ρ', exit') s₂) :
    ρ = ρ' ∧ exit = exit' ∧ s₁ = s₂ ∨
      g.maxiter ≤ spent + ρ.steps ∧ ρ.start = ρ'.start ∧ ρ.stages <+: ρ'.stages := by
  unfold turn at h h'
  obtain ⟨x, t₁, hcontents, h⟩ := bind_eq_ok h
  rw [bind_run_ok hcontents] at h'
  obtain ⟨⟨⟩, t₂, hresidual, h⟩ := bind_eq_ok h
  rw [bind_run_ok hresidual, bind_run_ok (p.lengthAt_run r t₂)] at h'
  rw [bind_run_ok (p.lengthAt_run r t₂)] at h
  split at h
  · rename_i hle
    rw [if_pos hle, h] at h'
    obtain ⟨heq, rfl⟩ := EStateM.Result.ok.inj h'
    cases heq
    exact .inl ⟨rfl, rfl, rfl⟩
  rename_i hlarge
  rw [if_neg hlarge] at h'
  split at h
  · rename_i hfinite
    rw [if_pos hfinite, h] at h'
    obtain ⟨heq, rfl⟩ := EStateM.Result.ok.inj h'
    cases heq
    exact .inl ⟨rfl, rfl, rfl⟩
  rename_i hfinite
  rw [if_neg hfinite] at h'
  obtain ⟨⟨c₀, cs⟩, t₃, hcycle, h⟩ := bind_eq_ok h
  obtain ⟨⟨c₀', cs'⟩, t₄, hcycle', h'⟩ := bind_eq_ok h'
  rcases cycleStages_cut hm hcycle hcycle' with ⟨rfl, rfl, rfl⟩ | ⟨hspent, hcs⟩
  · dsimp only at h h'
    rw [h] at h'
    obtain ⟨heq, rfl⟩ := EStateM.Result.ok.inj h'
    cases heq
    exact .inl ⟨rfl, rfl, rfl⟩
  · obtain ⟨hstart, -, rfl, -⟩ := close_eq_ok h
    obtain ⟨hstart', -, rfl, -⟩ := close_eq_ok h'
    exact .inr ⟨hspent, hstart.trans hstart'.symm, hcs⟩

theorem rounds_cut {fuel spent : Nat} (hbudget : spent < g.maxiter) {ρs : List (Round V S)}
    {exit : Exit} (h : rounds g lsq p r w target (fuel + 1) spent s = .ok (ρs, exit) s₁)
    {ρ : Round V S} {next : Option Exit} (hturn : turn g lsq p r w target spent s = .ok (ρ, next) s₂)
    (hspent : g.maxiter ≤ spent + ρ.steps) : s₁ = s₂ := by
  obtain ⟨ρ', next', s', hturn', hrest⟩ := rounds_succ_eq_ok hbudget h
  obtain ⟨heq, rfl⟩ := EStateM.Result.ok.inj (hturn.symm.trans hturn')
  cases heq
  rcases hrest with ⟨-, -, rfl⟩ | ⟨-, ρs', -, hrounds⟩
  · rfl
  · rw [rounds_of_le hspent] at hrounds
    exact (pure_eq_ok hrounds).2.symm

end Prefix

/-! ## Residuals over restarts -/

section Exact

variable {E : Type} [NormedAddCommGroup E] [InnerProductSpace ℝ E]
variable {e : V → E} {L : E →ₗ[ℝ] E} {b : E}

theorem Round.getLast?_residuals (ρ : Round V ℝ) : ρ.residuals.getLast? = some ρ.residual := by
  rw [Round.residuals, Round.residual, List.getLast?_cons, List.getLast?_map]
  cases ρ.stages.getLast? with
  | none => rfl
  | some c => rfl

theorem Round.Exact.residual_le {ρ : Round V ℝ} (h : ρ.Exact e L b) :
    ∀ y ∈ ρ.residuals, ρ.residual ≤ y ∧ y ≤ ‖b - L (e ρ.start)‖ := by
  obtain ⟨before, hbefore⟩ := List.getLast?_eq_some_iff.mp ρ.getLast?_residuals
  have hlast := h.falling
  rw [hbefore] at hlast
  have hfirst := (List.pairwise_cons.mp h.falling).1
  intro y hy
  constructor
  · rw [hbefore, List.mem_append, List.mem_singleton] at hy
    rcases hy with hy | rfl
    · exact (List.pairwise_append.mp hlast).2.2 y hy _ (List.mem_singleton_self _)
    · exact le_rfl
  · rw [← h.beta_eq]
    rcases List.mem_cons.mp hy with rfl | hy
    · exact le_rfl
    · exact hfirst y hy

theorem residuals_fall {ρs : List (Round V ℝ)} (hexact : ∀ ρ ∈ ρs, ρ.Exact e L b) {x x' : V}
    (hjoined : x :: ρs.map Round.finish = ρs.map Round.start ++ [x']) :
    (‖b - L (e x)‖ :: (ρs.flatMap Round.residuals ++ [‖b - L (e x')‖])).Pairwise (· ≥ ·) := by
  induction ρs generalizing x with
  | nil =>
    obtain rfl : x = x' := List.singleton_inj.mp hjoined
    simp
  | cons ρ ρs ih =>
    obtain ⟨h, hexact⟩ := List.forall_mem_cons.mp hexact
    obtain ⟨rfl, htail⟩ := List.cons.inj hjoined
    obtain ⟨hbelow, hrest⟩ := List.pairwise_cons.mp (ih hexact htail)
    have hall : ∀ y ∈ ‖b - L (e ρ.start)‖ :: ρ.residuals, ρ.residual ≤ y := by
      refine List.forall_mem_cons.mpr ⟨?_, fun y hy => (h.residual_le y hy).1⟩
      rw [← h.beta_eq]
      exact (h.residual_le _ List.mem_cons_self).1
    rw [List.flatMap_cons, List.append_assoc, ← List.cons_append, List.pairwise_append]
    refine ⟨List.pairwise_cons.mpr ⟨fun y hy => (h.residual_le y hy).2, h.falling⟩, hrest,
      fun y hy z hz => ?_⟩
    exact (hbelow z hz).trans (h.residual_eq.symm.trans_le (hall y hy))

/-! ## Larger budgets -/

/-- What a cycle that was cut has left is no less than what the whole one leaves. -/
theorem Round.Exact.residual_anti {ρ ρ' : Round V ℝ} (h : ρ.Exact e L b) (h' : ρ'.Exact e L b)
    (hstart : ρ.start = ρ'.start) (hstages : ρ.stages <+: ρ'.stages) : ρ'.residual ≤ ρ.residual := by
  have hleast := h.least
  rw [hstart] at hleast
  exact hleast.mono h'.least (Set.image_mono (krylov_mono hstages.length_le))

variable [Inhabited V] {R : Type} {g : Gmres ℝ R} {lsq : LeastSquares ℝ} {a : V → V}
variable {delta target : ℝ} {count m : Nat}
variable {p : LinearProblem V ℝ R (List V)} {guard scratch : Set Ref}
variable {sup : Supply p.new (p.own guard scratch)} {s₀ s s₁ s₂ : Session V ℝ R (List V)}
variable {r w : Ref}
variable (hp : p.Posed (traced a) guard scratch s₀) (hdelta : g.breakdownTol = .ok delta)
  (hnonneg : 0 ≤ delta) (hlsq : lsq.Minimises) (hK : p.backend.Exact e) (hL : ∀ v, e (a v) = L (e v))
  (hrestart : g.restart = .ok count) (htarget : 0 ≤ target)
include hp hdelta hnonneg hlsq hK hL hrestart htarget

theorem rounds_residual_le {fuel spent : Nat} {u : Unknown V (List V)}
    (h : Refining sup s₀ r w s u) {ρs : List (Round V ℝ)} {exit : Exit}
    (hrun : rounds g lsq p r w target fuel spent s = .ok (ρs, exit) s₁) :
    ‖e (s₀.store.read p.rhs) - L (e (s₁.store.read p.unknown))‖ ≤
      ‖e (s₀.store.read p.rhs) - L (e u.value)‖ := by
  obtain ⟨ρs', exit', s', u', hrun', h', hjoined, hexact⟩ :=
    rounds_exact hp hdelta hnonneg hlsq hK hL hrestart htarget fuel spent h
  rw [hrun] at hrun'
  obtain ⟨heq, rfl⟩ := EStateM.Result.ok.inj hrun'
  rw [h'.value_eq]
  refine (List.pairwise_cons.mp (residuals_fall hexact hjoined)).1 _ ?_
  simp

theorem turn_exact_of_ok {spent : Nat} {u : Unknown V (List V)} (h : Refining sup s₀ r w s u)
    {ρ : Round V ℝ} {next : Option Exit}
    (hturn : turn g lsq p r w target spent s = .ok (ρ, next) s₁) :
    (∃ trace, Refining sup s₀ r w s₁ ⟨ρ.finish, trace⟩) ∧
      ρ.Exact e L (e (s₀.store.read p.rhs)) := by
  obtain ⟨ρ', next', s', trace, hturn', h', -, hexact⟩ :=
    turn_exact hdelta hnonneg hlsq hK hL hrestart htarget spent hp h
  obtain ⟨heq, rfl⟩ := EStateM.Result.ok.inj (hturn'.symm.trans hturn)
  cases heq
  exact ⟨⟨trace, h'⟩, hexact⟩

theorem rounds_succ_residual_le {fuel spent : Nat} (hbudget : spent < g.maxiter)
    {u : Unknown V (List V)} (h : Refining sup s₀ r w s u) {ρs : List (Round V ℝ)} {exit : Exit}
    (hrun : rounds g lsq p r w target (fuel + 1) spent s = .ok (ρs, exit) s₁) {ρ : Round V ℝ}
    {next : Option Exit} (hturn : turn g lsq p r w target spent s = .ok (ρ, next) s₂) :
    ‖e (s₀.store.read p.rhs) - L (e (s₁.store.read p.unknown))‖ ≤ ρ.residual := by
  obtain ⟨⟨trace, h'⟩, hexact⟩ :=
    turn_exact_of_ok hp hdelta hnonneg hlsq hK hL hrestart htarget h hturn
  obtain ⟨ρ', next', s', hturn', hrest⟩ := rounds_succ_eq_ok hbudget hrun
  obtain ⟨heq, rfl⟩ := EStateM.Result.ok.inj (hturn.symm.trans hturn')
  cases heq
  rw [hexact.residual_eq]
  rcases hrest with ⟨-, -, rfl⟩ | ⟨-, ρs', -, hrounds⟩
  · rw [h'.value_eq]
  · exact rounds_residual_le hp hdelta hnonneg hlsq hK hL hrestart htarget h' hrounds

/-- With more of the budget the remaining cycles leave no larger residual. -/
theorem rounds_monotone (hm : g.maxiter ≤ m) {fuel fuel' spent : Nat} (hfuel : fuel ≤ fuel')
    {u : Unknown V (List V)} (h : Refining sup s₀ r w s u) {ρs ρs' : List (Round V ℝ)}
    {exit exit' : Exit} (hrun : rounds g lsq p r w target fuel spent s = .ok (ρs, exit) s₁)
    (hrun' : rounds { g with maxiter := m } lsq p r w target fuel' spent s = .ok (ρs', exit') s₂) :
    ‖e (s₀.store.read p.rhs) - L (e (s₂.store.read p.unknown))‖ ≤
      ‖e (s₀.store.read p.rhs) - L (e (s₁.store.read p.unknown))‖ := by
  have hlater : ‖e (s₀.store.read p.rhs) - L (e (s₂.store.read p.unknown))‖ ≤
      ‖e (s₀.store.read p.rhs) - L (e u.value)‖ :=
    rounds_residual_le (g := { g with maxiter := m }) hp hdelta hnonneg hlsq hK hL hrestart htarget h
      hrun'
  induction fuel generalizing fuel' spent s u ρs ρs' exit exit' with
  | zero =>
    obtain ⟨-, rfl⟩ := pure_eq_ok hrun
    rwa [h.value_eq]
  | succ fuel ih =>
    by_cases hbudget : spent < g.maxiter
    · obtain ⟨fuel', rfl⟩ : ∃ n, fuel' = n + 1 := ⟨fuel' - 1, by omega⟩
      have hbudget' : spent < m := hbudget.trans_le hm
      obtain ⟨ρ, next, t₁, hturn, hrest⟩ := rounds_succ_eq_ok hbudget hrun
      obtain ⟨ρ', next', t₂, hturn', hrest'⟩ := rounds_succ_eq_ok hbudget' hrun'
      obtain ⟨⟨trace, h₁⟩, hexact⟩ :=
        turn_exact_of_ok hp hdelta hnonneg hlsq hK hL hrestart htarget h hturn
      rcases turn_cut hm hturn hturn' with ⟨rfl, rfl, rfl⟩ | ⟨hspent, hstart, hstages⟩
      · rcases hrest with ⟨rfl, -, rfl⟩ | ⟨rfl, ρs₁, -, hrounds⟩
        · rcases hrest' with ⟨-, -, rfl⟩ | ⟨hnone, -⟩
          · exact le_rfl
          · exact nomatch hnone
        · rcases hrest' with ⟨hsome, -⟩ | ⟨-, ρs₂, -, hrounds'⟩
          · exact nomatch hsome
          · refine ih (Nat.le_of_succ_le_succ hfuel) h₁ hrounds hrounds' ?_
            exact rounds_residual_le (g := { g with maxiter := m }) hp hdelta hnonneg hlsq hK hL
              hrestart htarget h₁ hrounds'
      · -- the smaller budget has cut the cycle, and with it the call
        have hexact' := (turn_exact_of_ok (g := { g with maxiter := m }) hp hdelta hnonneg hlsq hK hL
          hrestart htarget h hturn').2
        rw [rounds_cut hbudget hrun hturn hspent, h₁.value_eq]
        calc ‖e (s₀.store.read p.rhs) - L (e (s₂.store.read p.unknown))‖ ≤ ρ'.residual :=
              rounds_succ_residual_le (g := { g with maxiter := m }) hp hdelta hnonneg hlsq hK hL
                hrestart htarget hbudget' h hrun' hturn'
          _ ≤ ρ.residual := hexact.residual_anti hexact' hstart hstages
          _ = ‖e (s₀.store.read p.rhs) - L (e ρ.finish)‖ := hexact.residual_eq
    · rw [rounds_of_le (Nat.le_of_not_lt hbudget)] at hrun
      obtain ⟨-, rfl⟩ := pure_eq_ok hrun
      rwa [h.value_eq]

omit hrestart htarget hp in
theorem course_monotone {tol : ℝ} (htol : g.tol = .ok tol) (htol_nonneg : 0 ≤ tol)
    (hrestart : g.restart = .ok count) (hm : g.maxiter ≤ m) (hp : p.Posed (traced a) guard scratch s)
    (sup : Supply p.new (p.own guard scratch)) (hready : sup.Ready s) {ρs ρs' : List (Round V ℝ)}
    {exit exit' : Exit} (hrun : g.course lsq p s = .ok (ρs, exit) s₁)
    (hrun' : Gmres.course { g with maxiter := m } lsq p s = .ok (ρs', exit') s₂) :
    ‖e (s.store.read p.rhs) - L (e (s₂.store.read p.unknown))‖ ≤
      ‖e (s.store.read p.rhs) - L (e (s₁.store.read p.unknown))‖ := by
  obtain ⟨r, w, t₁, t₂, hr, hw, -, h⟩ := Refining.opening sup hp.placed hready
  have htarget : 0 ≤ tol * p.backend.length (t₂.store.read p.rhs) := by
    rw [hK.length_eq]
    exact mul_nonneg htol_nonneg (norm_nonneg _)
  unfold course at hrun hrun'
  rw [bind_run_ok hr, bind_run_ok hw, bind_run_ok (p.lengthAt_run p.rhs t₂)] at hrun hrun'
  split at hrun
  · rename_i hzero
    rw [if_pos hzero, hrun] at hrun'
    obtain ⟨-, rfl⟩ := EStateM.Result.ok.inj hrun'
    exact le_rfl
  · rename_i hzero
    rw [if_neg hzero] at hrun'
    have hdemand : Run.demand g.tol t₂ = .ok tol t₂ := by rw [htol]; rfl
    rw [bind_run_ok hdemand] at hrun hrun'
    exact rounds_monotone hp hdelta hnonneg hlsq hK hL hrestart htarget hm hm h hrun hrun'

end Exact

/-! ## Whole calls -/

section Vectors

variable {R : Type} {n : Nat} (L : EuclideanSpace ℝ (Fin n) →ₗ[ℝ] EuclideanSpace ℝ (Fin n))

/-- With a larger budget a call leaves no larger residual. The residuals that a call tracks, over all its
cycles, never rise, and none is larger than the one that it is given. -/
theorem call_monotone {g : Gmres ℝ R} {tol delta : ℝ} {count m : Nat} (htol : g.tol = .ok tol)
    (hrestart : g.restart = .ok count) (hdelta : g.breakdownTol = .ok delta) (htol_nonneg : 0 ≤ tol)
    (hnonneg : 0 ≤ delta) (hm : g.maxiter ≤ m) {lsq : LeastSquares ℝ} (hlsq : lsq.Minimises)
    {p : LinearProblem (Vector ℝ n) ℝ R (List (Vector ℝ n))}
    (hbackend : p.backend = (Component.plain ℝ).backend n) {guard scratch : Set Ref}
    {s : Session (Vector ℝ n) ℝ R (List (Vector ℝ n))}
    (hp : p.Posed (traced (applied L)) guard scratch s) (sup : Supply p.new (p.own guard scratch))
    (hready : sup.Ready s) :
    ∃ ρs account s₁ account' s₂,
      g.course lsq p s = .ok (ρs, account.exit) s₁ ∧ g.call lsq p s = .ok account s₁ ∧
      Gmres.call { g with maxiter := m } lsq p s = .ok account' s₂ ∧
      misfit L (s.store.read p.rhs) (s₂.store.read p.unknown) ≤
        misfit L (s.store.read p.rhs) (s₁.store.read p.unknown) ∧
      (ρs.flatMap Round.residuals).Pairwise (· ≥ ·) ∧
      ∀ y ∈ ρs.flatMap Round.residuals,
        y ≤ misfit L (s.store.read p.rhs) (s.store.read p.unknown) := by
  have hK : p.backend.Exact point := hbackend ▸ Component.plain_exact n
  obtain ⟨ρs, exit, s₁, hcourse, hjoined, hexact⟩ := course_exact htol hrestart hdelta htol_nonneg
    hnonneg hlsq hK (point_applied L) hp sup hready
  obtain ⟨ρs', exit', s₂, hcourse', -⟩ := course_exact (g := { g with maxiter := m }) htol hrestart
    hdelta htol_nonneg hnonneg hlsq hK (point_applied L) hp sup hready
  refine ⟨ρs, Account.of ρs exit, s₁, Account.of ρs' exit', s₂, hcourse, ?_, ?_, ?_, ?_⟩
  · rw [call_eq_course]
    exact bind_run_ok hcourse _
  · rw [call_eq_course]
    exact bind_run_ok hcourse' _
  · exact course_monotone hdelta hnonneg hlsq hK (point_applied L) htol htol_nonneg hrestart hm hp sup
      hready hcourse hcourse'
  · rcases hjoined with ⟨-, rfl⟩ | hjoined
    · exact ⟨.nil, nofun⟩
    · obtain ⟨hbelow, hfall⟩ := List.pairwise_cons.mp (residuals_fall hexact hjoined)
      exact ⟨(List.pairwise_append.mp hfall).1, fun y hy => hbelow y (List.mem_append_left _ hy)⟩

end Vectors

/-- A budget that cuts a cycle after one step, and one that does not. -/
theorem call_axisCross_monotone :
    ∃ ρs account s₁ account' s₂,
      Gmres.course (R := ℝ) ⟨.ok 0, .ok 2, 1, .ok 0⟩ LeastSquares.exact
        (.fresh ((Component.plain ℝ).backend 3) (traced (applied axisCross)))
        (.fresh #v[-2, 1, 5] #v[0, 0, 7] []) = .ok (ρs, account.exit) s₁ ∧
      Gmres.call (R := ℝ) ⟨.ok 0, .ok 2, 1, .ok 0⟩ LeastSquares.exact
        (.fresh ((Component.plain ℝ).backend 3) (traced (applied axisCross)))
        (.fresh #v[-2, 1, 5] #v[0, 0, 7] []) = .ok account s₁ ∧
      Gmres.call (R := ℝ) ⟨.ok 0, .ok 2, 4, .ok 0⟩ LeastSquares.exact
        (.fresh ((Component.plain ℝ).backend 3) (traced (applied axisCross)))
        (.fresh #v[-2, 1, 5] #v[0, 0, 7] []) = .ok account' s₂ ∧
      misfit axisCross #v[-2, 1, 5] (s₂.store.read ⟨1⟩) ≤
        misfit axisCross #v[-2, 1, 5] (s₁.store.read ⟨1⟩) ∧
      (ρs.flatMap Round.residuals).Pairwise (· ≥ ·) ∧
      ∀ y ∈ ρs.flatMap Round.residuals, y ≤ misfit axisCross #v[-2, 1, 5] #v[0, 0, 7] :=
  call_monotone axisCross (g := ⟨.ok 0, .ok 2, 1, .ok 0⟩) (m := 4) rfl rfl rfl le_rfl le_rfl
    (Nat.le_add_left 1 3) LeastSquares.exact_minimises rfl (LinearProblem.fresh_posed _ _ _ _ _)
    (Supply.fresh _ _) (LinearProblem.fresh_ready _ _ _ _ _)

end Gmres

end NewtonKrylov
