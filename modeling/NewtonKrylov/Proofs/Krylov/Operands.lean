import Mathlib.Algebra.Order.BigOperators.Group.List
import Mathlib.Algebra.Order.Group.Nat
import Mathlib.Data.List.Chain
import NewtonKrylov.Proofs.Krylov.Framed
import NewtonKrylov.Proofs.Krylov.Fresh

/-!
# What GMRES applies its operator to, and what it leaves alone

`Gmres.call_operands`: let the operator write its result only. Then a call, whether it returns or fails,
leaves the right-hand side alone and writes the unknown only when a cycle is closed, or when the
right-hand side has no length. A cycle applies the operator first to the unknown, into `r`, and then to
its basis vectors, into `w`; neither `r` nor `w` is the vector applied to or one of the caller's, and as
long as a cycle lasts the unknown stays what it is.

A call is told as the list of its cycles as the operator sees them (`Visit`). What the unknown holds from
one to the next is `Held`.
-/

namespace NewtonKrylov

variable {V S R σ : Type}

namespace Gmres

/-- The unknown goes from `x` to `x'` by way of what it holds in each of the cycles: a cycle at most adds
a combination of vectors. -/
structure Held (K : Backend S V) (x : V) (visits : List (Visit V)) (x' : V) : Prop where
  first : (visits.map Visit.unknown ++ [x']).head? = some x
  updates : (visits.map Visit.unknown ++ [x']).IsChain fun u u' =>
    ∃ vs ys, u' = combination K u vs ys

/-- What the unknown held in the last of the cycles. -/
def lastHeld (x : V) (visits : List (Visit V)) : V := visits.getLast?.elim x Visit.unknown

theorem Held.nil (K : Backend S V) (x : V) : Held K x [] x :=
  ⟨rfl, .singleton x⟩

theorem Held.cons {K : Backend S V} {x x' : V} {visit : Visit V} {visits : List (Visit V)}
    (h : Held K x visits x') (hupdate : ∃ vs ys, x = combination K visit.unknown vs ys) :
    Held K visit.unknown (visit :: visits) x' where
  first := rfl
  updates := by
    rw [List.map_cons, List.cons_append, List.isChain_cons]
    refine ⟨fun u hu => ?_, h.updates⟩
    rw [h.first] at hu
    obtain rfl := Option.some.inj hu
    exact hupdate

theorem Held.singleton (K : Backend S V) (visit : Visit V) :
    Held K visit.unknown [visit] visit.unknown :=
  (Held.nil K visit.unknown).cons ⟨[], [], rfl⟩

theorem Held.eq_of_length_le {K : Backend S V} {x x' : V} {visits : List (Visit V)}
    (h : Held K x visits x') (hlength : visits.length ≤ 1) (hlast : x' = lastHeld x visits) :
    x' = x := by
  match visits with
  | [] => exact hlast
  | [visit] => exact hlast.trans (Option.some.inj h.first)

/-! ## Cycles -/

section Cycles

variable [Scalar S] {lsq : LeastSquares S} {K : Backend S V} {beta target : S} {ρ : Round V S}

theorem Grows.length_le {c : Cycle V S} {cs : List (Cycle V S)} (h : Grows lsq K beta c cs) :
    c.basis.length + cs.length ≤ (cs.getLastD c).basis.length + 1 := by
  induction h with
  | nil => exact Nat.le_succ _
  | last u hanswered =>
    have hbasis := congrArg List.length hanswered.basis_eq
    simp at hbasis ⊢
    omega
  | cons u hanswered hrest ih =>
    have hbasis := congrArg List.length hanswered.basis_eq
    simp only [Option.toList_some, List.length_append, List.length_singleton] at hbasis
    rw [List.getLastD_cons, List.length_cons]
    omega

variable [Inhabited V]

theorem Round.Grown.applied_length {store : Store V} {c : Cycle Ref S}
    (h : ρ.Grown lsq K target store c) : ρ.applied.length = ρ.steps := by
  obtain ⟨v, spent, -, hgrows⟩ := h.grows
  have hlength := hgrows.length_le
  rw [getLastD_valued] at hlength
  rw [Round.applied_eq ρ (Cycle.start v ρ.beta spent), List.length_take, Round.steps]
  simp [Cycle.valued, Cycle.start] at hlength ⊢
  omega

omit [Inhabited V] in
theorem Cycle.exit_ne_emptyCycle (c : Cycle Ref S) (target : S) :
    c.exit target ≠ some .emptyCycle := by
  unfold Cycle.exit
  split
  · exact nofun
  · split
    · exact nofun
    · exact nofun

omit [Inhabited V] in
theorem Cycle.exit_ne_zeroRhs (c : Cycle Ref S) (target : S) : c.exit target ≠ some .zeroRhs := by
  unfold Cycle.exit
  split
  · exact nofun
  · split
    · exact nofun
    · exact nofun

theorem Round.Ran.applied_length {exit : Option Exit} (h : ρ.Ran lsq K target exit) :
    ρ.applied.length = ρ.steps := by
  cases h with
  | withinTolerance _ hstages => simp [Round.applied, Round.steps, hstages]
  | notFinite _ hstages => simp [Round.applied, Round.steps, hstages]
  | emptyCycle hgrown => exact hgrown.applied_length
  | closed hgrown => exact hgrown.applied_length

theorem Round.Ran.update {exit : Option Exit} (h : ρ.Ran lsq K target exit) :
    ∃ vs ys, ρ.finish = combination K ρ.start vs ys := by
  cases h with
  | withinTolerance _ _ hfinish => exact ⟨[], [], hfinish⟩
  | notFinite _ _ hfinish => exact ⟨[], [], hfinish⟩
  | emptyCycle _ _ hfinish => exact ⟨[], [], hfinish⟩
  | closed _ _ hfinish => exact ⟨_, _, hfinish⟩

theorem Round.Ran.finish_eq {exit : Option Exit} (h : ρ.Ran lsq K target exit)
    (hidle : exit = some .emptyCycle ∨ ρ.applied = []) : ρ.finish = ρ.start := by
  have hlength := h.applied_length
  cases h with
  | withinTolerance _ _ hfinish => exact hfinish
  | notFinite _ _ hfinish => exact hfinish
  | emptyCycle _ _ hfinish => exact hfinish
  | @closed _ c hgrown hcolumns =>
    rcases hidle with hexit | hnone
    · exact absurd hexit (c.exit_ne_emptyCycle target)
    · obtain ⟨v, spent, rfl, -⟩ := hgrown.grows
      rw [hnone, Round.steps] at hlength
      rw [List.length_eq_zero_iff.mp hlength.symm] at hcolumns
      exact absurd rfl hcolumns

theorem Round.Ran.exit_ne {exit : Option Exit} (h : ρ.Ran lsq K target exit) :
    exit ≠ some .zeroRhs := by
  cases h with
  | withinTolerance => exact nofun
  | notFinite => exact nofun
  | emptyCycle => exact nofun
  | closed => exact Cycle.exit_ne_zeroRhs _ target

/-! ## Cycles one after the other -/

variable {x x' : V} {ρs : List (Round V S)} {exit : Option Exit}

theorem Lead.held_append (h : Lead lsq K target x ρs exit x') {visits : List (Visit V)} {x'' : V}
    (hrest : Held K x' visits x'') : Held K x (ρs.map Round.visit ++ visits) x'' := by
  induction h with
  | nil x => exact hrest
  | @last ρ _ hran =>
    have hupdate : ∃ vs ys, ρ.finish = combination K ρ.visit.unknown vs ys := hran.update
    exact hrest.cons hupdate
  | @cons ρ _ _ _ hran _ ih =>
    have hupdate : ∃ vs ys, ρ.finish = combination K ρ.visit.unknown vs ys := hran.update
    exact (ih hrest).cons hupdate

theorem Lead.held (h : Lead lsq K target x ρs exit x') : Held K x (ρs.map Round.visit) x' := by
  have hheld := h.held_append (.nil K x')
  rwa [List.append_nil] at hheld

theorem Lead.applied_sum (h : Lead lsq K target x ρs exit x') :
    (ρs.map Round.steps).sum = ((ρs.map Round.visit).map (·.applied.length)).sum := by
  induction h with
  | nil x => rfl
  | last hran => simp [Round.visit, hran.applied_length]
  | cons hran hrest ih => simp [Round.visit, hran.applied_length, ih]

theorem Lead.exit_ne (h : Lead lsq K target x ρs exit x') : exit ≠ some .zeroRhs := by
  induction h with
  | nil x => exact nofun
  | last hran => exact hran.exit_ne
  | cons _ _ ih => exact ih

theorem Lead.of_nil (h : Lead lsq K target x [] exit x') : x' = x ∧ exit = none := by
  cases h
  exact ⟨rfl, rfl⟩

theorem Lead.finish_eq (h : Lead lsq K target x ρs exit x')
    (hidle : exit = some .emptyCycle ∨
      ∀ visit ∈ (ρs.map Round.visit).getLast?, visit.applied = []) :
    x' = lastHeld x (ρs.map Round.visit) := by
  induction h with
  | nil x => rfl
  | last hran => exact hran.finish_eq (hidle.imp_right fun h => h _ rfl)
  | @cons ρ ρs _ _ hran hrest ih =>
    by_cases hnone : ρs = []
    · subst hnone
      obtain ⟨rfl, rfl⟩ := hrest.of_nil
      exact hran.finish_eq (hidle.imp_right fun h => h _ rfl)
    · have hne : ρs.map Round.visit ≠ [] := fun h => hnone (List.map_eq_nil_iff.mp h)
      rw [List.map_cons, List.getLast?_cons_of_ne_nil hne] at hidle
      rw [ih hidle, List.map_cons, lastHeld, lastHeld, List.getLast?_cons_of_ne_nil hne,
        List.getLast?_eq_some_getLast hne, Option.elim_some, Option.elim_some]

theorem Led.exists_lead {exit : Exit} (h : Led lsq K target x ρs exit x') :
    ∃ e, Lead lsq K target x ρs e x' ∧ (e = some exit ∨ exit = .budgetSpent) := by
  rcases h with ⟨hspent, hlead⟩ | hlead
  · exact ⟨none, hlead, .inr hspent⟩
  · exact ⟨some exit, hlead, .inl rfl⟩

theorem Led.exit_ne {exit : Exit} (h : Led lsq K target x ρs exit x') : exit ≠ .zeroRhs := by
  obtain ⟨e, hlead, rfl | rfl⟩ := h.exists_lead
  · exact fun h => hlead.exit_ne (congrArg some h)
  · exact nofun

theorem Led.held {exit : Exit} (h : Led lsq K target x ρs exit x') :
    Held K x (ρs.map Round.visit) x' := by
  obtain ⟨e, hlead, -⟩ := h.exists_lead
  exact hlead.held

theorem Led.applied_sum {exit : Exit} (h : Led lsq K target x ρs exit x') :
    (ρs.map Round.steps).sum = ((ρs.map Round.visit).map (·.applied.length)).sum := by
  obtain ⟨e, hlead, -⟩ := h.exists_lead
  exact hlead.applied_sum

theorem Led.finish_eq {exit : Exit} (h : Led lsq K target x ρs exit x')
    (hidle : exit = .emptyCycle ∨ ∀ visit ∈ (ρs.map Round.visit).getLast?, visit.applied = []) :
    x' = lastHeld x (ρs.map Round.visit) := by
  obtain ⟨e, hlead, hexit⟩ := h.exists_lead
  rcases hidle with rfl | hidle
  · exact hlead.finish_eq (.inl (by simpa using hexit))
  · exact hlead.finish_eq (.inr hidle)

/-- One cycle leaves the unknown as it is if it completes no step or applies nothing. -/
theorem Led.eq_of_length_le {exit : Exit} (h : Led lsq K target x ρs exit x') (hone : ρs.length ≤ 1)
    (hidle : exit = .emptyCycle ∨ (ρs.map Round.steps).sum = 0) : x' = x := by
  refine h.held.eq_of_length_le (by rwa [List.length_map]) (h.finish_eq (hidle.imp_right ?_))
  intro hnone visit hvisit
  have hsum : ((ρs.map Round.visit).map (·.applied.length)).sum = 0 := h.applied_sum.symm.trans hnone
  have hmem : visit.applied.length ∈ (ρs.map Round.visit).map (·.applied.length) :=
    List.mem_map_of_mem (List.mem_of_getLast? hvisit)
  exact List.length_eq_zero_iff.mp (Nat.le_zero.mp (hsum ▸ List.le_sum_of_mem hmem))

end Cycles

/-! ## Calls -/

section Calls

variable [Inhabited V] [Scalar S]
variable {p : LinearProblem V S R σ} {guard scratch : Set Ref} {s : Session V S R σ}
variable (g : Gmres S R) (lsq : LeastSquares S)

/-- Whatever the operator makes of its result, as long as it writes nothing else: a call leaves the
right-hand side alone, and applies the operator, cycle after cycle, to the unknown into `r` and to basis
vectors into `w`, neither of which is what it is applied to or a vector of the caller. Within a cycle the
unknown stays what it is. From one cycle to the next, and when the call returns, at most a combination of
vectors has been added to it; nothing has when the call fails, or when its last cycle completes no
step. -/
theorem call_operands (sup : Supply p.new (p.own guard scratch)) (hp : p.Framed guard scratch s)
    (hready : sup.Ready s) :
    ∃ r w s₁ s₂, p.new "gmres_r" s = .ok r s₁ ∧ p.new "gmres_w" s₁ = .ok w s₂ ∧
      r ∉ p.own guard scratch ∧ w ∉ p.own guard scratch ∧
      Ends
        (fun account s' => s.Keeps guard s' ∧ ∃ visits,
          Attended p guard scratch s r w s s' visits ∧
          account.cycles = visits.length ∧
          account.applications = (visits.map (·.applied.length)).sum ∧
          (account.exit = .zeroRhs ∧ visits = [] ∧
              s'.store.read p.unknown =
                p.backend.scale (s.store.read p.unknown) (Scalar.ofNat 0) ∨
            account.exit ≠ .zeroRhs ∧
              Held p.backend (s.store.read p.unknown) visits (s'.store.read p.unknown) ∧
              (account.exit = .emptyCycle ∨ (∀ visit ∈ visits.getLast?, visit.applied = []) →
                s'.store.read p.unknown = lastHeld (s.store.read p.unknown) visits) ∧
              (account.cycles ≤ 1 → account.exit = .emptyCycle ∨ account.applications = 0 →
                s'.store.read p.unknown = s.store.read p.unknown)))
        (fun s' => s.Keeps guard s' ∧ ∃ visits,
          Attended p guard scratch s r w s s' visits ∧
          Held p.backend (s.store.read p.unknown) visits (s'.store.read p.unknown) ∧
          s'.store.read p.unknown = lastHeld (s.store.read p.unknown) visits)
        (call g lsq p) s := by
  obtain ⟨r, w, s₁, s₂, hnew_r, hnew_w, hr, hw, hcourse⟩ := course_framed g lsq sup hp hready
  refine ⟨r, w, s₁, s₂, hnew_r, hnew_w, hr, hw, ?_⟩
  rw [call_eq_course, map_eq_pure_bind]
  refine hcourse.bind_mono ?_ ?_
  · rintro s' ⟨hkeeps, -, ⟨hx, hattended⟩ | ⟨tol, -, ρs, vs, hlead, hattended⟩⟩
    · exact ⟨hkeeps, [], hattended, hx ▸ .nil _ _, hx⟩
    · have hstuck := Held.singleton p.backend ⟨s'.store.read p.unknown, vs⟩
      exact ⟨hkeeps, _, hattended, hlead.held_append hstuck, by simp [lastHeld]⟩
  · rintro ⟨ρs, exit⟩ s' ⟨hkeeps, -, hattended, ⟨hq, -, hx⟩ | ⟨tol, -, hled⟩⟩
    · cases hq
      exact Ends.of_ok rfl ⟨hkeeps, [], hattended, rfl, rfl, .inl ⟨rfl, rfl, hx⟩⟩
    exact Ends.of_ok rfl ⟨hkeeps, _, hattended, by simp [Account.of], hled.applied_sum,
      .inr ⟨hled.exit_ne, hled.held, hled.finish_eq,
        fun hone => hled.eq_of_length_le (by simpa [Account.of] using hone)⟩⟩

end Calls

end Gmres

/-! ## An operator that takes down what it is given -/

namespace LinearProblem

variable [Inhabited V] (K : Backend S V) (a : (old x y : V) → V)

/-- A problem on two vectors of its own, with kept work vectors. Its operator takes down what it is
given, and what it writes may depend on the old contents of its result and on the unknown. -/
def sighted : LinearProblem V S R (List (Sight V)) where
  backend := K
  new := Run.keptAs K.new
  operator result v := do
    let old ← Run.contents result
    let b ← Run.contents ⟨0⟩
    let x ← Run.contents ⟨1⟩
    let y ← Run.contents v
    Run.consult (modify fun sights => sights ++ [⟨result, v, b, x⟩])
    Run.overwrite result (a old x y)
  rhs := ⟨0⟩
  unknown := ⟨1⟩

theorem sighted_run (result v : Ref) (s : Session V S R (List (Sight V))) :
    (sighted K a).operator result v s =
      .ok () (Session.write
        { s with outside := s.outside ++ [⟨result, v, s.store.read ⟨0⟩, s.store.read ⟨1⟩⟩] }
        result (a (s.store.read result) (s.store.read ⟨1⟩) (s.store.read v))) := rfl

theorem sighted_sees : (sighted (R := R) K a).Sees id :=
  fun result v s => Ends.of_ok (sighted_run K a result v s) rfl

theorem sighted_framed (b x : V) :
    (sighted K a).Framed {⟨0⟩} ∅
      (Session.fresh b x [] : Session V S R (List (Sight V))) where
  writes := by
    intro s result v _ _ _ _ _
    have hwrote := (Session.Wrote.refl (insert result ∅) s).consult
      (s.outside ++ [⟨result, v, s.store.read ⟨0⟩, s.store.read ⟨1⟩⟩])
    exact Ends.of_ok (sighted_run K a result v s) (hwrote.write (Set.mem_insert result ∅) _)
  rhs_mem := rfl
  placed := by
    have hposed := fresh_posed (S := S) (R := R) K (fun y => pure y) b x ([] : List (Sight V))
    exact ⟨hposed.guard_valid, hposed.unknown_valid, hposed.disjoint, hposed.unknown_not_mem⟩

theorem sighted_ready (b x : V) :
    (Session.fresh b x [] : Session V S R (List (Sight V))).Apart
      ((sighted (R := R) K a).own {⟨0⟩} ∅) := by
  have hplaced := (sighted_framed (R := R) K a b x).placed
  refine Session.Apart.of_no_buffers ?_ rfl
  rintro r (rfl | rfl | hr)
  · exact hplaced.unknown_valid
  · exact hplaced.guard_valid _ rfl
  · exact hr.elim

end LinearProblem

/-- What an operator may write that minds the old contents of its result and the unknown. -/
def mixing (old x y : Vector Float 2) : Vector Float 2 :=
  ((Component.plain Float).backend 2).addScaled (.zipWith (· * ·) x y) old 0.5

/-- All that such an operator takes down is told by the cycles. -/
theorem Gmres.call_sighted_operands :
    ∃ r w, r ∉ ({⟨1⟩, ⟨0⟩} : Set Ref) ∧ w ∉ ({⟨1⟩, ⟨0⟩} : Set Ref) ∧
      Ends
        (fun account s' => s'.store.read ⟨0⟩ = #v[1, 2] ∧ ∃ visits : List (Gmres.Visit _),
          account.cycles = visits.length ∧
            s'.outside = visits.flatMap (Gmres.Visit.sights ⟨1⟩ r w #v[1, 2]))
        (fun s' => s'.store.read ⟨0⟩ = #v[1, 2] ∧ ∃ visits : List (Gmres.Visit _),
          s'.store.read ⟨1⟩ = Gmres.lastHeld #v[3, 4] visits ∧
            s'.outside = visits.flatMap (Gmres.Visit.sights ⟨1⟩ r w #v[1, 2]))
        (Gmres.call (R := Float) ⟨.ok 1e-10, .ok 2, 4, .ok 1e-12⟩ LeastSquares.minimumNorm
          (.sighted ((Component.plain Float).backend 2) mixing))
        (.fresh #v[1, 2] #v[3, 4] []) := by
  obtain ⟨r, w, -, -, -, -, hr, hw, hends⟩ := Gmres.call_operands (R := Float)
    ⟨.ok 1e-10, .ok 2, 4, .ok 1e-12⟩ LeastSquares.minimumNorm (Supply.kept _ _)
    (LinearProblem.sighted_framed ((Component.plain Float).backend 2) mixing #v[1, 2] #v[3, 4])
    (LinearProblem.sighted_ready _ _ _ _)
  have hsees := LinearProblem.sighted_sees (R := Float) ((Component.plain Float).backend 2) mixing
  have hown : ∀ v : Ref, v ∉ insert ⟨1⟩ ({⟨0⟩} ∪ (∅ : Set Ref)) → v ∉ ({⟨1⟩, ⟨0⟩} : Set Ref) :=
    fun v hv hmem => hv (hmem.imp_right .inl)
  refine ⟨r, w, hown r hr, hown w hw, hends.mono ?_ ?_⟩
  · rintro account s' ⟨hkeeps, visits, hattended, hcycles, -⟩
    exact ⟨hkeeps.read_eq ⟨0⟩ rfl, visits, hcycles, hattended.given id hsees⟩
  · rintro s' ⟨hkeeps, visits, hattended, -, hlast⟩
    exact ⟨hkeeps.read_eq ⟨0⟩ rfl, visits, hlast, hattended.given id hsees⟩

end NewtonKrylov
