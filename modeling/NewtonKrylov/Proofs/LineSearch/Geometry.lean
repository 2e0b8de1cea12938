import NewtonKrylov.Proofs.Exact
import NewtonKrylov.Proofs.Faults
import NewtonKrylov.Proofs.LineSearch.Descent
import NewtonKrylov.Proofs.LineSearch.Looks

/-!
# The brackets of a bisection

`LineSearch.bisection_surveyed`: in exact arithmetic, and whatever a profile answers, the brackets of a
bisection lie in one another and each is half as wide as the one before; their ends have been looked at,
each with the norm that is kept for it, and so has what is chosen; all looks are within reach and no two of
them at the same scale. How norms compare plays no part: a look puts the middle in place of one end,
whichever it is (`Bracket.Half`), and all later looks are inside the half that is kept.
-/

namespace NewtonKrylov

variable {R ε σ : Type}

namespace Bracket

variable {b b' : Bracket ℝ R} {norm : R}

/-- The looks that a bracket keeps. -/
def ends (b : Bracket ℝ R) : List (ℝ × R) := [(b.left, b.leftNorm), (b.right, b.rightNorm)]

theorem middle_real (b : Bracket ℝ R) : b.middle = (b.left + b.right) / 2 := by
  rw [middle, Scalar.ofNat_real, Scalar.ofNat_real]
  push_cast
  ring

theorem left_lt_middle (h : b.left < b.right) : b.left < b.middle := by
  rw [middle_real]
  linarith

theorem middle_lt_right (h : b.left < b.right) : b.middle < b.right := by
  rw [middle_real]
  linarith

/-- The second bracket is the left or the right half of the first one, with `norm` at the middle. -/
inductive Half (b : Bracket ℝ R) (norm : R) : Bracket ℝ R → Prop where
  | left : Half b norm (b.withRight b.middle norm)
  | right : Half b norm (b.withLeft b.middle norm)

theorem half_of_narrow [Magnitude R] (h : b.narrow b.middle norm = some b') : b.Half norm b' := by
  rcases narrow_eq_some h with rfl | rfl
  · exact .right
  · exact .left

namespace Half

variable (h : b.Half norm b')
include h

theorem width_eq : b'.right - b'.left = (b.right - b.left) / 2 := by
  cases h with
  | left =>
    show b.middle - b.left = _
    rw [middle_real]
    ring
  | right =>
    show b.right - b.middle = _
    rw [middle_real]
    ring

theorem ends_subset : b'.ends ⊆ (b.middle, norm) :: b.ends := by
  cases h with
  | left => simp [ends, withRight]
  | right => simp [ends, withLeft]

theorem ne_middle {alpha : ℝ} (hleft : b'.left < alpha) (hright : alpha < b'.right) :
    alpha ≠ b.middle := by
  cases h with
  | left => exact hright.ne
  | right => exact hleft.ne'

variable (hb : b.left < b.right)
include hb

theorem lt : b'.left < b'.right := by
  cases h with
  | left => exact left_lt_middle hb
  | right => exact middle_lt_right hb

theorem within : b.left ≤ b'.left ∧ b'.right ≤ b.right := by
  cases h with
  | left => exact ⟨le_rfl, (middle_lt_right hb).le⟩
  | right => exact ⟨(left_lt_middle hb).le, le_rfl⟩

end Half

/-! ## Pursuits -/

namespace Pursues

variable [Magnitude R] {n : Nat} {looks : List (ℝ × R)} {bs : List (Bracket ℝ R)}
variable (h : Pursues n b looks bs)
include h

theorem length_le : looks.length ≤ n := by
  induction h with
  | spent => exact le_rfl
  | stopped => exact Nat.le_add_left 1 _
  | narrowed _ _ ih => exact Nat.succ_le_succ ih

theorem length_pos (hn : 0 < n) : 0 < looks.length := by
  cases h with
  | spent => exact absurd hn (Nat.lt_irrefl 0)
  | stopped => exact Nat.succ_pos _
  | narrowed => exact Nat.succ_pos _

theorem scales_eq : looks.map Prod.fst = ((b :: bs).map middle).take looks.length := by
  induction h with
  | spent => rfl
  | stopped => rfl
  | narrowed _ _ ih =>
    rw [List.map_cons, List.map_cons, List.length_cons, List.take_succ_cons, ih]

/-- The ends of a bracket are those of the first one or have been looked at since. -/
theorem ends_subset (t : Nat) (c : Bracket ℝ R) (hc : (b :: bs)[t]? = some c) :
    c.ends ⊆ b.ends ++ looks.take t := by
  induction t generalizing n b looks bs with
  | zero =>
    obtain rfl := Option.some.inj hc
    exact List.subset_append_left _ _
  | succ t ih =>
    cases h with
    | spent => exact nomatch hc
    | stopped => exact nomatch hc
    | @narrowed n _ b' norm looks bs hnarrow hrest =>
      refine List.Subset.trans (ih hrest hc) (List.append_subset.mpr ⟨?_, ?_⟩)
      · refine List.Subset.trans (half_of_narrow hnarrow).ends_subset ?_
        simp [ends]
      · rw [List.take_succ_cons]
        exact List.subset_append_of_subset_right _ (List.subset_cons_self _ _)

theorem ended :
    looks.length = n ∧ bs.length = n ∨
      looks.length = bs.length + 1 ∧ ∃ c norm, (b :: bs).getLast? = some c ∧
        looks.getLast? = some (c.middle, norm) ∧ Magnitude.lt c.leftNorm norm = true ∧
        Magnitude.lt c.rightNorm norm = true := by
  induction h with
  | spent => exact .inl ⟨rfl, rfl⟩
  | stopped hnarrow =>
    have hworse := narrow_eq_none.mp hnarrow
    exact .inr ⟨rfl, _, _, rfl, rfl, hworse.1, hworse.2⟩
  | @narrowed n b b' norm looks bs hnarrow _ ih =>
    rcases ih with ⟨hlooks, hbs⟩ | ⟨hlength, c, norm', hc, hlook, hworse⟩
    · exact .inl ⟨congrArg (· + 1) hlooks, congrArg (· + 1) hbs⟩
    · refine .inr ⟨congrArg (· + 1) hlength, c, norm', ?_, ?_, hworse⟩
      · rw [List.getLast?_cons_cons, hc]
      · rw [List.getLast?_cons, hlook]
        rfl

variable (hb : b.left < b.right)
include hb

theorem width_eq (t : Nat) (c : Bracket ℝ R) (hc : (b :: bs)[t]? = some c) :
    c.right - c.left = (b.right - b.left) / 2 ^ t := by
  induction t generalizing n b looks bs with
  | zero =>
    obtain rfl := Option.some.inj hc
    rw [pow_zero, div_one]
  | succ t ih =>
    cases h with
    | spent => exact nomatch hc
    | stopped => exact nomatch hc
    | narrowed hnarrow hrest =>
      have hhalf := half_of_narrow hnarrow
      rw [ih hrest (hhalf.lt hb) hc, hhalf.width_eq, pow_succ', div_div]

theorem ordered : ∀ c ∈ b :: bs, b.left ≤ c.left ∧ c.left < c.right ∧ c.right ≤ b.right := by
  induction h with
  | spent => exact List.forall_mem_singleton.mpr ⟨le_rfl, hb, le_rfl⟩
  | stopped => exact List.forall_mem_singleton.mpr ⟨le_rfl, hb, le_rfl⟩
  | narrowed hnarrow _ ih =>
    have hhalf := half_of_narrow hnarrow
    obtain ⟨hleft, hright⟩ := hhalf.within hb
    refine List.forall_mem_cons.mpr ⟨⟨le_rfl, hb, le_rfl⟩, fun c hc => ?_⟩
    obtain ⟨hcleft, hlt, hcright⟩ := ih (hhalf.lt hb) c hc
    exact ⟨hleft.trans hcleft, hlt, hcright.trans hright⟩

theorem nested : (b :: bs).IsChain fun c c' => c.left ≤ c'.left ∧ c'.right ≤ c.right := by
  induction h with
  | spent => exact .singleton _
  | stopped => exact .singleton _
  | narrowed hnarrow _ ih =>
    have hhalf := half_of_narrow hnarrow
    exact .cons_cons (hhalf.within hb) (ih (hhalf.lt hb))

theorem inside : ∀ look ∈ looks, b.left < look.1 ∧ look.1 < b.right := by
  induction h with
  | spent => exact nofun
  | stopped => exact List.forall_mem_singleton.mpr ⟨left_lt_middle hb, middle_lt_right hb⟩
  | narrowed hnarrow _ ih =>
    have hhalf := half_of_narrow hnarrow
    obtain ⟨hleft, hright⟩ := hhalf.within hb
    refine List.forall_mem_cons.mpr ⟨⟨left_lt_middle hb, middle_lt_right hb⟩, fun look hlook => ?_⟩
    obtain ⟨hl, hr⟩ := ih (hhalf.lt hb) look hlook
    exact ⟨hleft.trans_lt hl, hr.trans_le hright⟩

theorem nodup : (looks.map Prod.fst).Nodup := by
  induction h with
  | spent => exact List.nodup_nil
  | stopped => exact List.nodup_singleton _
  | narrowed hnarrow hrest ih =>
    have hhalf := half_of_narrow hnarrow
    refine List.nodup_cons.mpr ⟨fun hmem => ?_, ih (hhalf.lt hb)⟩
    obtain ⟨look, hlook, heq⟩ := List.mem_map.mp hmem
    obtain ⟨hl, hr⟩ := hrest.inside (hhalf.lt hb) look hlook
    exact hhalf.ne_middle hl hr heq

end Pursues

end Bracket

/-! ## Whole searches -/

namespace LineSearch

variable [Magnitude R]

/-- What can be said of a bisection up to `a` with a budget of `n` middles: of its looks, first to last,
of its brackets, first to last, and of the look that it settles for. -/
structure Surveyed (a : ℝ) (n : Nat) (looks : List (ℝ × R)) (brackets : List (Bracket ℝ R))
    (chosen : ℝ × R) : Prop where
  ordered : ∀ b ∈ brackets, 0 ≤ b.left ∧ b.left < b.right ∧ b.right ≤ a
  width_eq : ∀ t b, brackets[t]? = some b → b.right - b.left = a / 2 ^ t
  nested : brackets.IsChain fun b b' => b.left ≤ b'.left ∧ b'.right ≤ b.right
  ends_seen : ∀ t b, brackets[t]? = some b → b.ends ⊆ looks.take (t + 2)
  within : ∀ look ∈ looks, look.1 ∈ Set.Icc 0 a
  distinct : (looks.map Prod.fst).Nodup
  scales_eq : looks.map Prod.fst = 0 :: a :: (brackets.map Bracket.middle).take (looks.length - 2)
  least : 3 ≤ looks.length
  most : looks.length ≤ n + 2
  /-- Either the budget is spent, or the last middle is worse than both ends of the last bracket. -/
  ended : looks.length = n + 2 ∧ brackets.length = n + 1 ∨
    looks.length = brackets.length + 2 ∧ ∃ b norm, brackets.getLast? = some b ∧
      looks.getLast? = some (b.middle, norm) ∧ Magnitude.lt b.leftNorm norm = true ∧
      Magnitude.lt b.rightNorm norm = true
  chosen_seen : chosen ∈ looks

theorem surveyed_of_pursues {a : ℝ} (ha : 0 < a) {n : Nat} (hn : 0 < n) {leftNorm rightNorm : R}
    {looks : List (ℝ × R)} {bs : List (Bracket ℝ R)}
    (h : Bracket.Pursues n ⟨0, leftNorm, a, rightNorm⟩ looks bs) :
    Surveyed a n ((0, leftNorm) :: (a, rightNorm) :: looks) (⟨0, leftNorm, a, rightNorm⟩ :: bs)
      (bs.getLastD ⟨0, leftNorm, a, rightNorm⟩).best where
  ordered := h.ordered ha
  width_eq t b hb := (h.width_eq ha t b hb).trans (congrArg (· / 2 ^ t) (sub_zero a))
  nested := h.nested ha
  ends_seen := h.ends_subset
  within := by
    refine List.forall_mem_cons.mpr ⟨⟨le_rfl, ha.le⟩, List.forall_mem_cons.mpr ⟨⟨ha.le, le_rfl⟩, ?_⟩⟩
    exact fun look hlook => ⟨(h.inside ha look hlook).1.le, (h.inside ha look hlook).2.le⟩
  distinct := by
    refine List.nodup_cons.mpr ⟨?_, List.nodup_cons.mpr ⟨?_, h.nodup ha⟩⟩
    · rw [List.map_cons, List.mem_cons, not_or]
      refine ⟨ha.ne, fun hmem => ?_⟩
      obtain ⟨look, hlook, heq⟩ := List.mem_map.mp hmem
      exact (h.inside ha look hlook).1.ne' heq
    · intro hmem
      obtain ⟨look, hlook, heq⟩ := List.mem_map.mp hmem
      exact (h.inside ha look hlook).2.ne heq
  scales_eq := congrArg (fun l => 0 :: a :: l) h.scales_eq
  least := Nat.add_le_add_right (h.length_pos hn) 2
  most := Nat.add_le_add_right h.length_le 2
  ended := by
    rcases h.ended with ⟨hlooks, hbs⟩ | ⟨hlength, c, norm, hc, hlook, hworse⟩
    · exact .inl ⟨congrArg (· + 2) hlooks, congrArg (· + 1) hbs⟩
    · refine .inr ⟨congrArg (· + 2) hlength, c, norm, hc, ?_, hworse⟩
      rw [List.getLast?_cons_cons, List.getLast?_cons, hlook]
      rfl
  chosen_seen := by
    have hlast : (⟨0, leftNorm, a, rightNorm⟩ :: bs)[bs.length]? =
        some (bs.getLastD ⟨0, leftNorm, a, rightNorm⟩) := by
      rw [List.getLastD_eq_getLast?, ← List.getLast?_cons]
      exact List.getLast?_eq_getElem?.symm
    refine List.append_subset.mpr ⟨?_, ?_⟩ (h.ends_subset _ _ hlast ?_)
    · exact List.subset_append_left _ looks
    · exact List.Subset.trans (List.take_subset _ _) (List.subset_append_right [_, _] _)
    rcases Bracket.best_cases (bs.getLastD ⟨0, leftNorm, a, rightNorm⟩) with hbest | hbest
    · rw [hbest]
      exact List.mem_cons_self
    · rw [hbest]
      exact List.mem_cons_of_mem _ List.mem_cons_self

/-- The causes for which a look at the profile can fail. -/
def causes (profile : ℝ → EStateM ε σ R) : Set ε :=
  {e | ∃ alpha o o', profile alpha o = .error e o'}

theorem run_failsIn_causes (profile : ℝ → EStateM ε σ R) (a : ℝ) (n : Nat) :
    FailsIn (causes profile) (run ⟨.bisection, .ok n⟩ profile (Reach.upTo a)) :=
  run_failsIn (E := causes profile) (fun alpha o _ o' hlook => ⟨alpha, o, o', hlook⟩) _ (.ok _ a)
    (fun _ _ => .ok _ _) fun _ => .ok _ n

/-- A bisection fails only as its profile does. Where it returns, its looks, its brackets and its choice
are as `Surveyed` says, whatever the looks found. -/
theorem bisection_surveyed (profile : ℝ → EStateM ε σ R) {a : ℝ} (ha : 0 < a) {n : Nat} (hn : 0 < n)
    (o : σ) :
    (∃ leftNorm rightNorm middles bs chosen o',
      Bracket.Pursues n ⟨0, leftNorm, a, rightNorm⟩ middles bs ∧
      run ⟨.bisection, .ok n⟩ profile (Reach.upTo a) o = .ok (chosen.1, some chosen.2) o' ∧
      run ⟨.bisection, .ok n⟩ (noting profile) (Reach.upTo a) (o, []) =
        .ok (chosen.1, some chosen.2) (o', (0, leftNorm) :: (a, rightNorm) :: middles) ∧
      Surveyed a n ((0, leftNorm) :: (a, rightNorm) :: middles) (⟨0, leftNorm, a, rightNorm⟩ :: bs)
        chosen) ∨
    ∃ e o', run ⟨.bisection, .ok n⟩ profile (Reach.upTo a) o = .error e o' ∧ e ∈ causes profile := by
  rcases (run_noting profile a n o).cases with
    ⟨found, ⟨o', looks⟩, _, _, hnoting, hrun, rfl, rfl, leftNorm, rightNorm, middles, bs, _, hpursues,
      hlooks, rfl, rfl⟩ | ⟨e, _, o', -, hrun, -⟩
  · rw [Scalar.ofNat_real, Nat.cast_zero] at hpursues hlooks hnoting hrun
    obtain rfl := hlooks
    exact .inl ⟨leftNorm, rightNorm, middles, bs, _, o', hpursues, hrun, hnoting,
      surveyed_of_pursues ha hn hpursues⟩
  · exact .inr ⟨e, o', hrun, run_failsIn_causes profile a n o e o' hrun⟩

/-- A profile that answers a number at the first two looks and none at the third. -/
noncomputable def fickle (_ : ℝ) : EStateM Empty Nat Extended := fun looks =>
  .ok (if looks = 2 then .notANumber else .number looks) (looks + 1)

theorem bisection_surveyed_fickle :
    (0 : ℝ) < 1 ∧ 0 < 3 ∧ ∃ looks brackets chosen looked,
      run ⟨.bisection, .ok 3⟩ (noting fickle) (Reach.upTo 1) (0, []) =
        .ok (chosen.1, some chosen.2) (looked, looks) ∧
      Surveyed 1 3 looks brackets chosen := by
  refine ⟨one_pos, three_pos, ?_⟩
  rcases bisection_surveyed fickle one_pos three_pos 0 with
    ⟨_, _, _, _, chosen, looked, -, -, hnoting, hsurveyed⟩ | ⟨e, -⟩
  · exact ⟨_, _, chosen, looked, hnoting, hsurveyed⟩
  · exact e.elim

end LineSearch

end NewtonKrylov
