import NewtonKrylov.Proofs.LineSearch.Narrowing

/-!
# What a bisection looks at

`LineSearch.noting profile` takes down every look at a profile: the scale, and the norm that was found
there. The profile may have a state and fail; a search goes on it as it does on the profile itself.

The loop of a bisection knows the profile by the norms that it is given. `Bracket.Pursues` says what it
makes of them: which middles it looks at, and which brackets these lead to. `LineSearch.run_noting`: what
is taken down of a bisection are the two ends and such a pursuit, and the better end of its last bracket is
what it settles for. On a profile that only answers, and as long as no middle is worse than both ends, the
looks are those at the middles of the iterated brackets (`LineSearch.run_noting_answers`).
-/

namespace NewtonKrylov

variable {S R ε σ : Type}

namespace LineSearch

/-- The profile, beside a list of the looks at it with what they found. -/
def noting (profile : S → EStateM ε σ R) (alpha : S) : EStateM ε (σ × List (S × R)) R :=
  fun ⟨o, looks⟩ =>
    match profile alpha o with
    | .ok norm o' => .ok norm (o', looks ++ [(alpha, norm)])
    | .error e o' => .error e (o', looks)

variable {profile : S → EStateM ε σ R} {alpha : S} {o o' : σ}

theorem noting_ok {norm : R} (h : profile alpha o = .ok norm o') (seen : List (S × R)) :
    noting profile alpha (o, seen) = .ok norm (o', seen ++ [(alpha, norm)]) := by
  rw [noting, h]

theorem noting_error {e : ε} (h : profile alpha o = .error e o') (seen : List (S × R)) :
    noting profile alpha (o, seen) = .error e (o', seen) := by
  rw [noting, h]

theorem noting_follows (profile : S → EStateM ε σ R) (alpha : S) (o : σ) (seen : List (S × R)) :
    Follows (fun norm p norm' o' => norm = norm' ∧ p = (o', seen ++ [(alpha, norm)]))
      (fun p o' => p.1 = o') (noting profile alpha) (o, seen) (profile alpha) o := by
  cases hrun : profile alpha o with
  | ok norm o' => exact Follows.of_ok (noting_ok hrun seen) hrun ⟨rfl, rfl⟩
  | error e o' => exact Follows.of_error (noting_error hrun seen) hrun rfl

end LineSearch

variable [Scalar S] [Magnitude R]

namespace Bracket

/-- The looks at middles that a budget of `n` allows from the bracket `b` on, and the brackets that they
lead to. -/
inductive Pursues : Nat → Bracket S R → List (S × R) → List (Bracket S R) → Prop where
  | spent (b : Bracket S R) : Pursues 0 b [] []
  /-- A middle that is worse than both ends. -/
  | stopped {n : Nat} {b : Bracket S R} {norm : R} (h : b.narrow b.middle norm = none) :
    Pursues (n + 1) b [(b.middle, norm)] []
  | narrowed {n : Nat} {b b' : Bracket S R} {norm : R} {looks : List (S × R)}
    {bs : List (Bracket S R)} (h : b.narrow b.middle norm = some b') (rest : Pursues n b' looks bs) :
    Pursues (n + 1) b ((b.middle, norm) :: looks) (b' :: bs)

variable {b : Bracket S R} {alpha : S} {norm : R}

omit [Scalar S] in
theorem narrow_eq_none :
    b.narrow alpha norm = none ↔
      Magnitude.lt b.leftNorm norm = true ∧ Magnitude.lt b.rightNorm norm = true := by
  unfold narrow
  simp only [Bool.and_eq_true]
  split
  · rename_i hworse
    exact iff_of_true rfl hworse
  · rename_i hworse
    refine iff_of_false ?_ hworse
    split
    · split
      · exact Option.some_ne_none _
      · exact Option.some_ne_none _
    split
    · exact Option.some_ne_none _
    · exact Option.some_ne_none _

/-- The middle is worse than both ends, which ends the search. -/
def Stops (φ : S → R) (b : Bracket S R) : Prop := b.narrow b.middle (φ b.middle) = none

theorem narrow_of_not_stops {φ : S → R} (h : ¬ b.Stops φ) :
    b.narrow b.middle (φ b.middle) = some (b.after φ) := by
  obtain ⟨b', hnarrow⟩ := Option.ne_none_iff_exists'.mp h
  rw [after_of_some hnarrow, hnarrow]

end Bracket

namespace LineSearch

/-- The loop goes on what it is told as `Bracket.Pursues` says. -/
theorem bisectFrom_noting (profile : S → EStateM ε σ R) (n : Nat) (b : Bracket S R) (o : σ)
    (seen : List (S × R)) :
    Follows
      (fun c p c' o' => c = c' ∧ p.1 = o' ∧
        ∃ looks bs, Bracket.Pursues n b looks bs ∧ p.2 = seen ++ looks ∧ c = bs.getLastD b)
      (fun p o' => p.1 = o')
      (bisectFrom (noting profile) n b) (o, seen) (bisectFrom profile n b) o := by
  induction n generalizing b o seen with
  | zero =>
    exact Follows.of_ok rfl rfl ⟨rfl, rfl, [], [], .spent b, (List.append_nil _).symm, rfl⟩
  | succ n ih =>
    unfold bisectFrom
    refine (noting_follows profile b.middle o seen).bind ?_
    rintro norm _ _ o' ⟨rfl, rfl⟩
    cases hnarrow : b.narrow b.middle norm with
    | none => exact Follows.of_ok rfl rfl ⟨rfl, rfl, _, _, .stopped hnarrow, rfl, rfl⟩
    | some b' =>
      refine (ih b' o' _).mono ?_ fun _ _ hE => hE
      rintro c p _ o'' ⟨rfl, hout, looks, bs, hpursues, hlooks, hlast⟩
      refine ⟨rfl, hout, _, _, .narrowed hnarrow hpursues, ?_, ?_⟩
      · rw [hlooks, List.append_assoc, List.singleton_append]
      · rw [hlast, List.getLastD_cons]

/-- What is taken down of a bisection: the two ends, and what it pursues from there. -/
theorem run_noting (profile : S → EStateM ε σ R) (a : S) (n : Nat) (o : σ) :
    Follows
      (fun found p found' o' => found = found' ∧ p.1 = o' ∧
        ∃ leftNorm rightNorm looks bs b,
          Bracket.Pursues n ⟨Scalar.ofNat 0, leftNorm, a, rightNorm⟩ looks bs ∧
          p.2 = (Scalar.ofNat 0, leftNorm) :: (a, rightNorm) :: looks ∧
          bs.getLastD ⟨Scalar.ofNat 0, leftNorm, a, rightNorm⟩ = b ∧
          found = (b.best.1, some b.best.2))
      (fun p o' => p.1 = o')
      (run ⟨.bisection, .ok n⟩ (noting profile) (Reach.upTo a)) (o, [])
      (run ⟨.bisection, .ok n⟩ profile (Reach.upTo a)) o := by
  simp only [run, openBracket, Reach.upTo, orFail, pure_bind, bind_assoc]
  refine (noting_follows profile (Scalar.ofNat 0) o []).bind ?_
  rintro leftNorm _ _ o₁ ⟨rfl, rfl⟩
  refine (noting_follows profile a o₁ _).bind ?_
  rintro rightNorm _ _ o₂ ⟨rfl, rfl⟩
  refine (bisectFrom_noting profile n _ o₂ _).bind ?_
  rintro b p _ o₃ ⟨rfl, hout, looks, bs, hpursues, hlooks, hlast⟩
  exact Follows.of_ok rfl rfl ⟨rfl, hout, leftNorm, rightNorm, looks, bs, b, hpursues, hlooks,
    hlast.symm, rfl⟩

theorem bisectFrom_of_narrow {profile : S → EStateM ε σ R} {b b' : Bracket S R} {norm : R} {o o' : σ}
    (hlook : profile b.middle o = .ok norm o') (hnarrow : b.narrow b.middle norm = some b') (n : Nat) :
    bisectFrom profile (n + 1) b o = bisectFrom profile n b' o' := by
  refine (bind_run_ok hlook _).trans ?_
  simp only [hnarrow]

variable (φ : S → R)

omit [Scalar S] [Magnitude R] in
theorem noting_answers (alpha : S) (o : σ) (seen : List (S × R)) :
    noting (ε := ε) (answers φ) alpha (o, seen) = .ok (φ alpha) (o, seen ++ [(alpha, φ alpha)]) := rfl

theorem bisectFrom_noting_answers (n : Nat) (b : Bracket S R)
    (h : ∀ k < n, ¬ ((Bracket.after φ)^[k] b).Stops φ) (o : σ) (seen : List (S × R)) :
    bisectFrom (ε := ε) (noting (answers φ)) n b (o, seen) = .ok ((Bracket.after φ)^[n] b)
      (o, seen ++ (List.range n).map fun k =>
        (((Bracket.after φ)^[k] b).middle, φ ((Bracket.after φ)^[k] b).middle)) := by
  induction n generalizing b seen with
  | zero =>
    rw [List.range_zero, List.map_nil, List.append_nil]
    rfl
  | succ n ih =>
    have hrest := ih (b.after φ) (fun k hk => h (k + 1) (Nat.succ_lt_succ hk))
      (seen ++ [(b.middle, φ b.middle)])
    rw [List.append_assoc, List.singleton_append] at hrest
    rw [bisectFrom_of_narrow (noting_answers φ b.middle o seen)
      (Bracket.narrow_of_not_stops (h 0 n.succ_pos)), List.range_succ_eq_map, List.map_cons,
      List.map_map]
    exact hrest

theorem run_noting_answers (a : S) (n : Nat) (h : ∀ k < n, ¬ (bracketFor φ a k).Stops φ) (o : σ) :
    run (ε := ε) ⟨.bisection, .ok n⟩ (noting (answers φ)) (Reach.upTo a) (o, []) =
      .ok ((bracketFor φ a n).best.1, some (bracketFor φ a n).best.2)
        (o, (Scalar.ofNat 0, φ (Scalar.ofNat 0)) ::
          (List.range (n + 1)).map fun k => (look φ a k, φ (look φ a k))) := by
  have hloop := bisectFrom_noting_answers (ε := ε) φ n (Bracket.opened φ a) h o
    [(Scalar.ofNat 0, φ (Scalar.ofNat 0)), (a, φ a)]
  simp only [run, openBracket, Reach.upTo, orFail, pure_bind, bind_assoc]
  rw [bind_run_ok (noting_answers φ _ o []), bind_run_ok (noting_answers φ a o _)]
  rw [List.nil_append, List.singleton_append, List.range_succ_eq_map, List.map_cons, List.map_map]
  exact bind_run_ok hloop _

end LineSearch

end NewtonKrylov
