import NewtonKrylov.Proofs.LineSearch.Geometry
import NewtonKrylov.Proofs.LineSearch.NotANumber

/-!
# The grid search finds the first least norm

The loop of the grid search keeps the better one of two looks (`LineSearch.better`), so what it settles for
is a fold over its looks. `LineSearch.FirstLeast` says what that is without the fold: the least norm, taken
where it was seen first, with norms that are not a number left out; and scale zero with the infinite norm
where no look is below that. One more look keeps this true (`LineSearch.FirstLeast.concat`).

`LineSearch.grid_first_least`: in exact arithmetic the grid search looks at `n + 1` equally spaced scales,
first to last, and settles for the first least of them, whatever a look does to the state of the profile.
On a fixed profile it is no worse than scale zero and than any coarser grid that it contains.
-/

namespace NewtonKrylov

variable {ε s σ : Type}

namespace Extended

variable {a b c : Extended}

theorem lt_of_lt_of_le (hab : Magnitude.lt a b = true) (hbc : Magnitude.le b c = true) :
    Magnitude.lt a c = true := by
  cases a <;> cases b <;> cases c <;> simp_all [Magnitude.le, Magnitude.lt]
  exact hab.trans_le hbc

theorem infinity_ne : (Magnitude.infinity : Extended) ≠ .notANumber := by
  rw [infinity_eq]
  exact Extended.noConfusion

theorem infinity_le (ha : a ≠ .notANumber) (h : ¬ Magnitude.lt a Magnitude.infinity = true) :
    Magnitude.le Magnitude.infinity a = true := le_of_not_lt ha infinity_ne h

end Extended

namespace LineSearch

/-! ## The first least look -/

/-- Of two looks the better one, the earlier one on a tie. -/
def better {S R : Type} [Magnitude R] (best look : S × R) : S × R :=
  if Magnitude.lt look.2 best.2 then look else best

/-- What a grid search settles for after these looks: the first one with the least norm, where a norm that
is not a number does not count. -/
inductive FirstLeast (looks : List (ℝ × Extended)) : ℝ × Extended → Prop where
  | found {i : Nat} {c : ℝ × Extended} (seen : looks[i]? = some c)
    (below : Magnitude.lt c.2 Magnitude.infinity = true)
    (least : ∀ d ∈ looks, d.2 ≠ .notANumber → Magnitude.le c.2 d.2 = true)
    (first : ∀ j < i, ∀ d, looks[j]? = some d → d.2 ≠ .notANumber → Magnitude.lt c.2 d.2 = true) :
    FirstLeast looks c
  /-- No norm is below the infinite one. -/
  | missed (h : ∀ d ∈ looks, ¬ Magnitude.lt d.2 Magnitude.infinity = true) :
    FirstLeast looks (0, Magnitude.infinity)

namespace FirstLeast

variable {looks looks' : List (ℝ × Extended)} {c c' d : ℝ × Extended}

theorem nil : FirstLeast [] (0, Magnitude.infinity) := .missed fun _ h => nomatch h

theorem number (h : FirstLeast looks c) : c.2 ≠ .notANumber := by
  cases h with
  | found _ below => exact (Extended.number_of_lt below).1
  | missed => exact Extended.infinity_ne

theorem le (h : FirstLeast looks c) (hd : d ∈ looks) (hnumber : d.2 ≠ .notANumber) :
    Magnitude.le c.2 d.2 = true := by
  cases h with
  | found _ _ least => exact least d hd hnumber
  | missed hmissed => exact Extended.infinity_le hnumber (hmissed d hd)

theorem concat (h : FirstLeast looks c) (d : ℝ × Extended) :
    FirstLeast (looks ++ [d]) (better c d) := by
  unfold better
  by_cases hlt : Magnitude.lt d.2 c.2 = true
  · -- the new look is strictly better than all before it
    rw [if_pos hlt]
    have hbefore : ∀ d' ∈ looks, d'.2 ≠ .notANumber → Magnitude.lt d.2 d'.2 = true :=
      fun d' hd' hnumber => Extended.lt_of_lt_of_le hlt (h.le hd' hnumber)
    refine .found (i := looks.length) (by simp) ?_ ?_ ?_
    · cases h with
      | found _ below => exact Extended.lt_of_lt_of_le hlt (Extended.le_of_lt below)
      | missed => exact hlt
    · intro d' hd' hnumber
      rcases List.mem_append.mp hd' with hd' | hd'
      · exact Extended.le_of_lt (hbefore d' hd' hnumber)
      · obtain rfl := List.mem_singleton.mp hd'
        exact Extended.le_refl hnumber
    · intro j hj d' hd' hnumber
      rw [List.getElem?_append_left hj] at hd'
      exact hbefore d' (List.mem_of_getElem? hd') hnumber
  · rw [if_neg hlt]
    cases h with
    | @found i c seen below least first =>
      obtain ⟨hi, -⟩ := List.getElem?_eq_some_iff.mp seen
      refine .found (i := i) (by rw [List.getElem?_append_left hi, seen]) below ?_ ?_
      · intro d' hd' hnumber
        rcases List.mem_append.mp hd' with hd' | hd'
        · exact least d' hd' hnumber
        · obtain rfl := List.mem_singleton.mp hd'
          exact Extended.le_of_not_lt hnumber (Extended.number_of_lt below).1 hlt
      · intro j hj d' hd' hnumber
        rw [List.getElem?_append_left (hj.trans hi)] at hd'
        exact first j hj d' hd' hnumber
    | missed hmissed =>
      refine .missed fun d' hd' => ?_
      rcases List.mem_append.mp hd' with hd' | hd'
      · exact hmissed d' hd'
      · obtain rfl := List.mem_singleton.mp hd'
        exact hlt

theorem append (h : FirstLeast looks c) (more : List (ℝ × Extended)) :
    FirstLeast (looks ++ more) (more.foldl better c) := by
  induction more generalizing looks c with
  | nil => simpa using h
  | cons d more ih => simpa using ih (h.concat d)

/-- The fold over the looks is the first least one of them. -/
theorem foldl (looks : List (ℝ × Extended)) :
    FirstLeast looks (looks.foldl better (0, Magnitude.infinity)) := nil.append looks

theorem le_of_subset (h : FirstLeast looks c) (h' : FirstLeast looks' c') (hsub : looks ⊆ looks') :
    Magnitude.le c'.2 c.2 = true := by
  cases h with
  | found seen below =>
    exact h'.le (hsub (List.mem_of_getElem? seen)) (Extended.number_of_lt below).1
  | missed =>
    cases h' with
    | found _ below => exact Extended.le_of_lt below
    | missed => exact Extended.le_refl Extended.infinity_ne

end FirstLeast

/-! ## The loop -/

section Loop

variable {S R : Type} [Scalar S] [Magnitude R]

/-- The scales of `i` of `n` parts, for `count` values of `i` on end. -/
def scalesFrom (a : S) (n i count : Nat) : List S :=
  (List.range' i count).map fun k => a * Scalar.ofNat k / Scalar.ofNat n

omit [Magnitude R] in
theorem scalesFrom_succ (a : S) (n i count : Nat) :
    scalesFrom a n i (count + 1) =
      (a * Scalar.ofNat i / Scalar.ofNat n) :: scalesFrom a n (i + 1) count := by
  rw [scalesFrom, List.range'_succ, List.map_cons]
  rfl

variable (profile : S → EStateM ε σ R)

/-- The loop looks at its scales one after the other and keeps the better look; it ends early only where
the profile fails. -/
theorem gridFrom_noting (a : S) (n count i : Nat) (best : S × R) (o : σ) (seen : List (S × R)) :
    Follows
      (fun c p c' o' => c = c' ∧ p.1 = o' ∧ ∃ looks, p.2 = seen ++ looks ∧
        looks.map Prod.fst = scalesFrom a n i count ∧ c = looks.foldl better best)
      (fun p o' => p.1 = o' ∧ ∃ looks, p.2 = seen ++ looks ∧ looks.length < count ∧
        looks.map Prod.fst = (scalesFrom a n i count).take looks.length)
      (gridFrom (noting profile) (Reach.upTo a) n count i best) (o, seen)
      (gridFrom profile (Reach.upTo a) n count i best) o := by
  induction count generalizing i best o seen with
  | zero => exact Follows.of_ok rfl rfl ⟨rfl, rfl, [], by simp, rfl, rfl⟩
  | succ count ih =>
    simp only [gridFrom, Reach.upTo, orFail, pure_bind]
    cases hlook : profile (a * Scalar.ofNat i / Scalar.ofNat n) o with
    | error e o' =>
      exact Follows.of_error (bind_run_error (noting_error hlook seen) _)
        (bind_run_error hlook _) ⟨rfl, [], by simp, by simp, by simp⟩
    | ok norm o' =>
      refine Follows.skip_left (noting_ok hlook seen) (Follows.skip_right hlook ?_)
      let look := (a * Scalar.ofNat i / Scalar.ofNat n, norm)
      refine (ih (i + 1) (better best look) o' (seen ++ [look])).mono ?_ ?_
      · rintro c p _ o'' ⟨rfl, hout, looks, hlooks, hscales, hbest⟩
        refine ⟨rfl, hout, look :: looks, by simp [hlooks], ?_, hbest⟩
        rw [List.map_cons, hscales, scalesFrom_succ]
      · rintro p o'' ⟨hout, looks, hlooks, hlength, hscales⟩
        refine ⟨hout, look :: looks, by simp [hlooks], by simpa using hlength, ?_⟩
        rw [List.map_cons, hscales, scalesFrom_succ, List.length_cons, List.take_succ_cons]

theorem gridFrom_answers (φ : S → R) (a : S) (n count i : Nat) (best : S × R) (o : s) :
    gridFrom (ε := ε) (answers φ) (Reach.upTo a) n count i best o =
      .ok (((scalesFrom a n i count).map fun alpha => (alpha, φ alpha)).foldl better best) o := by
  induction count generalizing i best with
  | zero => rfl
  | succ count ih =>
    simp only [gridFrom, Reach.upTo, orFail, answers, pure_bind]
    rw [scalesFrom_succ, List.map_cons, List.foldl_cons]
    exact ih (i + 1) _

end Loop

/-! ## Whole searches -/

/-- The `n + 1` equally spaced scales from zero to `a`. -/
noncomputable def scales (a : ℝ) (n : Nat) : List ℝ := (List.range (n + 1)).map fun i : Nat => a * i / n

theorem scales_eq (a : ℝ) (n : Nat) : scales a n = scalesFrom a n 0 (n + 1) := by
  simp [scales, scalesFrom, List.range_eq_range']

theorem scales_increasing {a : ℝ} (ha : 0 < a) {n : Nat} (hn : 0 < n) :
    (scales a n).Pairwise (· < ·) := by
  refine List.pairwise_map.mpr (List.pairwise_lt_range.imp ?_)
  intro i j hij
  have hn' : (0 : ℝ) < n := Nat.cast_pos.mpr hn
  gcongr

theorem scales_head (a : ℝ) (n : Nat) : (scales a n).head? = some 0 := by
  simp [scales, List.range_succ_eq_map]

theorem scales_last (a : ℝ) {n : Nat} (hn : 0 < n) : (scales a n).getLast? = some a := by
  have hn' : (n : ℝ) ≠ 0 := Nat.cast_ne_zero.mpr hn.ne'
  simp [scales, List.range_succ, mul_div_assoc, div_self hn']

theorem zero_mem_scales (a : ℝ) (n : Nat) : 0 ∈ scales a n := List.mem_of_head? (scales_head a n)

theorem scales_subset (a : ℝ) (n : Nat) {k : Nat} (hk : 0 < k) : scales a n ⊆ scales a (k * n) := by
  intro alpha halpha
  obtain ⟨i, hi, rfl⟩ := List.mem_map.mp halpha
  refine List.mem_map.mpr ⟨k * i, ?_, ?_⟩
  · rw [List.mem_range] at hi ⊢
    exact Nat.lt_succ_of_le (Nat.mul_le_mul_left k (Nat.le_of_lt_succ hi))
  · have hk' : (k : ℝ) ≠ 0 := Nat.cast_ne_zero.mpr hk.ne'
    push_cast
    rw [mul_left_comm, mul_div_mul_left _ _ hk']

/-- What can be said of a grid search up to `a` with `n` parts: of its looks, first to last, and of what it
settles for. -/
structure Gridded (a : ℝ) (n : Nat) (looks : List (ℝ × Extended)) (c : ℝ × Extended) : Prop where
  scales_eq : looks.map Prod.fst = (List.range (n + 1)).map fun i : Nat => a * i / n
  increasing : (looks.map Prod.fst).Pairwise (· < ·)
  first : (looks.map Prod.fst).head? = some 0
  last : (looks.map Prod.fst).getLast? = some a
  chosen : FirstLeast looks c

theorem gridded_of_scales {a : ℝ} (ha : 0 < a) {n : Nat} (hn : 0 < n) {looks : List (ℝ × Extended)}
    (h : looks.map Prod.fst = scales a n) :
    Gridded a n looks (looks.foldl better (0, Magnitude.infinity)) where
  scales_eq := h
  increasing := h ▸ scales_increasing ha hn
  first := h ▸ scales_head a n
  last := h ▸ scales_last a hn
  chosen := .foldl looks

theorem run_grid_noting (profile : ℝ → EStateM ε σ Extended) (a : ℝ) (n : Nat) (o : σ) :
    Follows
      (fun found p found' o' => found = found' ∧ p.1 = o' ∧ p.2.map Prod.fst = scales a n ∧
        found = ((p.2.foldl better (0, Magnitude.infinity)).1,
          some (p.2.foldl better (0, Magnitude.infinity)).2))
      (fun p o' => p.1 = o' ∧ p.2.length ≤ n ∧
        p.2.map Prod.fst = (scales a n).take p.2.length)
      (run ⟨.grid, .ok n⟩ (noting profile) (Reach.upTo a)) (o, [])
      (run ⟨.grid, .ok n⟩ profile (Reach.upTo a)) o := by
  simp only [run, grid, orFail, pure_bind, Scalar.ofNat_real, Nat.cast_zero, scales_eq]
  refine (gridFrom_noting profile a n (n + 1) 0 (0, Magnitude.infinity) o []).bind_mono ?_ ?_
  · rintro p o' ⟨hout, looks, hlooks, hlength, hscales⟩
    obtain rfl : p.2 = looks := hlooks
    exact ⟨hout, Nat.le_of_lt_succ hlength, hscales⟩
  · rintro c p _ o' ⟨rfl, hout, looks, hlooks, hscales, hbest⟩
    obtain rfl : p.2 = looks := hlooks
    exact Follows.of_ok rfl rfl ⟨rfl, hout, hscales, by rw [hbest]⟩

theorem run_grid_answers (φ : ℝ → Extended) (a : ℝ) (n : Nat) :
    ∃ c : ℝ × Extended, (∀ o : s, run (ε := ε) ⟨.grid, .ok n⟩ (answers φ) (Reach.upTo a) o =
        .ok (c.1, some c.2) o) ∧
      FirstLeast ((scales a n).map fun alpha => (alpha, φ alpha)) c := by
  refine ⟨_, fun o => ?_, .foldl _⟩
  simp only [run, grid, orFail, pure_bind, scales_eq, Scalar.ofNat_real, Nat.cast_zero]
  exact bind_run_ok (gridFrom_answers φ a n (n + 1) 0 (0, Magnitude.infinity) o) _

theorem FirstLeast.of_fixed {φ : ℝ → Extended} {alphas : List ℝ} {c : ℝ × Extended}
    (h : FirstLeast (alphas.map fun alpha => (alpha, φ alpha)) c) (hmem : 0 ∈ alphas)
    (hzero : φ 0 ≠ .notANumber) : c.2 = φ c.1 ∧ Magnitude.le c.2 (φ 0) = true := by
  have hseen : (0, φ 0) ∈ alphas.map fun alpha => (alpha, φ alpha) := List.mem_map.mpr ⟨0, hmem, rfl⟩
  refine ⟨?_, h.le hseen hzero⟩
  cases h with
  | found seen =>
    obtain ⟨alpha, -, rfl⟩ := List.mem_map.mp (List.mem_of_getElem? seen)
    rfl
  | missed hmissed =>
    have hnot := hmissed _ hseen
    cases hφ : φ 0 with
    | notANumber => exact absurd hφ hzero
    | number x =>
      rw [hφ, Extended.infinity_eq, Extended.lt_number, lt_top_iff_ne_top, not_not] at hnot
      exact congrArg Extended.number hnot.symm

/-- A grid search looks at `n + 1` equally spaced scales and settles for the first least norm among them; it
ends before that only where its profile fails. On a fixed profile that is a number at scale zero it is no
worse than there, and dividing all parts of a grid further makes it no worse. -/
theorem grid_first_least (profile : ℝ → EStateM ε σ Extended) {a : ℝ} (ha : 0 < a) {n : Nat} (hn : 0 < n)
    (o : σ) :
    ((∃ looks, ∃ c : ℝ × Extended, ∃ o', run ⟨.grid, .ok n⟩ profile (Reach.upTo a) o = .ok (c.1, some c.2) o' ∧
        run ⟨.grid, .ok n⟩ (noting profile) (Reach.upTo a) (o, []) =
          .ok (c.1, some c.2) (o', looks) ∧ Gridded a n looks c) ∨
      ∃ looks e o', run ⟨.grid, .ok n⟩ profile (Reach.upTo a) o = .error e o' ∧
        run ⟨.grid, .ok n⟩ (noting profile) (Reach.upTo a) (o, []) = .error e (o', looks) ∧
        e ∈ causes profile ∧ looks.length ≤ n ∧
        looks.map Prod.fst = (scales a n).take looks.length) ∧
    ∀ φ : ℝ → Extended, ∃ c : ℝ × Extended,
      run (ε := ε) ⟨.grid, .ok n⟩ (answers φ) (Reach.upTo a) o = .ok (c.1, some c.2) o ∧
      (φ 0 ≠ .notANumber →
        c.2 = φ c.1 ∧ c.2 ≠ .notANumber ∧ Magnitude.le c.2 (φ 0) = true) ∧
      ∀ k, 0 < k → ∃ c' : ℝ × Extended,
        run (ε := ε) ⟨.grid, .ok (k * n)⟩ (answers φ) (Reach.upTo a) o = .ok (c'.1, some c'.2) o ∧
        Magnitude.le c'.2 c.2 = true := by
  constructor
  · rcases (run_grid_noting profile a n o).cases with
      ⟨found, ⟨o', looks⟩, _, _, hnoting, hrun, rfl, rfl, hscales, rfl⟩ |
      ⟨e, ⟨o', looks⟩, _, hnoting, hrun, rfl, hlength, hscales⟩
    · exact .inl ⟨looks, _, o', hrun, hnoting, gridded_of_scales ha hn hscales⟩
    · have hcause : e ∈ causes profile :=
        run_failsIn (E := causes profile) (fun alpha o _ o' hlook => ⟨alpha, o, o', hlook⟩) _
          (.ok _ a) (fun _ _ => .ok _ _) (fun _ => .ok _ n) o e o' hrun
      exact .inr ⟨looks, e, o', hrun, hnoting, hcause, hlength, hscales⟩
  · intro φ
    obtain ⟨c, hrun, hc⟩ := run_grid_answers (ε := ε) (s := σ) φ a n
    refine ⟨c, hrun o, fun hzero => ?_, fun k hk => ?_⟩
    · obtain ⟨heq, hle⟩ := hc.of_fixed (zero_mem_scales a n) hzero
      exact ⟨heq, hc.number, hle⟩
    · obtain ⟨c', hrun', hc'⟩ := run_grid_answers (ε := ε) (s := σ) φ a (k * n)
      exact ⟨c', hrun' o, hc.le_of_subset hc' (List.map_subset _ (scales_subset a n hk))⟩

/-- A profile that changes from look to look, and a fixed one that is not a number at the largest scale. -/
theorem grid_first_least_fickle :
    (0 : ℝ) < 1 ∧ 0 < 2 ∧
      (∃ looks, ∃ c : ℝ × Extended, ∃ looked,
        run ⟨.grid, .ok 2⟩ (noting fickle) (Reach.upTo 1) (0, []) =
          .ok (c.1, some c.2) (looked, looks) ∧ Gridded 1 2 looks c) ∧
      cliff 2 1 0 ≠ .notANumber ∧ 0 < 3 ∧ ∃ c c' : ℝ × Extended,
        run (ε := Empty) ⟨.grid, .ok 2⟩ (answers (cliff 2 1)) (Reach.upTo 1) 0 =
          .ok (c.1, some c.2) 0 ∧
        run (ε := Empty) ⟨.grid, .ok (3 * 2)⟩ (answers (cliff 2 1)) (Reach.upTo 1) 0 =
          .ok (c'.1, some c'.2) 0 ∧
        c.2 = cliff 2 1 c.1 ∧ Magnitude.le c.2 (cliff 2 1 0) = true ∧ Magnitude.le c'.2 c.2 = true := by
  have hzero : cliff 2 1 0 ≠ .notANumber := by
    rw [cliff_zero]
    exact Extended.noConfusion
  obtain ⟨hlooks, hfixed⟩ := grid_first_least fickle one_pos two_pos 0
  refine ⟨one_pos, two_pos, ?_, hzero, three_pos, ?_⟩
  · rcases hlooks with ⟨looks, c, looked, -, hnoting, hgridded⟩ | ⟨-, e, -⟩
    · exact ⟨looks, c, looked, hnoting, hgridded⟩
    · exact e.elim
  · obtain ⟨c, hrun, hle, hfiner⟩ := hfixed (cliff 2 1)
    obtain ⟨c', hrun', hle'⟩ := hfiner 3 three_pos
    exact ⟨c, c', hrun, hrun', (hle hzero).1, (hle hzero).2.2, hle'⟩

end LineSearch

end NewtonKrylov
