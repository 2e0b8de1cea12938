import NewtonKrylov.Session

/-!
# Runs that follow one another

`Follows J E x a y b`: from states `a` and `b`, the runs `x` and `y` both return, in states and with
results related by `J`, or both fail for the same cause, in states related by `E`. The states may be
of different kinds, so a run on a store of shared vectors can follow one on plain values. It is a
relation between two given starts and not a property of the two runs, because what is preserved
(which vectors are untouched, what a vector holds) is said relative to where a run began.

`Follows.bind` takes runs apart; a step that only one side makes is skipped by `Follows.skip_left`
and `Follows.skip_right`. At the end `Follows.seenThrough_eq` turns the relation into an equation.
-/

namespace NewtonKrylov

variable {ε s t α β γ δ : Type}

theorem bind_run (x : EStateM ε s α) (f : α → EStateM ε s β) (a : s) :
    (x >>= f) a = match x a with
      | .ok u a' => f u a'
      | .error e a' => .error e a' := rfl

theorem bind_run_ok {x : EStateM ε s α} {a a' : s} {u : α} (h : x a = .ok u a')
    (f : α → EStateM ε s β) : (x >>= f) a = f u a' := by
  rw [bind_run, h]

theorem bind_run_error {x : EStateM ε s α} {a a' : s} {e : ε} (h : x a = .error e a')
    (f : α → EStateM ε s β) : (x >>= f) a = .error e a' := by
  rw [bind_run, h]

theorem bind_eq_ok {x : EStateM ε s α} {f : α → EStateM ε s β} {a b : s} {v : β}
    (h : (x >>= f) a = .ok v b) : ∃ u a', x a = .ok u a' ∧ f u a' = .ok v b := by
  cases hx : x a with
  | ok u a' =>
    rw [bind_run_ok hx] at h
    exact ⟨u, a', rfl, h⟩
  | error e a' =>
    rw [bind_run_error hx] at h
    exact nomatch h

theorem bind_eq_error {x : EStateM ε s α} {f : α → EStateM ε s β} {a b : s} {e : ε}
    (h : (x >>= f) a = .error e b) :
    x a = .error e b ∨ ∃ u a', x a = .ok u a' ∧ f u a' = .error e b := by
  cases hx : x a with
  | ok u a' =>
    rw [bind_run_ok hx] at h
    exact .inr ⟨u, a', rfl, h⟩
  | error e' a' =>
    rw [bind_run_error hx] at h
    obtain ⟨rfl, rfl⟩ := EStateM.Result.error.inj h
    exact .inl rfl

/-- Both runs return and end related by `J`, or fail alike and end related by `E`. -/
def Follows (J : α → s → β → t → Prop) (E : s → t → Prop) (x : EStateM ε s α) (a : s)
    (y : EStateM ε t β) (b : t) : Prop :=
  match x a, y b with
  | .ok u a', .ok v b' => J u a' v b'
  | .error e a', .error e' b' => e = e' ∧ E a' b'
  | _, _ => False

namespace Follows

variable {J J' : α → s → β → t → Prop} {K : γ → s → δ → t → Prop} {E E' : s → t → Prop}
variable {x : EStateM ε s α} {y : EStateM ε t β} {a a' : s} {b b' : t}

theorem of_ok {u : α} {v : β} (hx : x a = .ok u a') (hy : y b = .ok v b') (h : J u a' v b') :
    Follows J E x a y b := by
  rw [Follows, hx, hy]
  exact h

theorem of_error {e : ε} (hx : x a = .error e a') (hy : y b = .error e b') (h : E a' b') :
    Follows J E x a y b := by
  rw [Follows, hx, hy]
  exact ⟨rfl, h⟩

theorem cases (h : Follows J E x a y b) :
    (∃ u a' v b', x a = .ok u a' ∧ y b = .ok v b' ∧ J u a' v b') ∨
      (∃ e a' b', x a = .error e a' ∧ y b = .error e b' ∧ E a' b') := by
  unfold Follows at h
  cases hx : x a with
  | ok u a' =>
    cases hy : y b with
    | ok v b' =>
      rw [hx, hy] at h
      exact .inl ⟨u, a', v, b', rfl, rfl, h⟩
    | error e b' =>
      rw [hx, hy] at h
      exact h.elim
  | error e a' =>
    cases hy : y b with
    | ok v b' =>
      rw [hx, hy] at h
      exact h.elim
    | error e' b' =>
      rw [hx, hy] at h
      obtain ⟨rfl, hE⟩ := h
      exact .inr ⟨e, a', b', rfl, rfl, hE⟩

theorem mono (h : Follows J E x a y b) (hJ : ∀ u a' v b', J u a' v b' → J' u a' v b')
    (hE : ∀ a' b', E a' b' → E' a' b') : Follows J' E' x a y b := by
  rcases h.cases with ⟨u, a', v, b', hx, hy, h⟩ | ⟨e, a', b', hx, hy, h⟩
  · exact of_ok hx hy (hJ u a' v b' h)
  · exact of_error hx hy (hE a' b' h)

theorem bind {f : α → EStateM ε s γ} {g : β → EStateM ε t δ} (h : Follows J E x a y b)
    (hf : ∀ u a' v b', J u a' v b' → Follows K E (f u) a' (g v) b') :
    Follows K E (x >>= f) a (y >>= g) b := by
  rcases h.cases with ⟨u, a', v, b', hx, hy, h⟩ | ⟨e, a', b', hx, hy, h⟩
  · rw [Follows, bind_run_ok hx, bind_run_ok hy]
    exact hf u a' v b' h
  · exact of_error (bind_run_error hx f) (bind_run_error hy g) h

theorem bind_mono {f : α → EStateM ε s γ} {g : β → EStateM ε t δ} (h : Follows J E' x a y b)
    (hE : ∀ a' b', E' a' b' → E a' b')
    (hf : ∀ u a' v b', J u a' v b' → Follows K E (f u) a' (g v) b') :
    Follows K E (x >>= f) a (y >>= g) b :=
  (h.mono (fun _ _ _ _ hJ => hJ) hE).bind hf

theorem skip_left {u : γ} {x' : EStateM ε s γ} {f : γ → EStateM ε s α} (hx : x' a = .ok u a')
    (h : Follows J E (f u) a' y b) : Follows J E (x' >>= f) a y b := by
  rwa [Follows, bind_run_ok hx]

theorem skip_right {v : δ} {y' : EStateM ε t δ} {g : δ → EStateM ε t β} (hy : y' b = .ok v b')
    (h : Follows J E x a (g v) b') : Follows J E x a (y' >>= g) b := by
  rwa [Follows, bind_run_ok hy]

theorem ite {c : Prop} [Decidable c] {x₁ x₂ : EStateM ε s α} {y₁ y₂ : EStateM ε t β}
    (h₁ : c → Follows J E x₁ a y₁ b) (h₂ : ¬c → Follows J E x₂ a y₂ b) :
    Follows J E (if c then x₁ else x₂) a (if c then y₁ else y₂) b := by
  split
  · exact h₁ ‹_›
  · exact h₂ ‹_›

theorem ite_congr {c c' : Prop} [Decidable c] [Decidable c'] {x₁ x₂ : EStateM ε s α}
    {y₁ y₂ : EStateM ε t β} (hc : c ↔ c') (h₁ : c → Follows J E x₁ a y₁ b)
    (h₂ : ¬c → Follows J E x₂ a y₂ b) :
    Follows J E (if c then x₁ else x₂) a (if c' then y₁ else y₂) b := by
  by_cases h : c
  · rw [if_pos h, if_pos (hc.mp h)]
    exact h₁ h
  · rw [if_neg h, if_neg (mt hc.mpr h)]
    exact h₂ h

end Follows

theorem Follows.exists_ok {J : α → s → β → t → Prop} {E : s → t → Prop} {x : EStateM ε s α}
    {y : EStateM ε t β} {a : s} {b b' : t} {v : β} (h : Follows J E x a y b) (hy : y b = .ok v b') :
    ∃ u a', x a = .ok u a' ∧ J u a' v b' := by
  rcases h.cases with ⟨u, a', v', b'', hx, hy', hJ⟩ | ⟨e, a', b'', -, hy', -⟩
  · rw [hy] at hy'
    obtain ⟨rfl, rfl⟩ := EStateM.Result.ok.inj hy'
    exact ⟨u, a', hx, hJ⟩
  · rw [hy] at hy'
    exact nomatch hy'

theorem Follows.symm {J : α → s → β → t → Prop} {E : s → t → Prop} {x : EStateM ε s α}
    {y : EStateM ε t β} {a : s} {b : t} (h : Follows J E x a y b) :
    Follows (fun v b' u a' => J u a' v b') (fun b' a' => E a' b') y b x a := by
  rcases h.cases with ⟨u, a', v, b', hx, hy, hJ⟩ | ⟨e, a', b', hx, hy, hE⟩
  · exact of_ok hy hx hJ
  · exact of_error hy hx hE

/-- Two runs that follow the same third one follow one another. -/
theorem Follows.join {r : Type} {J : α → s → γ → r → Prop} {E : s → r → Prop}
    {J' : β → t → γ → r → Prop} {E' : t → r → Prop} {x : EStateM ε s α} {y : EStateM ε t β}
    {z : EStateM ε r γ} {a : s} {b : t} {c : r} (h : Follows J E x a z c)
    (h' : Follows J' E' y b z c) :
    Follows (fun u a' v b' => ∃ w c', J u a' w c' ∧ J' v b' w c')
      (fun a' b' => ∃ c', E a' c' ∧ E' b' c') x a y b := by
  rcases h.cases with ⟨u, a', w, c', hx, hz, hJ⟩ | ⟨e, a', c', hx, hz, hE⟩
  · obtain ⟨v, b', hy, hJ'⟩ := h'.exists_ok hz
    exact of_ok hx hy ⟨w, c', hJ, hJ'⟩
  · rcases h'.cases with ⟨v, b', w, c'', -, hz', -⟩ | ⟨e', b', c'', hy, hz', hE'⟩
    · exact nomatch hz.symm.trans hz'
    · obtain ⟨rfl, rfl⟩ := EStateM.Result.error.inj (hz.symm.trans hz')
      exact of_error hx hy ⟨c', hE, hE'⟩

/-! ## One run by itself -/

/-- A run that returns ends with `Q`, one that fails ends with `E`. -/
def Ends (Q : α → s → Prop) (E : s → Prop) (x : EStateM ε s α) (a : s) : Prop :=
  match x a with
  | .ok u a' => Q u a'
  | .error _ a' => E a'

namespace Ends

variable {Q Q' : α → s → Prop} {P : β → s → Prop} {E E' : s → Prop} {x : EStateM ε s α} {a a' : s}

theorem of_ok {u : α} (hx : x a = .ok u a') (h : Q u a') : Ends Q E x a := by
  rw [Ends, hx]
  exact h

theorem of_error {e : ε} (hx : x a = .error e a') (h : E a') : Ends Q E x a := by
  rw [Ends, hx]
  exact h

theorem run_ok {u : α} (h : Ends Q E x a) (hx : x a = .ok u a') : Q u a' := by
  rwa [Ends, hx] at h

theorem run_error {e : ε} (h : Ends Q E x a) (hx : x a = .error e a') : E a' := by
  rwa [Ends, hx] at h

theorem mono (h : Ends Q E x a) (hQ : ∀ u a', Q u a' → Q' u a') (hE : ∀ a', E a' → E' a') :
    Ends Q' E' x a := by
  unfold Ends at h ⊢
  cases hx : x a with
  | ok u a' =>
    rw [hx] at h
    exact hQ u a' h
  | error e a' =>
    rw [hx] at h
    exact hE a' h

theorem bind {f : α → EStateM ε s β} (h : Ends Q E x a) (hf : ∀ u a', Q u a' → Ends P E (f u) a') :
    Ends P E (x >>= f) a := by
  unfold Ends at h
  cases hx : x a with
  | ok u a' =>
    rw [hx] at h
    rw [Ends, bind_run_ok hx]
    exact hf u a' h
  | error e a' =>
    rw [hx] at h
    exact of_error (bind_run_error hx f) h

theorem bind_mono {f : α → EStateM ε s β} (h : Ends Q E' x a) (hE : ∀ a', E' a' → E a')
    (hf : ∀ u a', Q u a' → Ends P E (f u) a') : Ends P E (x >>= f) a :=
  (h.mono (fun _ _ hQ => hQ) hE).bind hf

theorem of_eq {x' : EStateM ε s α} (hx : x a = x' a') (h : Ends Q E x' a') : Ends Q E x a := by
  rw [Ends, hx]
  exact h

theorem skip {u : β} {x' : EStateM ε s β} {f : β → EStateM ε s α} (hx : x' a = .ok u a')
    (h : Ends Q E (f u) a') : Ends Q E (x' >>= f) a := by
  rwa [Ends, bind_run_ok hx]

theorem ite {c : Prop} [Decidable c] {x₁ x₂ : EStateM ε s α} (h₁ : c → Ends Q E x₁ a)
    (h₂ : ¬c → Ends Q E x₂ a) : Ends Q E (if c then x₁ else x₂) a := by
  split
  · exact h₁ ‹_›
  · exact h₂ ‹_›

end Ends

theorem Follows.ends {J : α → s → β → t → Prop} {E : s → t → Prop} {x : EStateM ε s α}
    {y : EStateM ε t β} {a : s} {b : t} (h : Follows J E x a y b) :
    Ends (fun u a' => ∃ v b', J u a' v b') (fun a' => ∃ b', E a' b') x a := by
  rcases h.cases with ⟨u, a', v, b', hx, -, hJ⟩ | ⟨e, a', b', hx, -, hE⟩
  · exact Ends.of_ok hx ⟨v, b', hJ⟩
  · exact Ends.of_error hx ⟨b', hE⟩

/-! ## Parts of a state -/

/-- A run on a part of the state. -/
def within (part : t → s) (put : t → s → t) (x : EStateM ε s α) : EStateM ε t α := fun b =>
  match x (part b) with
  | .ok u c => .ok u (put b c)
  | .error e c => .error e (put b c)

theorem within_bind {part : t → s} {put : t → s → t} (hpart : ∀ b c, part (put b c) = c)
    (hput : ∀ b c c', put (put b c) c' = put b c') (x : EStateM ε s α) (f : α → EStateM ε s β) :
    within part put (x >>= f) = within part put x >>= fun u => within part put (f u) := by
  funext b
  simp only [bind_run, within]
  cases x (part b) with
  | ok u c => simp only [hpart, hput]
  | error e c => rfl

theorem Follows.within {u : Type} {J : α → s → β → u → Prop} {E : s → u → Prop}
    {x : EStateM ε s α} {y : EStateM ε u β} {part : t → u} {put : t → u → t} {a : s} {b : t}
    (h : Follows J E x a y (part b)) :
    Follows (fun v a' v' b' => ∃ c, J v a' v' c ∧ b' = put b c)
      (fun a' b' => ∃ c, E a' c ∧ b' = put b c)
      x a (within part put y) b := by
  rcases h.cases with ⟨v, a', v', c, hx, hy, hJ⟩ | ⟨e, a', c, hx, hy, hE⟩
  · have hrun : NewtonKrylov.within part put y b = .ok v' (put b c) := by
      simp only [NewtonKrylov.within, hy]
    exact of_ok hx hrun ⟨c, hJ, rfl⟩
  · have hrun : NewtonKrylov.within part put y b = .error e (put b c) := by
      simp only [NewtonKrylov.within, hy]
    exact of_error hx hrun ⟨c, hE, rfl⟩

/-! ## States seen through a view -/

/-- A result whose state is seen through `f`. -/
def seenThrough (f : s → t) : EStateM.Result ε s α → EStateM.Result ε t α
  | .ok u a => .ok u (f a)
  | .error e a => .error e (f a)

theorem Follows.seenThrough_eq {f : s → t} {x : EStateM ε s α} {y : EStateM ε t α} {a : s} {b : t}
    (h : Follows (fun u a' v b' => u = v ∧ f a' = b') (fun a' b' => f a' = b') x a y b) :
    seenThrough f (x a) = y b := by
  rcases h.cases with ⟨u, a', v, b', hx, hy, rfl, rfl⟩ | ⟨e, a', b', hx, hy, rfl⟩
  · rw [hx, hy, seenThrough]
  · rw [hx, hy, seenThrough]

end NewtonKrylov
