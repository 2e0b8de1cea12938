import NewtonKrylov.LineSearch
import NewtonKrylov.Proofs.Simulation

/-!
# Line searches as inquiries

An `Inquiry` is a line search that knows the profile only by looking at it: a tree that says which
scale to look at and, for every norm that may be seen there, how to go on. It may keep a state of its
own, fail at any point and look as often as it likes, but it always ends.

`Inquiry.run_follows`: where two profiles follow one another, so do the searches on them. This is how a
search on shared vectors becomes one on values, and nothing else about a search is needed for that.
The built-in policies are inquiries (`LineSearch.run_eq_inquiry`).
-/

namespace NewtonKrylov

/-- A line search by what it does next. -/
inductive Inquiry (S R ε σ : Type) where
  /-- Settles for a scale, with the norm seen there if any. -/
  | choose (alpha : S) (line : Option R)
  | fail (e : ε)
  /-- Looks at a scale and goes on with the norm there. -/
  | look (alpha : S) (next : R → Inquiry S R ε σ)
  /-- Changes its own state and goes on with what it was. -/
  | turn (change : σ → σ) (next : σ → Inquiry S R ε σ)

namespace Inquiry

variable {S R ε σ s t : Type}

/-- The search on a profile. `act` changes the state of the search within the state that is run on. -/
def run (act : (σ → σ) → EStateM ε s σ) (profile : S → EStateM ε s R) :
    Inquiry S R ε σ → EStateM ε s (S × Option R)
  | choose alpha line => pure (alpha, line)
  | fail e => throw e
  | look alpha next => do
    let norm ← profile alpha
    (next norm).run act profile
  | turn change next => do
    let o ← act change
    (next o).run act profile

/-- A value that may be missing, on the way to the next look. -/
def demand {α : Type} : Except ε α → (α → Inquiry S R ε σ) → Inquiry S R ε σ
  | .ok a, next => next a
  | .error e, _ => fail e

section Run

variable {act : (σ → σ) → EStateM ε s σ} {profile : S → EStateM ε s R}

theorem run_demand {α : Type} (x : Except ε α) (next : α → Inquiry S R ε σ) :
    (demand x next).run act profile =
      LineSearch.orFail x >>= fun a => (next a).run act profile := by
  cases x with
  | ok a => rfl
  | error e => rfl

variable {act' : (σ → σ) → EStateM ε t σ} {profile' : S → EStateM ε t R}
variable {I E : s → t → Prop} {a : s} {b : t}

theorem run_follows
    (hact : ∀ change a b, I a b →
      Follows (fun u a' v b' => u = v ∧ I a' b') E (act change) a (act' change) b)
    (hprofile : ∀ alpha a b, I a b →
      Follows (fun u a' v b' => u = v ∧ I a' b') E (profile alpha) a (profile' alpha) b)
    (hE : ∀ a b, I a b → E a b) (q : Inquiry S R ε σ) (h : I a b) :
    Follows (fun u a' v b' => u = v ∧ I a' b') E (q.run act profile) a (q.run act' profile') b := by
  induction q generalizing a b with
  | choose alpha line => exact Follows.of_ok rfl rfl ⟨rfl, h⟩
  | fail e => exact Follows.of_error rfl rfl (hE a b h)
  | look alpha next ih =>
    refine Follows.bind (hprofile alpha a b h) ?_
    rintro norm a' _ b' ⟨rfl, h'⟩
    exact ih norm h'
  | turn change next ih =>
    refine Follows.bind (hact change a b h) ?_
    rintro o a' _ b' ⟨rfl, h'⟩
    exact ih o h'

end Run

end Inquiry

namespace LineSearch

variable {S R ε σ s : Type} [Magnitude R]

/-! ## The built-in policies -/

def gridInquiry (reach : Reach ε S) (n : Nat) : (count i : Nat) → S × R → Inquiry S R ε σ
  | 0, _, best => .choose best.1 (some best.2)
  | count + 1, i, best =>
    .demand (reach.part i n) fun alpha => .look alpha fun norm =>
      gridInquiry reach n count (i + 1) (if Magnitude.lt norm best.2 then (alpha, norm) else best)

theorem gridFrom_eq_inquiry {act : (σ → σ) → EStateM ε s σ} {profile : S → EStateM ε s R}
    {reach : Reach ε S} (n count i : Nat) (best : S × R) :
    (do
      let best ← gridFrom profile reach n count i best
      pure (best.1, some best.2)) = (gridInquiry reach n count i best).run act profile := by
  induction count generalizing i best with
  | zero => rfl
  | succ count ih =>
    simp only [gridFrom, gridInquiry, bind_assoc, ih, Inquiry.run_demand, Inquiry.run]

variable [Scalar S]

def bisectInquiry : Nat → Bracket S R → Inquiry S R ε σ
  | 0, b => .choose b.best.1 (some b.best.2)
  | n + 1, b => .look b.middle fun norm =>
    match b.narrow b.middle norm with
    | none => .choose b.best.1 (some b.best.2)
    | some b' => bisectInquiry n b'

def inquiry (search : LineSearch ε) (reach : Reach ε S) : Inquiry S R ε σ :=
  match search.policy with
  | .full => .demand reach.largest fun alpha => .choose alpha none
  | .grid => .demand search.budget fun n =>
    gridInquiry reach n (n + 1) 0 (Scalar.ofNat 0, Magnitude.infinity)
  | .bisection => .look (Scalar.ofNat 0) fun leftNorm =>
    .demand reach.largest fun right => .look right fun rightNorm =>
      .demand search.budget fun n => bisectInquiry n ⟨Scalar.ofNat 0, leftNorm, right, rightNorm⟩

variable {act : (σ → σ) → EStateM ε s σ} {profile : S → EStateM ε s R} {reach : Reach ε S}

theorem bisectFrom_eq_inquiry (n : Nat) (b : Bracket S R) :
    (do
      let b ← bisectFrom profile n b
      pure (b.best.1, some b.best.2)) = (bisectInquiry n b).run act profile := by
  induction n generalizing b with
  | zero => rfl
  | succ n ih =>
    simp only [bisectFrom, bisectInquiry, bind_assoc, Inquiry.run]
    congr 1
    funext norm
    cases b.narrow b.middle norm with
    | none => rfl
    | some b' => exact ih b'

/-- A built-in search looks at the profile and does nothing else. -/
theorem run_eq_inquiry (search : LineSearch ε) :
    search.run profile reach = (search.inquiry reach).run act profile := by
  unfold run inquiry
  cases search.policy with
  | full => simp only [Inquiry.run_demand, Inquiry.run]
  | grid => simp only [Inquiry.run_demand, grid, ← gridFrom_eq_inquiry]
  | bisection =>
    simp only [Inquiry.run_demand, Inquiry.run, openBracket, bind_assoc, pure_bind,
      ← bisectFrom_eq_inquiry]

end LineSearch

end NewtonKrylov
