import NewtonKrylov.LineSearch.Policy
import NewtonKrylov.Scalar

/-!
# Line searches

A search is given a profile, the residual norm as a function of the step scale, and its reach: the
largest scale and the equal parts of it. The profile acts on a state `σ` of its own and may fail;
the searches only call it.

* The full step does not look at the profile.
* The grid search looks at `n + 1` equally spaced scales from zero to the largest and keeps the
  first one with the least norm.
* Bisection starts from the bracket of the two ends and replaces one end per iteration by the
  midpoint, until the midpoint is worse than both.

Every comparison with a norm that is not a number fails, so the order of the tests decides what
happens then.
-/

namespace NewtonKrylov

/-- How far a search may go. Scales that cannot be expressed say why when they are needed. -/
structure Reach (ε S : Type) where
  largest : Except ε S
  /-- A number of equal parts of the largest step scale: `i` of `n`. -/
  part : (i n : Nat) → Except ε S

def Reach.upTo {ε S : Type} [Scalar S] (a : S) : Reach ε S where
  largest := .ok a
  part i n := .ok (a * Scalar.ofNat i / Scalar.ofNat n)

structure Bracket (S R : Type) where
  left : S
  leftNorm : R
  right : S
  rightNorm : R

namespace Bracket

variable {S R : Type} [Magnitude R]

def middle [Scalar S] (b : Bracket S R) : S :=
  Scalar.ofNat 1 / Scalar.ofNat 2 * (b.left + b.right)

def withLeft (b : Bracket S R) (alpha : S) (norm : R) : Bracket S R :=
  { b with left := alpha, leftNorm := norm }

def withRight (b : Bracket S R) (alpha : S) (norm : R) : Bracket S R :=
  { b with right := alpha, rightNorm := norm }

/-- The bracket after a look at a scale inside it, or nothing when that is worse than both ends. A
scale better than both ends replaces the worse one, the right one on a tie; one that is better than
the left end only replaces it; any other one replaces the right end. -/
def narrow (b : Bracket S R) (alpha : S) (norm : R) : Option (Bracket S R) :=
  if Magnitude.lt b.leftNorm norm && Magnitude.lt b.rightNorm norm then
    none
  else if Magnitude.lt norm b.leftNorm && Magnitude.lt norm b.rightNorm then
    if Magnitude.le b.leftNorm b.rightNorm then some (b.withRight alpha norm)
    else some (b.withLeft alpha norm)
  else if Magnitude.lt norm b.leftNorm then
    some (b.withLeft alpha norm)
  else
    some (b.withRight alpha norm)

def best (b : Bracket S R) : S × R :=
  if Magnitude.lt b.leftNorm b.rightNorm then (b.left, b.leftNorm) else (b.right, b.rightNorm)

end Bracket

structure LineSearch (ε : Type) where
  policy : Policy
  budget : Except ε Nat

namespace LineSearch

variable {S R ε σ : Type} [Scalar S] [Magnitude R]

def orFail {α : Type} : Except ε α → EStateM ε σ α
  | .ok a => pure a
  | .error e => throw e

/-- The scales of `i` of `n` parts, for `count` values of `i` on end, against the best so far. -/
def gridFrom (profile : S → EStateM ε σ R) (reach : Reach ε S) (n : Nat) :
    (count i : Nat) → S × R → EStateM ε σ (S × R)
  | 0, _, best => pure best
  | count + 1, i, best => do
    let alpha ← orFail (reach.part i n)
    let norm ← profile alpha
    gridFrom profile reach n count (i + 1)
      (if Magnitude.lt norm best.2 then (alpha, norm) else best)

/-- The first best of `n + 1` equally spaced scales. -/
def grid (profile : S → EStateM ε σ R) (reach : Reach ε S) (n : Nat) : EStateM ε σ (S × R) :=
  gridFrom profile reach n (n + 1) 0 (Scalar.ofNat 0, Magnitude.infinity)

def bisectFrom (profile : S → EStateM ε σ R) : Nat → Bracket S R → EStateM ε σ (Bracket S R)
  | 0, b => pure b
  | n + 1, b => do
    let alpha := b.middle
    let norm ← profile alpha
    match b.narrow alpha norm with
    | none => pure b
    | some b' => bisectFrom profile n b'

def openBracket (profile : S → EStateM ε σ R) (reach : Reach ε S) :
    EStateM ε σ (Bracket S R) := do
  let leftNorm ← profile (Scalar.ofNat 0)
  let right ← orFail reach.largest
  let rightNorm ← profile right
  pure ⟨Scalar.ofNat 0, leftNorm, right, rightNorm⟩

/-- The chosen step scale, and the residual norm there if the policy looked. -/
def run (search : LineSearch ε) (profile : S → EStateM ε σ R) (reach : Reach ε S) :
    EStateM ε σ (S × Option R) :=
  match search.policy with
  | .full => do
    let alpha ← orFail reach.largest
    pure (alpha, none)
  | .grid => do
    let n ← orFail search.budget
    let (alpha, norm) ← grid profile reach n
    pure (alpha, some norm)
  | .bisection => do
    let b ← openBracket profile reach
    let n ← orFail search.budget
    let (alpha, norm) := (← bisectFrom profile n b).best
    pure (alpha, some norm)

end LineSearch

end NewtonKrylov
