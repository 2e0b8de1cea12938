import NewtonKrylov.Arguments
import NewtonKrylov.Problems.Report

/-!
# The Bratu problem

The boundary value problem `-u'' = lam * exp u` on the unit interval, with `u` zero at both ends, on
`n` equally spaced interior points. Second derivatives are central differences. It is solved with
entries in binary32.
-/

namespace NewtonKrylov

structure Bratu where
  points : Int := 63
  lam : Float := 1.0
  search : String := "bisect"

namespace Bratu

section Residual

variable {S : Type} [Scalar S] {n : Nat}

def squaredWidth (n : Nat) : S :=
  let h : S := Scalar.ofNat 1 / Scalar.ofNat (n + 1)
  h * h

/-- The value at point `j`, where interior points are numbered from one; zero at the ends. -/
def padded (u : Vector S n) : Nat → S
  | 0 => Scalar.ofNat 0
  | j + 1 => (u[j]?).getD (Scalar.ofNat 0)

def secondDerivative (hh : S) (u : Vector S n) (i : Nat) : S :=
  (padded u (i + 2) - Scalar.ofNat 2 * padded u (i + 1) + padded u i) / hh

def residual (exp : S → S) (hh lam : S) (u : Vector S n) : Vector S n :=
  Vector.ofFn fun i => -secondDerivative hh u i.val - lam * exp (u.get i)

end Residual

def switches : List Switch := [⟨"n", false⟩, ⟨"lam", false⟩, ⟨"line_search", false⟩]

def ofArguments (words : List String) : Except String Bratu := do
  let a ← Arguments.read switches words
  .ok ⟨← a.value "n" Text.whole? 63, ← a.value "lam" Text.number? 1.0,
    ← a.value "line_search" some "bisect"⟩

def config (s : Bratu) : Except (Fault Float) PlainConfig := do
  let gmres ← GmresOptions.build
    [("tol", .float 1e-4), ("restart", .int s.points), ("maxiter", .int (4 * s.points))]
  Options.toConfig
    { epsilon := .float 1e-8, halfWidth := .float 1e-3, lineSearch := .str s.search,
      lineSearchMaxiter := .int 20, linsolver := .gmres gmres }

def largest (xs : List Float) : Float :=
  xs.foldl (fun m x => if m.isNaN || x ≤ m then m else x) (-1.0 / 0.0)

def reportOn (s : Bratu) (n : Nat) (c : PlainConfig) : Report :=
  let K := Component.binary32.space n
  let hh := Precision.narrow (squaredWidth n)
  let f := residual Float32.exp hh (Precision.narrow s.lam)
  .ofRun K.backend f (K.backend.zero ()) c (Decimal.scientific 4) fun u =>
    [("max u", [Decimal.fixed 6 (largest (K.toList u))])]

def report (s : Bratu) : Report :=
  match (Value.int s.points).size with
  | .error e => .failed e
  | .ok n => match s.config with
    | .error e => .failed e
    | .ok c => s.reportOn n c

def iterationLine (k : Nat) (err : String) : String := "iter " ++ toString k ++ ": err " ++ err

end Bratu

end NewtonKrylov
