import NewtonKrylov.Arguments
import NewtonKrylov.Problems.Report

/-!
# A singular linear problem

Find `x` with `a × x = c` for two orthogonal unit vectors `a` and `c` of space. The product with `a`
has a kernel, so there is a line of solutions; Krylov directions lead to one of them.
-/

namespace NewtonKrylov

structure CrossProduct where
  search : String := "bisect"
  alpha : Float := 1.0
  maxiter : Int := 100
  /-- Reports of every update are wanted too. -/
  verbose : Bool := false

namespace CrossProduct

variable {S : Type} [Scalar S]

def cross (a b : Vector S 3) : Vector S 3 :=
  #v[a[1] * b[2] - a[2] * b[1], a[2] * b[0] - a[0] * b[2], a[0] * b[1] - a[1] * b[0]]

def factor : Vector S 3 := #v[Scalar.ofNat 1, Scalar.ofNat 0, Scalar.ofNat 0]

def wanted : Vector S 3 := #v[Scalar.ofNat 0, Scalar.ofNat 0, Scalar.ofNat 1]

def residual (x : Vector S 3) : Vector S 3 := (cross factor x).zipWith (· - ·) wanted

def start : Vector S 3 := Vector.replicate 3 (-Scalar.ofNat 1)

def switches : List Switch :=
  [⟨"line_search", false⟩, ⟨"alpha", false⟩, ⟨"maxiter", false⟩, ⟨"verbose", true⟩]

def ofArguments (words : List String) : Except String CrossProduct := do
  let a ← Arguments.read switches words
  .ok ⟨← a.value "line_search" some "bisect", ← a.value "alpha" Text.number? 1.0,
    ← a.value "maxiter" Text.whole? 100, a.has "verbose"⟩

def config (s : CrossProduct) : Except (Fault Float) PlainConfig :=
  Options.toConfig
    { lineSearch := .str s.search, alpha := .float s.alpha, maxiter := .int s.maxiter }

def report (s : CrossProduct) : Report :=
  match s.config with
  | .error e => .failed e
  | .ok c =>
    let K := (Component.plain Float).backend 3
    .ofRun K residual start c (Decimal.scientific 7) fun x =>
      [("x", Decimal.aligned x.toList), ("a x b", Decimal.aligned (cross factor x).toList)]

def iterationLine (k : Nat) (err : String) : String := "err " ++ err ++ " iter " ++ toString k

end CrossProduct

end NewtonKrylov
