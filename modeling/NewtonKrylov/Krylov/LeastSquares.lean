import NewtonKrylov.Number

/-!
# Small least-squares problems

A least-squares solver is given a matrix with one row more than columns and a right-hand side, and
returns the coefficients. `minimumNorm` does it in binary64: rows are turned in pairs until the
matrix is upper triangular, and the triangle is inverted. When the inverse is too large to show that
every singular value counts, the rows of the triangle are turned in pairs until all are orthogonal:
their lengths are the singular values. Those that are tiny against the largest one count as zero,
and of all minimisers the shortest is returned.
-/

namespace NewtonKrylov

/-- A way to find coefficients `y` that make `H y - g` small, from their count, `H` and `g`. -/
abbrev LeastSquares (S : Type) :=
  (k : Nat) → (Fin (k + 1) → Fin k → S) → (Fin (k + 1) → S) → Vector S k

namespace LeastSquares

def sum {S : Type} [Scalar S] {n : Nat} (f : Fin n → S) : S :=
  (List.ofFn f).foldl (· + ·) (Scalar.ofNat 0)

def residual {S : Type} [Scalar S] {k : Nat} (H : Fin (k + 1) → Fin k → S) (g : Fin (k + 1) → S)
    (y : Vector S k) : S :=
  Scalar.sqrt <| sum fun i =>
    let d := sum (fun j => H i j * y.get j) - g i
    d * d

def viaFloat {S : Type} [Numeral S] (lsq : LeastSquares Float) : LeastSquares S := fun k H g =>
  (lsq k (fun i j => Numeral.toFloat (H i j)) fun i => Numeral.toFloat (g i)).map Numeral.ofFloat

/-! ## Plane rotations -/

structure Columns where
  rows : Nat
  entries : FloatArray

namespace Columns

def get (m : Columns) (i j : Nat) : Float := m.entries.get! (j * m.rows + i)

def dot (m : Columns) (p q : Nat) : Float :=
  m.rows.fold (fun i _ acc => acc + m.get i p * m.get i q) 0.0

def turn (a : FloatArray) (c s : Float) (i j : Nat) : FloatArray :=
  let x := a.get! i
  let y := a.get! j
  (a.set! i (c * x - s * y)).set! j (s * x + c * y)

def turnColumns (m : Columns) (p q : Nat) (c s : Float) : Columns :=
  let n := m.rows
  ⟨n, n.fold (fun i _ a => turn a c s (p * n + i) (q * n + i)) m.entries⟩

def turnRows (m : Columns) (k p q : Nat) (c s : Float) : Columns :=
  let n := m.rows
  ⟨n, k.fold (fun j _ a => turn a c s (j * n + p) (j * n + q)) m.entries⟩

def identity (n : Nat) : Columns where
  rows := n
  entries := ⟨Array.ofFn fun i : Fin (n * n) => if i.val / n = i.val % n then 1.0 else 0.0⟩

def ofFn {r c : Nat} (f : Fin r → Fin c → Float) : Columns where
  rows := r
  entries := ⟨(List.ofFn fun j => List.ofFn fun i => f i j).flatten.toArray⟩

/-- The first `n` entries of the first `n` rows, each row as a column. -/
def transposedCorner (m : Columns) (n : Nat) : Columns :=
  ofFn fun i j : Fin n => m.get j.val i.val

def length (m : Columns) : Float :=
  (m.entries.size.fold (fun i _ acc => acc + m.entries.get! i * m.entries.get! i) 0.0).sqrt

end Columns

/-! ## Triangular form -/

def rotation (a b : Float) : Float × Float :=
  if b.abs < a.abs then
    let t := b / a
    let c := 1.0 / (1.0 + t * t).sqrt
    (c, -(t * c))
  else
    let t := a / b
    let s := 1.0 / (1.0 + t * t).sqrt
    (t * s, -s)

/-- Turns rows of `k` columns until those below row `p` have nothing in column `p`. -/
def clearBelow (k : Nat) (m : Columns) (p : Nat) : Columns :=
  (m.rows - p - 1).fold (fun d _ m =>
    let q := p + 1 + d
    if m.get q p == 0.0 then m
    else
      let (c, s) := rotation (m.get p p) (m.get q p)
      m.turnRows k p q c s) m

def triangular (k : Nat) (m : Columns) : Columns :=
  k.fold (fun p _ m => clearBelow (k + 1) m p) m

/-- The inverse of the triangle in the first `k` columns, each of its rows as a column. Row `i`
follows from the rows below it. -/
def inverseRows (k : Nat) (m : Columns) : Columns :=
  k.fold (fun d _ inv =>
    let i := k - 1 - d
    let pivot := 1.0 / m.get i i
    let entries := (k - i).fold (fun e _ a =>
      let j := i + e
      let known := e.fold (fun l _ acc =>
        let below := i + 1 + l
        acc + m.get i below * a.get! (below * k + j)) 0.0
      a.set! (i * k + j) (((if e = 0 then 1.0 else 0.0) - known) * pivot)) inv.entries
    ⟨k, entries⟩) ⟨k, ⟨Array.replicate (k * k) 0.0⟩⟩

/-! ## Singular values -/

def epsilon : Float := 2.220446049250313e-16

/-- Columns being made orthogonal, the turns applied so far, and whether the last sweep turned any
pair. -/
structure Sweep where
  columns : Columns
  turns : Columns
  moved : Bool

def Sweep.pair (w : Sweep) (p q : Nat) : Sweep :=
  let a := w.columns.dot p p
  let b := w.columns.dot q q
  let d := w.columns.dot p q
  if d == 0.0 || d.abs ≤ epsilon * (a.sqrt * b.sqrt) then w
  else
    let zeta := (b - a) / (2.0 * d)
    let t := (if zeta < 0.0 then -1.0 else 1.0) / (zeta.abs + (1.0 + zeta * zeta).sqrt)
    let c := 1.0 / (1.0 + t * t).sqrt
    let s := c * t
    ⟨w.columns.turnColumns p q c s, w.turns.turnColumns p q c s, true⟩

def Sweep.all (w : Sweep) (k : Nat) : Sweep :=
  k.fold (fun p _ w => (k - p - 1).fold (fun d _ w => w.pair p (p + 1 + d)) w)
    { w with moved := false }

/-- Sweeps until no pair is turned, at most `fuel` times. -/
def Sweep.settle (k : Nat) : Nat → Sweep → Sweep
  | 0, w => w
  | fuel + 1, w =>
    let w' := w.all k
    if w'.moved then settle k fuel w' else w'

/-! ## The shortest minimiser -/

def largest {r c : Nat} (H : Fin r → Fin c → Float) : Float :=
  (List.ofFn fun i => List.ofFn fun j => (H i j).abs).flatten.foldl
    (fun m x => if m < x then x else m) 0.0

def augmented {k : Nat} (H : Fin (k + 1) → Fin k → Float) (g : Fin (k + 1) → Float)
    (shift : Int) : Columns :=
  Columns.ofFn fun (i j : Fin (k + 1)) =>
    if h : j.val < k then (H i ⟨j, h⟩).scaleB shift else g i

/-- Solves the triangle in the first `k` columns for the column after them. Singular values up to
`tiny` times the largest one count as zero. -/
def solveTriangle (k : Nat) (m : Columns) (tiny : Float) : List Float :=
  let w := Sweep.settle k 60 ⟨m.transposedCorner k, Columns.identity k, true⟩
  let lengths := (List.range k).map fun j => (w.columns.dot j j).sqrt
  let cutoff := tiny * lengths.foldl (fun m x => if m < x then x else m) 0.0
  -- what each turned row contributes
  let along := lengths.mapIdx fun j x =>
    if x ≤ cutoff then 0.0
    else k.fold (fun i _ acc => acc + w.turns.get i j * m.get i k) 0.0 / x / x
  (List.range k).map fun i => (along.mapIdx fun j c => w.columns.get i j * c).foldl (· + ·) 0.0

/-- The shortest minimiser in binary64; singular values up to `epsilon * (k + 1)` times the largest
one count as zero. A power of two is taken out first, so no square overflows. The product of the
lengths of a matrix and its inverse bounds the quotient of its singular values. -/
def minimumNorm : LeastSquares Float := fun k H g =>
  let shift := -(largest H).frExp.2
  let m := triangular k (augmented H g shift)
  let inverse := inverseRows k m
  let tiny := epsilon * Float.ofNat (k + 1)
  let ys :=
    if (m.transposedCorner k).length * inverse.length * tiny < 1.0 then
      (List.range k).map fun i => k.fold (fun j _ acc => acc + inverse.get j i * m.get j k) 0.0
    else solveTriangle k m tiny
  Vector.ofFn fun i => (ys.getD i 0.0).scaleB shift

end LeastSquares

end NewtonKrylov
