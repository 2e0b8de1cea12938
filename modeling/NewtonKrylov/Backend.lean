import NewtonKrylov.Number

/-!
# Backends

A backend is what the solvers may do with the contents of vectors: make zeros, take dot products,
add a multiple, scale. A component type says how single entries are held; entry by entry it gives a
backend on vectors of any length. Every operation maps contents to contents, so what a program
writes never depends on which of its operands share a vector.

Copying scales by one. The residual norm, unless another one is asked for, is the mean of the squared
entries.
-/

namespace NewtonKrylov

structure Backend (S V : Type) where
  size : Nat
  zero : Unit → V
  dot : V → V → S
  addScaled : V → V → S → V
  /-- The sum `a + s * b` with a factor that is not rounded to the precision of entries first. -/
  addScaledWide : V → V → S → V
  scale : V → S → V

namespace Backend

variable {S V : Type} [Scalar S]

def meanSquare (K : Backend S V) (v : V) : S := K.dot v v / Scalar.ofNat K.size

def copy (K : Backend S V) (v : V) : V := K.scale v (Scalar.ofNat 1)

end Backend

/-- Single vector entries of type `α`, operated on with scalars `S`. -/
structure Component (S α : Type) where
  width : Nat := 8
  zero : α
  /-- The numbers that an array made from numbers holds. -/
  gather : List S → List S := id
  /-- The entry that a number in an array becomes. -/
  store : S → α
  put : S → Except Unfit α := fun x => .ok (store x)
  /-- Single numbers are put all or none; otherwise those in front of a refused one are. -/
  putTogether : Bool := false
  load : α → S
  total : α → S := load
  add : α → α → α
  mul : α → α → α
  addScaled : α → α → S → α
  addScaledWide : α → α → S → α := addScaled
  scale : α → S → α
  factorFlaw : S → Option Unfit := fun _ => none

namespace Component

variable {S α : Type}

def plain (S : Type) [Scalar S] : Component S S where
  zero := Scalar.ofNat 0
  store := id
  load := id
  add a b := a + b
  mul a b := a * b
  addScaled a b s := a + s * b
  scale a s := a * s

/-- Vectors of `n` entries. Sums run from the first entry to the last. -/
def backend (c : Component S α) (n : Nat) : Backend S (Vector α n) where
  size := n
  zero _ := Vector.replicate n c.zero
  dot a b := c.total ((a.zipWith c.mul b).foldl c.add c.zero)
  addScaled a b s := a.zipWith (fun x y => c.addScaled x y s) b
  addScaledWide a b s := a.zipWith (fun x y => c.addScaledWide x y s) b
  scale a s := a.map fun x => c.scale x s

/-! ## Machine components -/

/-- Entries in binary32: factors are rounded first, then every operation rounds. -/
def binary32 : Component Float Float32 where
  width := 4
  zero := 0
  store := Precision.narrow
  load := Precision.widen
  add a b := a + b
  mul a b := a * b
  addScaled a b s := a + Precision.narrow s * b
  scale a s := a * Precision.narrow s

/-- Entries in binary32 that meet a wide factor in binary64 and are rounded once. -/
def binary32Wide : Component Float Float32 :=
  { binary32 with
    addScaledWide := fun a b s => Precision.narrow (Precision.widen a + s * Precision.widen b) }

/-- Entries in words. An integer factor is applied in words, any other one in binary64, where the result
is cut. -/
def words {α : Type} [Zero α] [Add α] [Mul α] {least : Int} (width : Nat) (ofInt : Int → α)
    (toInt : α → Int) (fits : ∀ a, Word.Fits least (toInt a)) : Component (Number least) α where
  width := width
  zero := 0
  gather := Number.gather
  store := Number.elim ofInt fun x => ofInt (Word.cut least x)
  put x := x.exact.map ofInt
  load a := .int (toInt a) (fits a)
  total a := .float (Word.number (toInt a))
  add a b := a + b
  mul a b := a * b
  addScaled a b := Number.elim (fun n => a + ofInt n * b) fun x =>
    ofInt (Word.cut least (Word.number (toInt a) + x * Word.number (toInt b)))
  scale a := Number.elim (fun n => a * ofInt n) fun x =>
    ofInt (Word.cut least (Word.number (toInt a) * x))

def int64 : Component Number64 Int64 :=
  words 8 Int64.ofInt Int64.toInt fun a => ⟨a.le_toInt, a.toInt_lt⟩

def int32 : Component Number32 Int32 :=
  words 4 Int32.ofInt Int32.toInt fun a => ⟨a.le_toInt, a.toInt_lt⟩

/-- The word that a factor becomes; one that is refused counts as the least word. -/
def factor32 (s : Number32) : Int32 :=
  match s.exact with
  | .ok n => Int32.ofInt n
  | .error _ => Int32.minValue

def wholeInt32 : Component Number32 Int32 :=
  { int32 with
    putTogether := true
    addScaled := fun a b s => a + factor32 s * b
    addScaledWide := fun a b s => a + factor32 s * b
    scale := fun a s => factor32 s * a
    factorFlaw := fun s => match s.exact with
      | .ok _ => none
      | .error flaw => some flaw }

/-! ## Vectors filled from single numbers -/

def putFrom {n : Nat} (c : Component S α) : (i : Nat) → List S → Vector α n →
    Vector α n × Option Unfit
  | _, [], v => (v, none)
  | i, x :: xs, v =>
    match c.put x with
    | .ok a => c.putFrom (i + 1) xs (v.setIfInBounds i a)
    | .error flaw => (v, some flaw)

def putAll {n : Nat} (c : Component S α) (v : Vector α n) (xs : List S) :
    Vector α n × Option Unfit :=
  match c.putFrom 0 xs v with
  | (v', none) => (v', none)
  | (v', some flaw) => (if c.putTogether then v else v', some flaw)

/-- The vector of the entries that become of values. Missing ones are zero and further ones are
dropped. -/
def fill {β : Type} (c : Component S α) (entry : β → α) (n : Nat) (xs : List β) : Vector α n :=
  Vector.ofFn fun i => (xs[i.val]?).elim c.zero entry

end Component

structure Space (S V : Type) where
  backend : Backend S V
  width : Nat
  ofList : List S → V
  toList : V → List S
  putAll : V → List S → V × Option Unfit
  flaw : S → Option Unfit
  factorFlaw : S → Option Unfit

def Component.space {S α : Type} (c : Component S α) (n : Nat) : Space S (Vector α n) where
  backend := c.backend n
  width := c.width
  ofList xs := c.fill c.store n (c.gather xs)
  toList v := v.toList.map c.load
  putAll := c.putAll
  flaw x := match c.put x with
    | .ok _ => none
    | .error flaw => some flaw
  factorFlaw := c.factorFlaw

namespace Space

variable {S V : Type}

def ofFloats [Numeral S] (K : Space S V) (xs : List Float) : V := K.ofList (xs.map Numeral.ofFloat)

def toFloats [Numeral S] (K : Space S V) (v : V) : List Float := (K.toList v).map Numeral.toFloat

def written (K : Space S V) : Option V → V
  | some v => v
  | none => K.backend.zero ()

/-- The same space with vectors that take no room until they are written; before, they are zero. -/
def onDemand (K : Space S V) : Space S (Option V) where
  backend :=
    { size := K.backend.size
      zero := fun _ => none
      dot := fun a b => K.backend.dot (K.written a) (K.written b)
      addScaled := fun a b s => some (K.backend.addScaled (K.written a) (K.written b) s)
      addScaledWide := fun a b s => some (K.backend.addScaledWide (K.written a) (K.written b) s)
      scale := fun a s => some (K.backend.scale (K.written a) s) }
  width := K.width
  ofList xs := some (K.ofList xs)
  toList v := K.toList (K.written v)
  putAll v xs :=
    let (v', flaw) := K.putAll (K.written v) xs
    (some v', flaw)
  flaw := K.flaw
  factorFlaw := K.factorFlaw

end Space

end NewtonKrylov
