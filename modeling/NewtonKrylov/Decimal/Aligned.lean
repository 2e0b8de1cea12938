import NewtonKrylov.Decimal.Rounded

/-!
# Numbers shown side by side

The numbers of a vector are written in one form: with eight digits after the point, unless the
largest is huge, the smallest is tiny or the two are far apart; then all of them take the exponent
form.
-/

namespace NewtonKrylov.Decimal

/-- Whether these magnitudes are too far from one, or from each other, to be written
positionally. -/
def needExponents : List Float → Bool
  | [] => false
  | m :: ms =>
    let largest := ms.foldl (fun a x => if a < x then x else a) m
    let smallest := ms.foldl (fun a x => if x < a then x else a) m
    1e8 ≤ largest || smallest < 1e-4 || 1000.0 < largest / smallest

def aligned (xs : List Float) : List String :=
  let magnitudes := (xs.filter fun x => x.isFinite && x != 0.0).map Float.abs
  xs.map (if needExponents magnitudes then scientific 9 else fixed 8)

end NewtonKrylov.Decimal
