/-!
# Changes of precision

Every binary32 number is a binary64 number. The other way, a binary64 number becomes the nearest
binary32 number, a tie going to the even mantissa, and an infinity where it is too large.
-/

namespace NewtonKrylov.Precision

open Float.Model (UnpackedFloat Format)

/-- The number of a format that is nearest to a number. -/
def nearest (spec : Format) : UnpackedFloat → UnpackedFloat
  | .finite s m e _ => UnpackedFloat.round spec s m e
  | u => u

def narrow (x : Float) : Float32 := .ofModel (.pack (nearest .binary32 x.toModel.unpack))

def widen (x : Float32) : Float := .ofModel (.pack (nearest .binary64 x.toModel.unpack))

end NewtonKrylov.Precision
