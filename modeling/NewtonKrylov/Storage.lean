import NewtonKrylov.Fault

/-!
# Room for vectors and tables

Extents and sizes in bytes are words with a sign. What these cannot express has no room, however
much memory there is.
-/

namespace NewtonKrylov.Storage

def greatest : Nat := 9223372036854775807

/-- Whether there could be room for entries of the given width in bytes. -/
def allow {R : Type} (extents : List Nat) (width : Nat) : Except (Fault R) Unit :=
  if extents.any (greatest < ·) then .error .extentBeyondWord
  else if greatest < extents.foldl (· * ·) width then .error .tableTooLarge
  else .ok ()

end NewtonKrylov.Storage
