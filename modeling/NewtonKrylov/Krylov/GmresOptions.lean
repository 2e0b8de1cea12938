import NewtonKrylov.Krylov.Gmres
import NewtonKrylov.Value.Check

/-!
# GMRES parameters from option values

Only `restart` and `maxiter` are checked when a solver is built, in this order. `restart` has to
count and the tolerances have to multiply, which shows when a call needs them; `maxiter` is only
compared.
-/

namespace NewtonKrylov

structure GmresOptions where
  tol : Value := .float 1e-10
  restart : Value := .int 20
  maxiter : Value := .int 100
  breakdownTol : Value := .float 1e-12

namespace GmresOptions

variable {S R : Type}

def set (o : GmresOptions) (keyword : String) (v : Value) : Except (Fault R) GmresOptions :=
  match keyword with
  | "tol" => .ok { o with tol := v }
  | "restart" => .ok { o with restart := v }
  | "maxiter" => .ok { o with maxiter := v }
  | "breakdown_tol" => .ok { o with breakdownTol := v }
  | _ => .error (Taker.gmres.refusal keyword)

def check (o : GmresOptions) : Except (Fault R) Unit := do
  o.restart.atLeastOne "restart"
  o.maxiter.atLeastOne "maxiter"

def build (given : List (String × Value)) : Except (Fault R) GmresOptions := do
  let o ← given.foldlM (fun o kv => o.set kv.1 kv.2) {}
  o.check
  .ok o

/-- The tolerances are only multiplied with binary64 numbers. -/
def toGmres [Numeral S] (o : GmresOptions) : Gmres S R where
  tol := Numeral.ofFloat <$> o.tol.factor
  restart := o.restart.columns
  maxiter := o.maxiter.budget
  breakdownTol := Numeral.ofFloat <$> o.breakdownTol.factor

/-- GMRES with these parameters, on the least-squares solver of binary64. -/
def solver {V σ : Type} [Inhabited V] [Scalar S] [Numeral S] (o : GmresOptions) :
    KrylovSolver V S R σ :=
  o.toGmres.solve LeastSquares.minimumNorm.viaFloat

end GmresOptions

end NewtonKrylov
