import NewtonKrylov.Config

/-!
# Options by keyword

Options are given by keyword to whatever makes a configuration: the configuration itself, a solver,
or a run that makes its solver first. A solver may be given a configuration in place of options, and
a run is given other things too; options must not repeat them.
-/

namespace NewtonKrylov

inductive Setting (K N C : Type) where
  | linsolver (choice : SolverChoice K)
  | norm (choice : NormChoice N)
  | callback (choice : CallbackChoice C)
  | plain (v : Value)

abbrev Keywords (K N C : Type) := List (String × Setting K N C)

/-- What a solver holds for a configuration; anything else shows when it is used. -/
inductive Held (K N C : Type) where
  | config (c : Config K N C)
  | other (v : Value)

/-- The configuration that is held, for a use that begins with the given part of it. -/
def Held.demand {K N C R : Type} (part : String) : Held K N C → Except (Fault R) (Config K N C)
  | config c => .ok c
  | other v => .error (.missingPart v.kind part)

namespace Keywords

variable {K N C R : Type}

def names (kws : Keywords K N C) : List String := kws.map Prod.fst

def set (o : Options K N C) (keyword : String) : Setting K N C → Except (Fault R) (Options K N C)
  | .linsolver choice => .ok { o with linsolver := choice }
  | .norm choice => .ok { o with norm := choice }
  | .callback choice => .ok { o with errorCallback := choice }
  | .plain v => o.set keyword v

def toConfig (kws : Keywords K N C) : Except (Fault R) (Config K N C) := do
  let o ← kws.foldlM (fun o kw => set o kw.1 kw.2) {}
  o.toConfig

/-- What a solver made by the taker holds. Nothing in place of a configuration counts as none. -/
def hold (taker : Taker) (kws : Keywords K N C) : Except (Fault R) (Held K N C) := do
  taker.allow (names kws)
  Taker.solver.allow (names kws)
  let options := kws.filter fun kw => kw.1 ≠ "config"
  match kws.lookup "config" with
  | none | some (.plain .none) => .config <$> toConfig options
  | some (.plain v) => if options.isEmpty then .ok (.other v) else .error .configuredTwice
  | some _ => .error .configuredTwice

/-- What a solver holds that is handed a ready configuration and options, which must be none. -/
def holdBesides (ready : Config K N C) (kws : Keywords K N C) :
    Except (Fault R) (Held K N C) := do
  Taker.configuredSolver.allow (names kws)
  if kws.isEmpty then .ok (.config ready) else .error .configuredTwice

end Keywords

end NewtonKrylov
