/-!
# Line search policies

The three ways to choose a step along a direction, with the names they are asked for by.
-/

namespace NewtonKrylov

/-- How the step scale is chosen: the full step, the best point of a uniform grid, or bisection of a
bracket. -/
inductive Policy where
  | full
  | grid
  | bisection
deriving DecidableEq, Repr

namespace Policy

def all : List Policy := [full, grid, bisection]

def name : Policy → String
  | full => "none"
  | grid => "linear"
  | bisection => "bisect"

def title : Policy → String
  | full => "NoLineSearch"
  | grid => "LinearLineSearch"
  | bisection => "BisectLineSearch"

def names : List String := all.map name

def ofName? (s : String) : Option Policy := all.find? fun p => p.name = s

theorem ofName?_name (p : Policy) : ofName? p.name = some p := by cases p <;> decide

end Policy

end NewtonKrylov
