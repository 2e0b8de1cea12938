import NewtonKrylov.Problems.Bratu
import NewtonKrylov.Problems.CrossProduct

/-!
The command line of the worked problems: the name of a problem, then its options. Results go to the
standard output, what a run reports to the standard error.
-/

open NewtonKrylov

/-- Prints a report; reports of updates are left out unless wanted. -/
def printReport (r : Report) (iterationLine : Nat → String → String) (verbose : Bool) :
    IO UInt32 := do
  for record in r.log do
    if verbose || record.level != .debug then
      IO.eprintln (record.level.name ++ ": " ++ record.text)
  for line in r.lines iterationLine do
    IO.println line
  match r.results with
  | .ok _ => pure 0
  | .error e =>
    IO.eprintln e.message
    pure 1

def refuse (reason : String) : IO UInt32 := do
  IO.eprintln reason
  pure 2

def main (words : List String) : IO UInt32 :=
  match words with
  | "cross_product" :: options => match CrossProduct.ofArguments options with
    | .ok s => printReport s.report CrossProduct.iterationLine s.verbose
    | .error reason => refuse reason
  | "bratu" :: options => match Bratu.ofArguments options with
    | .ok s => printReport s.report Bratu.iterationLine false
    | .error reason => refuse reason
  | _ => refuse "usage: cross_product | bratu, then options"
