import NewtonKrylov.Text.Whole
import NewtonKrylov.Value
import NewtonKrylov.Word

/-!
# Causes of failure

Each constructor of `Fault` is one reason why building a solver or running it fails; `message` gives
its words. The residual norm that stops a checked run keeps its own type `R`.
-/

namespace NewtonKrylov

inductive Taker where
  | configuration
  | gmres
  | solver
  /-- A solver that is handed a configuration besides. -/
  | configuredSolver
  | run
  | recordedRun
deriving DecidableEq, Repr

namespace Taker

def call : Taker → String
  | configuration => "JFNKConfig.__init__()"
  | gmres => "GMRES.__init__()"
  | solver | configuredSolver => "JFNK.__init__()"
  | run => "jfnk()"
  | recordedRun => "jfnk_with_history()"

/-- How messages about its own keywords call it. -/
def fullCall : Taker → String
  | run => "jax_jfnk.solve." ++ run.call
  | recordedRun => "jax_jfnk.solve." ++ recordedRun.call
  | taker => taker.call

/-- What it is given by position. -/
def positions : Taker → List String
  | configuration | gmres | solver => ["self"]
  | configuredSolver => ["self", "config"]
  | run | recordedRun => ["f", "x", "algebra"]

/-- What it is given by a keyword of its own, besides the options. -/
def ownKeywords : Taker → List String
  | run | recordedRun => ["dx", "error_callback"]
  | _ => []

end Taker

inductive Fault (R : Type) where
  | nonFinite (iteration : Nat) (residual : R)
  | divisionByZero
  | integerBeyondFloat
  | quotientBeyondFloat
  | integerBeyondWord
  /-- An integer is too large for a word of 32 bits, but not for one of 64 bits. -/
  | integerTooWide (n : Int)
  | unknownSearch (name : Value) (known : List String)
  | abstractSearch
  | notPositive (what : String) (got : Value)
  | belowOne (what : String) (got : Value)
  | badSize (got : Value)
  | unordered (relation kind : String)
  | notCount (kind : String)
  | notExtent
  | extentBeyondWord
  | tableTooLarge
  | unscalable (kind : String)
  | sequenceScaled
  | notWholeKind (kind : String)
  | notWholeText (s : String)
  /-- A whole number has more digits than are read. -/
  | tooManyDigits (digits : Nat)
  | nanNotWhole
  | infinityNotWhole
  | notNumberKind (kind : String)
  | notNumberText (s : String)
  | notCallable (kind : String)
  | missingArgument (kind argument : String)
  | tooManyArguments (kind : String) (most given : Nat)
  | solverNotCallable
  | callbackNotCallable
  | unknownKeyword (taker : Taker) (keyword : String)
  /-- An option has the keyword of something that is given by position. -/
  | repeatedPosition (taker : Taker) (keyword : String)
  | repeatedKeyword (taker : Taker) (keyword : String)
  | missingPart (kind part : String)
  | configuredTwice
  | frozenField (name : String)
  | wrongShape (size : Nat) (shape : List Nat)
  | noBroadcast (shape : List Nat) (size : Nat)
  /-- Lists are nested deeper than the most extents that their array may have. -/
  | tooDeep (most : Nat)
  /-- A collaborator of a run failed for a reason of its own. -/
  | collaborator (reason : String)

namespace Fault

/-- Extents in parentheses; a single one is followed by a comma. -/
def shapeText : List Nat → String
  | [n] => "(" ++ toString n ++ ",)"
  | ns => "(" ++ ", ".intercalate (ns.map toString) ++ ")"

def shortened (s : String) : String := String.ofList (s.toList.take 200)

def nonFiniteText (iteration residual : String) : String :=
  "Non-finite residual norm " ++ residual ++ " at iteration " ++ iteration ++ "."

def message : Fault Float → String
  | nonFinite k err => nonFiniteText (toString k) (Decimal.shortest err)
  | divisionByZero => "float division by zero"
  | integerBeyondFloat => "int too large to convert to float"
  | quotientBeyondFloat => "integer division result too large for a float"
  | integerBeyondWord => "Python int too large to convert to C long"
  | integerTooWide n => "Python integer " ++ toString n ++ " out of bounds for int32"
  | unknownSearch name known =>
    "couldn't find line search method " ++ name.shown ++ ". Options: " ++ ", ".intercalate known
  | abstractSearch =>
    "Can't instantiate abstract class AbstractLineSearch with abstract method __call__"
  | notPositive what got => what ++ " must be positive, got " ++ got.text
  | belowOne what got => what ++ " must be at least 1, got " ++ got.text
  | badSize got => "size must be a positive integer, got " ++ got.text
  | unordered relation kind =>
    "'" ++ relation ++ "' not supported between instances of '" ++ kind ++ "' and 'int'"
  | notCount kind => "'" ++ kind ++ "' object cannot be interpreted as an integer"
  | notExtent => "an integer is required"
  | extentBeyondWord => "Maximum allowed dimension exceeded"
  | tableTooLarge =>
    "array is too big; `arr.size * arr.dtype.itemsize` is larger than the maximum possible size."
  | unscalable kind => "unsupported operand type(s) for *: '" ++ kind ++ "' and 'float'"
  | sequenceScaled => "can't multiply sequence by non-int of type 'float'"
  | notWholeKind kind =>
    "int() argument must be a string, a bytes-like object or a real number, not '" ++ kind ++ "'"
  | notWholeText s => "invalid literal for int() with base 10: " ++ shortened (Text.quoted s)
  | tooManyDigits digits =>
    "Exceeds the limit (" ++ toString Text.digitLimit ++ " digits) for integer string conversion: "
      ++ "value has " ++ toString digits
      ++ " digits; use sys.set_int_max_str_digits() to increase the limit"
  | nanNotWhole => "cannot convert float NaN to integer"
  | infinityNotWhole => "cannot convert float infinity to integer"
  | notNumberKind kind => "float() argument must be a string or a real number, not '" ++ kind ++ "'"
  | notNumberText s => "could not convert string to float: " ++ Text.quoted s
  | notCallable kind => "'" ++ kind ++ "' object is not callable"
  | missingArgument kind argument =>
    kind ++ ".__call__() missing 1 required positional argument: '" ++ argument ++ "'"
  | tooManyArguments kind most given =>
    kind ++ ".__call__() takes " ++ toString most ++ " positional arguments but " ++ toString given ++
      " were given"
  | solverNotCallable => "linsolver must be callable as (A, b, x, algebra)"
  | callbackNotCallable => "error_callback must be callable as (err, iteration)"
  | unknownKeyword taker keyword =>
    taker.call ++ " got an unexpected keyword argument '" ++ keyword ++ "'"
  | repeatedPosition taker keyword =>
    taker.call ++ " got multiple values for argument '" ++ keyword ++ "'"
  | repeatedKeyword taker keyword =>
    taker.fullCall ++ " got multiple values for keyword argument '" ++ keyword ++ "'"
  | missingPart kind part => "'" ++ kind ++ "' object has no attribute '" ++ part ++ "'"
  | configuredTwice => "Provide either config OR keyword options, not both."
  | frozenField name => "cannot assign to field '" ++ name ++ "'"
  | wrongShape size shape =>
    "Expected values of shape (" ++ toString size ++ ",), got " ++ shapeText shape
  | noBroadcast shape size =>
    "could not broadcast input array from shape " ++ shapeText shape ++ " into shape "
      ++ shapeText [size]
  | tooDeep most =>
    "setting an array element with a sequence. "
      ++ "The requested array would exceed the maximum number of dimension of " ++ toString most
      ++ "."
  | collaborator reason => reason

end Fault

/-- Why a keyword is none of the taker's options. -/
def Taker.refusal {R : Type} (taker : Taker) (keyword : String) : Fault R :=
  if taker.positions.contains keyword then .repeatedPosition taker keyword
  else .unknownKeyword taker keyword

def Taker.allow {R : Type} (taker : Taker) (keywords : List String) : Except (Fault R) Unit :=
  match keywords.find? taker.ownKeywords.contains, keywords.find? taker.positions.contains with
  | some keyword, _ => .error (.repeatedKeyword taker keyword)
  | none, some keyword => .error (.repeatedPosition taker keyword)
  | none, none => .ok ()

def Unfit.fault {R : Type} : Unfit → Fault R
  | nan => .nanNotWhole
  | infinite => .infinityNotWhole
  | tooLarge => .integerBeyondWord
  | tooWide n => .integerTooWide n
  | beyondFloat => .integerBeyondFloat

end NewtonKrylov
