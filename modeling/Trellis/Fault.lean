import Trellis.Files.Fault
import Trellis.Path
import Trellis.Script.Operator
import Trellis.Token.Lexeme
import Trellis.Value.Tag

/-!
# Faults

A fault is what stops the reading or the running of a script: a *cause*, the *stage* at which it arose,
and, as far as they are known, a place, a file and a hint. A fault travels outwards through the levels of
the work it stops. The innermost level that knows the place attaches it, and outer ones do not replace it.

Each level also *records* the fault as it passes. What the user sees is the first fault recorded, which is
the fault as the innermost level knew it.
-/

namespace Trellis

inductive MemberFault where
  | unreadable (key : String) (receiver : Tag)
  | noMethod (name : String) (receiver : Tag)
  | notText (method : String) (got : Tag)
  /-- A missing argument that has to be a text. -/
  | missingText (method : String)
  | notNumber (method : String) (got : Tag)
deriving DecidableEq, Repr

def MemberFault.message : MemberFault → String
  | .unreadable key receiver => s!"Cannot read property '{key}' of {receiver.name}"
  | .noMethod name receiver => s!"'{name}' is not a method of {receiver.name}"
  | .notText method got => s!"{method} expects a string, got {got.name}"
  | .missingText method => s!"{method} expects a string argument"
  | .notNumber method got => s!"{method} expects a number, got {got.name}"

inductive LibraryFault where
  /-- An argument, counted from zero, that is not a text. -/
  | notText (name : String) (index : Nat)
  /-- A file operation failed. The first argument says what was being done. -/
  | file (doing : String) (path : Path) (reason : FileFault)

def LibraryFault.message : LibraryFault → String
  | .notText name index => s!"{name} expects a string as argument {index + 1}"
  | .file doing path reason => s!"Error {doing} '{path.text}': {reason.message}"

inductive Cause where
  | scan (fault : ScanFault)
  | unexpected (got : String)
  | expected (what got : String)
  /-- Something other than a declaration is exposed. -/
  | notExposable
  | invalidTarget
  /-- Something other than a call is run. -/
  | notRunnable
  | openTemplate
  | emptySlot
  | notDeclared (name : String)
  | alreadyDeclared (name : String)
  | constantAssigned (name : String)
  | importAssigned (name : String)
  | constantDeleted (name : String)
  | notCondition (got : Tag)
  | notIterable (got : Tag)
  | notNegatable (got : Tag)
  | badBounds (first last : Tag)
  | badOperands (operator : Arithmetic) (left right : Tag)
  | incomparable (operator : Comparison) (left right : Tag)
  | notCallback (method : String)
  | notFilterResult (got : Tag)
  | tooFewArguments (name : String) (least got : Nat)
  | notCallable (shown : String)
  | neverResolved
  | outOfBounds (index length : Nat)
  | notAssignable (key : String) (receiver : Tag)
  | member (fault : MemberFault)
  | library (fault : LibraryFault)
  | noModule (name : String)
  | cyclicImport (name : String)
  | unreadableModule (path : Path) (reason : FileFault)
  /-- The user of the debugger ended the run. -/
  | ended
  /-- A cause that a host words itself. -/
  | reported (message : String)

def Cause.message : Cause → String
  | .scan fault => fault.message
  | .unexpected got => s!"Unexpected token {got}"
  | .expected what got => s!"Expected {what}, got {got}"
  | .notExposable => "'expose' must be followed by a let, const, fn or task declaration"
  | .invalidTarget => "Invalid assignment target"
  | .notRunnable => "Expected a call after 'run'"
  | .openTemplate => "The template string is not closed"
  | .emptySlot => "Empty expression in template string"
  | .notDeclared name => s!"'{name}' is not declared"
  | .alreadyDeclared name => s!"'{name}' is already declared"
  | .constantAssigned name => s!"Cannot assign to constant '{name}'"
  | .importAssigned name => s!"'{name}' is imported and cannot be reassigned"
  | .constantDeleted name => s!"Cannot delete constant '{name}'"
  | .notCondition got => s!"Condition must be a boolean, got {got.name}"
  | .notIterable got => s!"Cannot iterate over {got.name}"
  | .notNegatable got => s!"Cannot negate {got.name}"
  | .badBounds first last => s!"Range bounds must be numbers, got {first.name} and {last.name}"
  | .badOperands operator left right =>
    s!"Cannot apply '{operator.symbol}' to {left.name} and {right.name}"
  | .incomparable operator left right =>
    s!"Cannot compare {left.name} with {right.name} using '{operator.symbol}'"
  | .notCallback method => s!"{method} expects a function"
  | .notFilterResult got => s!"filter callback must return a boolean, got {got.name}"
  | .tooFewArguments name least got =>
    s!"'{name}' expects at least {least} argument(s), got {got}"
  | .notCallable shown => s!"'{shown}' is not callable"
  | .neverResolved => "Awaited task can never resolve"
  | .outOfBounds index length => s!"Index {index} is out of bounds for an array of length {length}"
  | .notAssignable key receiver => s!"Cannot set property '{key}' on {receiver.name}"
  | .member fault => fault.message
  | .library fault => fault.message
  | .noModule name => s!"Module '{name}' not found"
  | .cyclicImport name => s!"Cyclic import of '{name}'"
  | .unreadableModule path reason => s!"Cannot read module '{path.text}': {reason.message}"
  | .ended => "Debugging session ended"
  | .reported message => message

inductive Stage where
  | reading
  | running
  /-- Managing names, modules and the run itself. -/
  | managing
deriving DecidableEq, Repr

def Stage.code : Stage → String
  | .reading => "SyntaxError"
  | .running => "RuntimeError"
  | .managing => "InterpreterError"

def Stage.label : Stage → String
  | .reading => "syntax"
  | .running => "runtime"
  | .managing => "interpreter"

structure Fault where
  stage : Stage
  cause : Cause
  span : Option Span := none
  file : Option Path := none
  hint : Option String := none

namespace Fault

def reading (cause : Cause) (span : Span) : Fault :=
  { stage := .reading, cause, span := some span }

def running (cause : Cause) (span : Span) : Fault :=
  { stage := .running, cause, span := some span }

/-- A fault in the management of a run, the place of which its surroundings know. -/
def managing (cause : Cause) : Fault :=
  { stage := .managing, cause }

def notDeclared (name : String) : Fault :=
  { stage := .running, cause := .notDeclared name }

def message (f : Fault) : String :=
  f.cause.message

def isNotDeclared (f : Fault) : Bool :=
  match f.cause with
  | .notDeclared _ => true
  | _ => false

def summary (f : Fault) : String :=
  f.stage.code ++ ": " ++ f.message

def located (f : Fault) (span : Span) : Fault :=
  { f with span := f.span.or (some span) }

def inFile (f : Fault) (file : Option Path) : Fault :=
  { f with file := f.file.or file }

end Fault

/-- **The faults recorded during one piece of work**, the first one first. -/
structure FaultLog where
  faults : List Fault := []

namespace FaultLog

def record (log : FaultLog) (f : Fault) : FaultLog :=
  ⟨log.faults ++ [f]⟩

def innermost? (log : FaultLog) : Option Fault :=
  log.faults.head?

/-- The fault to show when the work was stopped by the given one. -/
def surface (log : FaultLog) (stopped : Fault) : Fault :=
  log.innermost?.getD stopped

@[simp] theorem innermost?_record (log : FaultLog) (f : Fault) :
    (log.record f).innermost? = log.innermost?.or (some f) := by
  cases log with
  | mk faults => cases faults <;> rfl

end FaultLog

end Trellis
