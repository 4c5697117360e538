import Trellis.Action
import Trellis.Calendar
import Trellis.Console
import Trellis.Files.Tree
import Trellis.Journal
import Trellis.Keywords
import Trellis.Library.Registry
import Trellis.Modules
import Trellis.Settings
import Trellis.Task
import Trellis.Transcript

/-!
# Machines

A machine is the state of a run: its scopes and the current one of them, the heap, the tasks, the modules,
the faults recorded in the present pass, what was written, the files, the clock, the journal, and whoever
observes the run. One machine serves a whole session, pass after pass.
-/

namespace Trellis

/-- A statement that is about to be executed, the scope in which, and the file of that. -/
structure TraceEntry where
  line : Nat
  statement : NodeId
  scope : ScopeId
  file : Option Path

inductive Observer where
  | nobody
  /-- The statements so far, the last one first. -/
  | trace (reversed : List TraceEntry)
  | console (c : Console)

structure Machine where
  settings : Settings := {}
  keywords : KeywordTable := .default
  registry : Registry := .standard
  scopes : Scopes := {}
  /-- The scope of the code that is being executed. -/
  current : ScopeId := 0
  heap : Heap := {}
  tasks : TaskQueue := {}
  modules : ModuleTable := {}
  log : FaultLog := {}
  transcript : Transcript := {}
  files : FileTree := {}
  clock : Clock := {}
  observer : Observer := .nobody
  /-- What became of tasks, and which code was executed, the last thing first. -/
  journal : List Event := []

/-- Work on a machine. -/
abbrev Run := Action Machine

namespace Machine

def output (m : Machine) : String :=
  m.transcript.text

def write (m : Machine) (writer : Writer) (text : String) : Machine :=
  { m with transcript := m.transcript.write writer text }

def note (m : Machine) (event : Event) : Machine :=
  { m with journal := event :: m.journal }

def currentFile (m : Machine) : Option Path :=
  (m.scopes.get m.current).file

def addPrelude (m : Machine) (root : ScopeId) : Machine :=
  match m.registry.build? "global" m.clock.now m.heap with
  | none => m
  | some (exports, heap) =>
    { m with heap, scopes := m.scopes.declareConstants root exports }

/-- **A machine for a script in the given file**, with a root for its code. -/
def start (m : Machine) (file : Option Path) : Machine :=
  let (root, scopes) := m.scopes.addRoot file
  { m with scopes, current := root }.addPrelude root

end Machine

namespace Run

variable {α : Type}

def newScope : Run ScopeId := fun m =>
  let current := m.current
  let (id, scopes) := m.scopes.addChild current
  .done id { m with scopes }

/-- **Do something in another scope** and come back, however it ends. -/
@[inline] def within (scope : ScopeId) (x : Run α) : Run α := fun m =>
  let before := m.current
  match x { m with current := scope } with
  | .done a m => .done a { m with current := before }
  | .failed fault m => .failed fault { m with current := before }
  | .exhausted => .exhausted

/-- Attach a place and the current file to a fault, unless it has them, and record it. -/
def record (span : Span) (fault : Fault) (m : Machine) : Fault × Machine :=
  let fault := (fault.located span).inFile m.currentFile
  (fault, { m with log := m.log.record fault })

/-- **Record the fault of an action** as it passes, with a place. -/
@[inline] def recorded (span : Span) (x : Run α) : Run α :=
  x.onFault (record span)

@[inline] def fail (cause : Cause) (span : Span) : Run α :=
  Action.fail (.running cause span)

@[inline] def onScopes (f : Scopes → Except Fault Scopes) : Run Unit := fun m =>
  match f m.scopes with
  | .ok scopes => .done () { m with scopes }
  | .error fault => .failed fault m

@[inline] def alloc (f : Heap → α × Heap) : Run α := fun m =>
  let (a, heap) := f m.heap
  .done a { m with heap }

def textOf (v : Value) : Run String :=
  Action.read fun m => m.heap.text v

def tagOf (v : Value) : Run Tag :=
  Action.read fun m => m.heap.tag v

def declare (scope : ScopeId) (name : String) (v : Value) (static : Bool) : Run Unit := fun m =>
  match m.scopes.declareFault? scope name with
  | some fault => .failed fault m
  | none => .done () { m with scopes := m.scopes.addBinding scope name v static }

def write (text : String) : Run Unit :=
  Action.change fun m => m.write .script text

/-- **Tell whoever observes the run of a statement.** The debugger may end the run. -/
def observe (s : Stmt) : Run Unit := fun m =>
  match m.observer with
  | .nobody => .done () m
  | .trace reversed =>
    .done () { m with observer := .trace (⟨s.span.line, s.id, m.current, m.currentFile⟩ :: reversed) }
  | .console c =>
    let (c, text) := c.report s.span.line s.id m.current m.currentFile
    if c.isPaused then
      let (c, more, verdict) := c.interact m.scopes m.heap
      let m := { m with observer := .console c }.write .console (text ++ more)
      match verdict with
      | .stop => .failed (.managing .ended) m
      | _ => .done () m
    else .done () ({ m with observer := .console c }.write .console text)

end Run

end Trellis
