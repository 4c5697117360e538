import Trellis.Heap
import Trellis.Scope
import Trellis.Script.Outline
import Trellis.Text.Lines

/-!
# The debugger

The debugger is a console that is told of every statement before it is executed. It starts out paused, and
pauses again when the run comes to a line with a breakpoint from another line. While it is paused it takes
commands, which look at the run and never change it. It goes away when there are no more commands.
-/

namespace Trellis

structure Console where
  lines : List String
  /-- The file of the script. Statements of other files are not followed. -/
  file : Option Path
  outline : Outline
  /-- The lines at which to pause, in order. -/
  breakpoints : List Nat := []
  paused : Bool := true
  detached : Bool := false
  /-- The line of the statement that is next. -/
  line : Nat := 0
  statement : Option NodeId := none
  scope : Option ScopeId := none
  /-- The commands that are still to come. -/
  input : List Char

namespace Console

def ofSource (source : String) (file : Option Path) (outline : Outline) (input : String) : Console :=
  { lines := Text.lines source, file, outline, input := input.toList }

def insertLine (n : Nat) : List Nat → List Nat
  | [] => [n]
  | m :: rest => if n < m then n :: m :: rest else if n == m then m :: rest else m :: insertLine n rest

def addBreakpoint (c : Console) (line : Nat) : Console :=
  { c with breakpoints := insertLine line c.breakpoints }

def isPaused (c : Console) : Bool :=
  c.paused && !c.detached && c.statement.isSome

/-- **The run comes to a statement**, in a scope whose code is in the given file. What is written is given
back beside the new state. -/
def report (c : Console) (line : Nat) (statement : NodeId) (scope : ScopeId) (file : Option Path) :
    Console × String :=
  if file != c.file then (c, "")
  else
    let moved := line != c.line
    let c := { c with line, statement := some statement, scope := some scope }
    if !c.detached && moved && c.breakpoints.contains line then
      ({ c with paused := true }, "Paused at breakpoint at line " ++ toString line ++ "\n")
    else (c, "")

/-! ## Commands -/

def helpText : String :=
  "Commands:\n" ++
    "  b, break, breakpoint <line>   set a breakpoint\n" ++
    "  c, clear [line]               clear one breakpoint, or all\n" ++
    "  l, list                       list breakpoints\n" ++
    "  n, next                       continue to the next breakpoint\n" ++
    "  w, where                      show the current position\n" ++
    "  v, var, vars [name]           show one variable, or every visible one\n" ++
    "  src, source                   print the source with breakpoints marked\n" ++
    "  exit                          stop the program\n" ++
    "  h, help                       show this help\n"

def position (c : Console) : String :=
  match c.statement with
  | none => "Not started\n"
  | some statement =>
    let block :=
      match c.outline.enclosing? statement with
      | some info =>
        if info.parent.isSome then "block at line " ++ toString info.span.line else "top level"
      | none => "top level"
    let text := Text.trim (((c.lines)[c.line - 1]?).getD "")
    "Line " ++ toString c.line ++ " (depth " ++ toString (c.outline.depth statement) ++ ", " ++ block ++
      "): " ++ text ++ "\n"

def variableLine (h : Heap) (name : String) (v : Value) : String :=
  name ++ " = " ++ h.text v ++ "\n"

/-- The variables of a scope. Constant functions are left out, since every scope sees them. -/
def scopeVariables (scopes : Scopes) (h : Heap) (id : ScopeId) : String :=
  let scope := scopes.get id
  String.join (scope.localValues.map fun (name, v) =>
    if v.isCallable && scope.isStatic name then "" else variableLine h name v)

def visibleVariables (c : Console) (scopes : Scopes) (h : Heap) (name : Option String) : String :=
  match c.scope, name with
  | none, _ => "No scope yet\n"
  | some scope, some name =>
    match scopes.lookup scope name with
    | .ok v => variableLine h name v
    | .error fault => fault.message ++ "\n"
  | some scope, none => String.join ((scopes.chain scope).map (scopeVariables scopes h))

/-- A line of the script, with marks for a breakpoint and for the line that is next. -/
def sourceLine (c : Console) (width number : Nat) (line : String) : String :=
  (if c.breakpoints.contains number then "*" else " ") ++ (if number == c.line then ">" else " ") ++
    Text.padLeft width (toString number) ++ " | " ++ line ++ "\n"

def source (c : Console) : String :=
  let width := (toString c.lines.length).length
  String.join (c.lines.zipIdx.map fun (line, i) => c.sourceLine width (i + 1) line)

def breakpointList (c : Console) : String :=
  if c.breakpoints.isEmpty then "No breakpoints\n"
  else "Breakpoints: " ++ ", ".intercalate (c.breakpoints.map toString) ++ "\n"

/-- What comes of a command. -/
inductive Verdict where
  | stay
  | resume
  | stop
deriving DecidableEq, Repr

def command (c : Console) (scopes : Scopes) (h : Heap) (words : List String) : Console × String × Verdict :=
  match words with
  | [] => (c, "", .stay)
  | verb :: arguments =>
    let argument := arguments.head?
    let number := argument.bind Number.readNat?
    if verb == "b" || verb == "break" || verb == "breakpoint" then
      match number with
      | some line =>
        (c.addBreakpoint line, "Breakpoint set at line " ++ toString line ++ "\n", .stay)
      | none => (c, "Usage: b <line>\n", .stay)
    else if verb == "c" || verb == "clear" then
      match number with
      | some line =>
        if c.breakpoints.contains line then
          ({ c with breakpoints := c.breakpoints.filter (· != line) },
            "Breakpoint at line " ++ toString line ++ " cleared\n", .stay)
        else (c, "No breakpoint at line " ++ toString line ++ "\n", .stay)
      | none => ({ c with breakpoints := [] }, "All breakpoints cleared\n", .stay)
    else if verb == "l" || verb == "list" then (c, c.breakpointList, .stay)
    else if verb == "n" || verb == "next" then (c, "Continuing execution...\n", .resume)
    else if verb == "w" || verb == "where" then (c, c.position, .stay)
    else if verb == "v" || verb == "var" || verb == "vars" then
      (c, c.visibleVariables scopes h argument, .stay)
    else if verb == "src" || verb == "source" then (c, c.source, .stay)
    else if verb == "exit" then (c, "", .stop)
    else if verb == "h" || verb == "help" then (c, helpText, .stay)
    else (c, "Unknown command: " ++ verb ++ ". Type 'help' for available commands.\n", .stay)

def prompt : String := "debug> "

/-- Take at most the given number of commands, until the run goes on or ends. -/
def converse (scopes : Scopes) (h : Heap) : Nat → Console → String → Console × String × Verdict
  | 0, c, written => (c, written, .resume)
  | bound + 1, c, written =>
    match Text.readLine? c.input with
    | none => ({ c with detached := true, paused := false }, written ++ prompt, .resume)
    | some (line, rest) =>
      let (c, text, verdict) :=
        { c with input := rest }.command scopes h (Text.words (String.ofList line))
      let written := written ++ prompt ++ text
      match verdict with
      | .stay => converse scopes h bound c written
      | .resume => ({ c with paused := false }, written, .resume)
      | .stop => (c, written, .stop)

/-- **Take commands until the run goes on or ends.** Every command takes a character of the input. -/
def interact (c : Console) (scopes : Scopes) (h : Heap) : Console × String × Verdict :=
  converse scopes h (c.input.length + 1) c ""

end Console

end Trellis
