import Trellis.Command.Invocation
import Trellis.Session
import Trellis.Script.Layout
import Trellis.Settings.Reading
import Trellis.Token.Listing

/-!
# The command

Here an invocation is carried out, as a function of its *surroundings*, which are the files, the clock and
the input. What comes of it is a *delivery*: an exit code, what was written on the two outputs, and the
files afterwards. Faults of a script are reported and make the code one. So do faults of the command
itself, such as a script that is not there; those have a wording of their own.
-/

namespace Trellis

structure Surroundings where
  files : FileTree := {}
  clock : Clock := {}
  input : String := ""

structure Delivery where
  code : Nat := 0
  output : String := ""
  errors : String := ""
  files : FileTree

inductive CommandFault where
  /-- The file of keywords cannot be read. -/
  | noKeywords (reason : FileFault)
  | badKeywords
  /-- The file of settings cannot be read. -/
  | noSettings (path : String) (reason : FileFault)
  | badSettings (path : String)
  | noScript (path : String) (reason : FileFault)
  | unreadable (path : Path) (reason : FileFault)
  | unwritable (path : Path) (reason : FileFault)

namespace CommandFault

def failure (doing reason : String) : String :=
  "Error: " ++ doing ++ "\n\nCaused by:\n    " ++ reason ++ "\n"

def message : CommandFault → String
  | noKeywords reason => "Error: " ++ reason.message ++ "\n"
  | badKeywords => "Error: the keywords are not a JSON object of texts\n"
  | noSettings path reason => failure ("reading config " ++ path) reason.message
  | badSettings path => failure ("parsing config " ++ path) "the settings are not valid"
  | noScript path reason => failure ("opening " ++ path) reason.message
  | unreadable path reason => failure ("reading " ++ path.text) reason.message
  | unwritable path reason => failure ("writing " ++ path.text) reason.message

end CommandFault

/-- A script and the file it is in. -/
structure ScriptFile where
  path : Path
  source : String

namespace Surroundings

def script (s : Surroundings) (path : String) : Except CommandFault ScriptFile := do
  let full ← (s.files.canonical ⟨path⟩).mapError (.noScript path)
  let source ← (s.files.read full).mapError (.unreadable full)
  return ⟨full, source⟩

def keywords (s : Surroundings) (i : Invocation) : Except CommandFault KeywordTable := do
  match i.keywords with
  | none => return .default
  | some path =>
    let text ← (s.files.read ⟨path⟩).mapError .noKeywords
    match KeywordTable.read? text with
    | some table => return table
    | none => .error .badKeywords

def settings (s : Surroundings) (i : Invocation) : Except CommandFault Settings := do
  let chosen ←
    match i.settings with
    | none => pure ({} : Settings)
    | some path =>
      let text ← (s.files.read ⟨path⟩).mapError (.noSettings path)
      match Settings.read? text with
      | some settings => pure settings
      | none => .error (.badSettings path)
  return if i.lenient then { chosen with matching := Settings.lenient.matching } else chosen

def machine (s : Surroundings) (i : Invocation) : Except CommandFault Machine := do
  let keywords ← s.keywords i
  let settings ← s.settings i
  return { keywords, settings, files := s.files, clock := s.clock }

end Surroundings

def Delivery.failing (files : FileTree) (errors : String) : Delivery :=
  { code := 1, errors, files }

namespace ScriptFile

/-- Read a script and go on with its program; a fault is reported. -/
def withProgram (f : ScriptFile) (m : Machine) (next : Program → Except CommandFault Delivery) :
    Except CommandFault Delivery :=
  match readScript m.keywords m.settings.matching f.source with
  | .done program _ => next program
  | .failed fault _ =>
    return .failing m.files (fault.reportAmong m.files (some f.path) f.source)
  | .exhausted => return .failing m.files ""

def execute (f : ScriptFile) (program : Program) (m : Machine) : Delivery :=
  match m.interpret program with
  | .done _ m => { output := m.output, files := m.files }
  | .failed fault m =>
    { code := 1
      output := m.output
      errors := fault.reportAmong m.files (some f.path) f.source
      files := m.files }
  | .exhausted => .failing m.files ""

def run (f : ScriptFile) (m : Machine) : Except CommandFault Delivery :=
  f.withProgram m fun program => return f.execute program (m.start (some f.path))

/-- **Run a script under the debugger**, which takes its commands from the input. -/
def debug (f : ScriptFile) (m : Machine) (breakpoints : List Nat) (input : String) : Except CommandFault Delivery :=
  f.withProgram m fun program =>
    let console := Console.ofSource f.source (some f.path) program.outline input
    let m := m.start (some f.path)
    let m := { m with observer := .console (breakpoints.foldl Console.addBreakpoint console) }
    let greeting := "Debugging " ++ f.path.text ++ ". Type 'help' for available commands.\n"
    return f.execute program (m.write .console greeting)

def layOut (f : ScriptFile) (m : Machine) (inPlace : Bool) : Except CommandFault Delivery :=
  f.withProgram m fun program => do
    let text := ({} : Layout).program program
    if inPlace then
      return { files := ← (m.files.write f.path text).mapError (.unwritable f.path) }
    else return { output := text, files := m.files }

/-- **List the tokens of a script**, and report every fault of scanning. -/
def listTokens (f : ScriptFile) (m : Machine) : Delivery :=
  let scanned := scan m.keywords f.source
  let reports := scanned.faults.map fun fault =>
    (Fault.reading (.scan fault.fault) fault.span).reportAmong m.files (some f.path) f.source
  { code := if scanned.faults.isEmpty then 0 else 1
    output := scanned.listing
    errors := String.join reports
    files := m.files }

end ScriptFile

def Session.delivery (s : Session) : Delivery :=
  { output := s.machine.output, errors := s.reports, files := s.machine.files }

namespace Invocation

def attempt (i : Invocation) (s : Surroundings) : Except CommandFault Delivery := do
  let m ← s.machine i
  match i.activity with
  | .converse => return ((Session.start m).feedAll s.input).delivery
  | .run path => (← s.script path).run m
  | .debug path breakpoints => (← s.script path).debug m breakpoints s.input
  | .layOut path inPlace => (← s.script path).layOut m inPlace
  | .tokens path => return (← s.script path).listTokens m

def perform (i : Invocation) (s : Surroundings) : Delivery :=
  match i.attempt s with
  | .ok delivery => delivery
  | .error fault => .failing s.files fault.message

end Invocation

/-- **The command**: read the arguments and do what they ask for. -/
def command (arguments : List String) (s : Surroundings) : Delivery :=
  match Invocation.read? arguments with
  | some invocation => invocation.perform s
  | none => { code := 2, errors := Invocation.usage, files := s.files }

end Trellis
