import Trellis.Evaluation
import Trellis.Report
import Trellis.Script.Reading
import Trellis.Text.Typed

/-!
# Sessions

A session takes a script line by line, as it is typed in. Lines are gathered until they make a complete
input; then the input is read and run, and the session goes on with the next one. One machine and one
parser serve the whole session, so a name declared in one input is there in the next.

An input is *complete* once reading it no longer runs off its end. This is tested on the gathered lines
alone, and always with strict matching.
-/

namespace Trellis

/-- **A session**: the machine and the parser that serve it, and the lines gathered so far. -/
structure Session where
  machine : Machine
  parser : Parser
  /-- The lines of an input that is not complete. -/
  gathered : String := ""
  reports : String := ""

/-- Does the wording of a fault say that something was missing at the end? -/
def Fault.isUnfinished (f : Fault) : Bool :=
  "end of file".toList.isSuffixOf f.message.toList

namespace Session

/-- The parser that a session starts with, and comes back to after a fault of reading. -/
def freshParser (m : Machine) : Parser :=
  { keywords := m.keywords, matching := m.settings.matching }

def start (m : Machine) : Session :=
  let m := m.start none
  { machine := m, parser := freshParser m }

def isComplete (keywords : KeywordTable) (input : String) : Bool :=
  let scanned := scan keywords input
  if scanned.faults.any (·.fault == .unterminatedComment) then false
  else
    match { Parser.ofTokens scanned.tokens with keywords }.readProgram with
    | .failed fault _ => !fault.isUnfinished
    | _ => true

def report (s : Session) (input : String) (fault : Fault) : Session :=
  { s with reports := s.reports ++ fault.reportAmong s.machine.files none input }

def echo (s : Session) (v : Value) : Session :=
  match v with
  | .nil => s
  | v =>
    { s with machine := s.machine.write .console (s.machine.heap.text v ++ "\n") }

/-- **Run a complete input.** What a failed reading leaves over does not get into the next input. -/
def run (s : Session) (input : String) : Session :=
  let scanned := scan s.machine.keywords input
  match scanned.fault? with
  | some fault => s.report input fault
  | none =>
    match (s.parser.push scanned.tokens).readProgram with
    | .exhausted => s
    | .failed fault _ => { s with parser := freshParser s.machine }.report input fault
    | .done program parser =>
      match s.machine.interpret program with
      | .exhausted => s
      | .failed fault machine => { s with machine, parser }.report input fault
      | .done v machine => { s with machine, parser }.echo v

def feed (s : Session) (line : String) : Session :=
  let input := s.gathered ++ line ++ "\n"
  if isComplete s.machine.keywords input then
    let s := { s with gathered := "" }
    if Text.allBlank input.toList then s else s.run input
  else { s with gathered := input }

/-- **Take in all lines of a text**, each as its backspaces leave it. An input that is still incomplete at
the end is dropped. -/
def feedAll (s : Session) (input : String) : Session :=
  ((Text.lines input).map Text.typed).foldl feed s

end Session

end Trellis
