import Trellis.Fault
import Trellis.Files.Tree
import Trellis.Text.Case
import Trellis.Text.Lines
import Trellis.Text.Search

/-!
# Reports

A report shows a fault to the user: a header, the place, the line of the script with the faulty stretch
underlined, and a hint if there is one.
-/

namespace Trellis

namespace Report

/-- The characters under the start of a line, up to a column: blanks, with the tabs of the line kept, so
that what stands behind them lines up. -/
def padding (line : List Char) (col : Nat) : List Char :=
  (line.take (col - 1)).map fun c => if c == '\t' then '\t' else ' '

/-- The line of a script with the given number, counted from one. -/
def lineAt (source : String) (number : Nat) : String :=
  ((Text.lines source)[number - 1]?).getD ""

def hintLines (gutter : String) : Option String → String
  | some hint => gutter ++ " |\n" ++ gutter ++ " = hint: " ++ hint ++ "\n"
  | none => ""

def located (source label : String) (file : Option Path) (span : Span) (message : String)
    (hint : Option String) : String :=
  let line := lineAt source span.line
  let gutter := Text.repeated (toString span.line).length ' '
  let place :=
    match file with
    | some path => path.text ++ ":" ++ span.place
    | none => "line " ++ span.place
  let carets := Text.repeated (max span.length 1) '^'
  "error[" ++ label ++ "]: " ++ message ++ "\n" ++
    gutter ++ "--> " ++ place ++ "\n" ++
    gutter ++ " |\n" ++
    toString span.line ++ " | " ++ line ++ "\n" ++
    gutter ++ " | " ++ String.ofList (padding line.toList span.col) ++ carets ++ "\n" ++
    hintLines gutter hint

def unlocated (label : String) (file : Option Path) (message : String) (hint : Option String) : String :=
  "error[" ++ label ++ "]: " ++ message ++ "\n" ++
    ((file.map fun path => "  --> " ++ path.text ++ "\n").getD "") ++
    ((hint.map fun h => "  = hint: " ++ h ++ "\n").getD "")

def holds (text part : String) : Bool :=
  Text.occurs part.toList text.toList

def hintFor? (message : String) : Option String :=
  let text := Text.lower message
  if holds text "condition must be a boolean" then
    some "there is no truthiness; compare explicitly, e.g. `x != nil`"
  else if holds text "cannot assign to constant" || holds text "cannot delete constant" then
    some "declare with 'let' instead of 'const' to make it reassignable"
  else if holds text "is not callable" then
    some "make sure the function is declared before this line"
  else if holds text "'break' at end of case" then
    some "end every case with 'break' unless its last statement is 'return'"
  else if holds text "cyclic import" then
    some "move the shared declarations into a module both files can use"
  else if "module".toList.isPrefixOf text.toList && holds text "not found" then
    some "module paths are relative to the importing file"
  else none

end Report

namespace Fault

/-- The hint of a fault: its own one, or the one that its wording calls for. -/
def shownHint? (f : Fault) : Option String :=
  f.hint.or (Report.hintFor? f.message)

/-- **The report of a fault** against the text of the script it points into. -/
def report (f : Fault) (source : String) : String :=
  let label := f.stage.label
  match f.span with
  | some span =>
    if span.line > 0 then Report.located source label f.file span f.message f.shownHint?
    else Report.unlocated label f.file f.message f.shownHint?
  | none => Report.unlocated label f.file f.message f.shownHint?

/-- The text of the script that a fault points into: the script at hand, unless the fault is in another
file that can be read. -/
def scriptText (f : Fault) (files : FileTree) (current : Option Path) (source : String) : String :=
  match f.file with
  | none => source
  | some file =>
    if current == some file then source
    else
      match files.read file with
      | .ok text => text
      | .error _ => source

/-- **The report of a fault** that may be in another file than the script at hand. -/
def reportAmong (f : Fault) (files : FileTree) (current : Option Path) (source : String) : String :=
  f.report (f.scriptText files current source)

end Fault

end Trellis
