/-!
# Transcripts

What a run writes is kept piece by piece, together with who wrote it: the script itself, or the debugger
that looks on. The text on the output is all pieces one after another. What the script wrote can be told
apart from it, so that two runs can be compared by what their scripts wrote.
-/

namespace Trellis

inductive Writer where
  | script
  | console
deriving DecidableEq, Repr

structure Transcript where
  reversed : List (Writer × String) := []

namespace Transcript

def write (t : Transcript) (writer : Writer) (text : String) : Transcript :=
  ⟨(writer, text) :: t.reversed⟩

def pieces (t : Transcript) : List (Writer × String) :=
  t.reversed.reverse

def text (t : Transcript) : String :=
  String.join (t.pieces.map (·.2))

def scriptPieces (t : Transcript) : List String :=
  t.pieces.filterMap fun (writer, text) =>
    match writer with
    | .script => some text
    | .console => none

@[simp] theorem pieces_write (t : Transcript) (writer : Writer) (text : String) :
    (t.write writer text).pieces = t.pieces ++ [(writer, text)] := by
  simp [write, pieces]

@[simp] theorem scriptPieces_write_script (t : Transcript) (text : String) :
    (t.write .script text).scriptPieces = t.scriptPieces ++ [text] := by
  simp [scriptPieces]

@[simp] theorem scriptPieces_write_console (t : Transcript) (text : String) :
    (t.write .console text).scriptPieces = t.scriptPieces := by
  simp [scriptPieces]

end Transcript

end Trellis
