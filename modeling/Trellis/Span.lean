/-!
# Spans

A span says where a piece of a script stands: the line, the column of its first character on that line,
and its length in characters. Lines and columns count from one. A span never reaches past its line for
the purpose of display, so a start and a length are all there is.
-/

namespace Trellis

/-- **A place in a script.** The default span, all zeros, stands for code that has no place. -/
structure Span where
  line : Nat := 0
  col : Nat := 0
  length : Nat := 0
deriving DecidableEq, Inhabited, Repr

def Span.place (s : Span) : String :=
  s!"{s.line}:{s.col}"

/-- **A position between two characters**, where the next character stands. -/
structure Position where
  line : Nat := 1
  col : Nat := 1
deriving DecidableEq, Repr

namespace Position

def next (p : Position) (c : Char) : Position :=
  if c == '\n' then ⟨p.line + 1, 1⟩ else ⟨p.line, p.col + 1⟩

def after (p : Position) (text : List Char) : Position :=
  text.foldl next p

def span (p : Position) (length : Nat) : Span :=
  ⟨p.line, p.col, length⟩

@[simp] theorem after_nil (p : Position) : p.after [] = p := rfl

@[simp] theorem after_cons (p : Position) (c : Char) (text : List Char) :
    p.after (c :: text) = (p.next c).after text := rfl

theorem after_append (p : Position) (a b : List Char) : p.after (a ++ b) = (p.after a).after b :=
  List.foldl_append

end Position

end Trellis
