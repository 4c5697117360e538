import Trellis.Text.Grapheme

/-!
# Typed lines

A line that is typed in can hold backspaces. Each of them takes back the grapheme typed before it, or
nothing if there is none left, and what remains in the end is the line that counts.

How much a backspace takes back is known from the sizes of the graphemes, in bytes, each of which is
itself kept in one byte. Of a grapheme of 256 bytes or more only the remainder of its size is therefore
taken back.
-/

namespace Trellis.Text

def backspace : Char := '\x08'

def byteCount (cs : List Char) : Nat :=
  cs.foldr (fun c n => c.utf8Size + n) 0

def dropBytes : Nat → List Char → List Char
  | 0, cs => cs
  | _, [] => []
  | n + 1, c :: cs => dropBytes (n + 1 - c.utf8Size) cs

structure TypedLine where
  /-- The characters so far, the last one first. -/
  reversed : List Char := []
  /-- The sizes of the graphemes that can be taken back, the last one first. -/
  sizes : List Nat := []

namespace TypedLine

def takeBack (l : TypedLine) : TypedLine :=
  match l.sizes with
  | [] => l
  | size :: sizes => ⟨dropBytes size l.reversed, sizes⟩

def type (l : TypedLine) (g : List Char) : TypedLine :=
  if g == [backspace] then l.takeBack
  else ⟨g.reverse ++ l.reversed, byteCount g % 256 :: l.sizes⟩

end TypedLine

def typed (line : String) : String :=
  String.ofList ((graphemes line.toList).foldl TypedLine.type {}).reversed.reverse

end Trellis.Text
