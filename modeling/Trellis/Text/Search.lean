/-!
# Searching in text

Finding, splitting and replacing go through one question: where does a pattern first occur in a list of
characters? `find?` answers with the number of characters before the first occurrence, so the empty
pattern occurs at zero. The other operations are told in terms of the part before that occurrence and the
part after it.
-/

namespace Trellis.Text

/-- **The number of characters before the first occurrence of a pattern.** -/
def find? (pattern : List Char) : List Char → Option Nat
  | [] => if pattern.isEmpty then some 0 else none
  | c :: rest =>
    if pattern.isPrefixOf (c :: rest) then some 0 else (find? pattern rest).map (· + 1)

def occurs (pattern text : List Char) : Bool :=
  (find? pattern text).isSome

/-- Split at every occurrence of a separator that is not empty, from left to right and without overlap.
`skip` characters still belong to the separator just found, and the part being read is kept in
reverse. -/
def splitFrom (separator : List Char) (skip : Nat) (current : List Char) : List Char → List (List Char)
  | [] => [current.reverse]
  | c :: rest =>
    match skip with
    | n + 1 => splitFrom separator n current rest
    | 0 =>
      if separator.isPrefixOf (c :: rest) then
        current.reverse :: splitFrom separator (separator.length - 1) [] rest
      else splitFrom separator 0 (c :: current) rest

/-- **The parts of a text between the occurrences of a separator.** The empty separator splits into
single characters. -/
def split (separator text : List Char) : List (List Char) :=
  if separator.isEmpty then text.map fun c => [c] else splitFrom separator 0 [] text

/-- **Replace the first occurrence of a pattern.** A text without one is left as it is. -/
def replaceFirst (pattern replacement text : List Char) : List Char :=
  match find? pattern text with
  | some n => text.take n ++ replacement ++ text.drop (n + pattern.length)
  | none => text

end Trellis.Text
