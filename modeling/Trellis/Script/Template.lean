import Trellis.Text.Blank

/-!
# Templates

A text may hold *slots*, expressions between double braces, and is then a template. Splitting cuts it
into the texts and the slots; a slot keeps its offset, so that places inside it can be given in terms of
the script. Outside of slots a backslash changes the meaning of the character behind it.
-/

namespace Trellis

namespace Template

def opener : Char := '\x7b'

def closer : Char := '\x7d'

def startsSlot : List Char → Bool
  | a :: b :: rest =>
    a == opener && b == opener && !(rest.takeWhile (· != closer)).isEmpty &&
      (rest.dropWhile (· != closer)).take 2 == [closer, closer]
  | _ => false

def hasSlot : List Char → Bool
  | [] => false
  | c :: cs => startsSlot (c :: cs) || hasSlot cs

def isTemplate (text : String) : Bool :=
  hasSlot text.toList

inductive Segment where
  | text (s : String)
  /-- The source of an expression, and how many characters of the template stand before it. -/
  | slot (source : String) (offset : Nat)
deriving DecidableEq, Repr

/-- Why a template cannot be split. -/
inductive SplitFault where
  | unclosed
  | blankSlot
deriving DecidableEq, Repr

def unescape (c : Char) : Char :=
  match c with
  | 'n' => '\n'
  | 't' => '\t'
  | 'r' => '\r'
  | other => other

/-- A text segment of the characters read so far, which are in reverse, if there are any. -/
def flush (reversed : List Char) (segments : List Segment) : List Segment :=
  if reversed.isEmpty then segments else .text (String.ofList reversed.reverse) :: segments

/-- Split the rest of a template, which starts at the given offset, after the given characters of a
text. -/
def splitFrom (offset : Nat) (reversed : List Char) (cs : List Char) : Except SplitFault (List Segment) :=
  match cs with
  | [] => .ok (flush reversed [])
  | [c] => .ok (flush (c :: reversed) [])
  | a :: b :: rest =>
    if a == '\\' then splitFrom (offset + 2) (unescape b :: reversed) rest
    else if a == opener && b == opener then
      let source := rest.takeWhile (· != closer)
      if (rest.dropWhile (· != closer)).take 2 == [closer, closer] then
        if Text.allBlank source then .error .blankSlot
        else do
          let segments ← splitFrom (offset + 2 + source.length + 2) []
            ((rest.dropWhile (· != closer)).drop 2)
          return flush reversed (.slot (String.ofList source) (offset + 2) :: segments)
      else .error .unclosed
    else splitFrom (offset + 1) (a :: reversed) (b :: rest)
termination_by cs.length
decreasing_by
  · simp only [List.length_cons]
    omega
  · have := (List.dropWhile_sublist (p := fun c => c != closer) (l := rest)).length_le
    simp only [List.length_cons, List.length_drop]
    omega
  · simp only [List.length_cons]
    omega

def split (text : String) : Except SplitFault (List Segment) :=
  splitFrom 0 [] text.toList

end Template

end Trellis
