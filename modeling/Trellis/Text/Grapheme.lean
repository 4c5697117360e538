import Trellis.Text.Table.ConjunctConsonant
import Trellis.Text.Table.ConjunctLinker
import Trellis.Text.Table.GraphemeControl
import Trellis.Text.Table.GraphemeExtend
import Trellis.Text.Table.GraphemePrepend
import Trellis.Text.Table.Pictograph
import Trellis.Text.Table.SpacingMark

/-!
# Graphemes

What a reader takes for one character can be several: a letter with its marks, a syllable spelled by its
parts, a flag, a picture joined from others. Such a unit is a *grapheme*, and a text falls into graphemes
in exactly one way. Between two characters the text is cut unless a rule joins them, and the rules go by
the *class* of a character.

Most rules look at the two characters next to the gap. Three of them look further back: a flag is made of
two letters, so it matters whether an even number of them came before; pictures are joined only across a
picture that has a joiner behind it; and consonants only across a consonant that has a linker behind it.
What is behind the gap is therefore summed up in a small state, and cutting is one walk over the text.
-/

namespace Trellis.Text

inductive GraphemeClass where
  | carriageReturn
  | lineFeed
  | control
  | extend
  | linker
  /-- Attaches, and keeps letters from joining. -/
  | nonJoiner
  | joiner
  /-- Attaches, with a width of its own. -/
  | spacing
  | prepend
  | regional
  /-- The consonant that a Korean syllable starts with. -/
  | leading
  | vowel
  /-- The consonant that a Korean syllable ends with. -/
  | trailing
  /-- A Korean syllable without a consonant at its end. -/
  | openSyllable
  | closedSyllable
  | pictograph
  | consonant
  | other
deriving DecidableEq, Repr

namespace GraphemeClass

def ofAscii (c : Char) : GraphemeClass :=
  if c == '\r' then .carriageReturn
  else if c == '\n' then .lineFeed
  else if c.toNat < 32 || c.toNat == 127 then .control
  else .other

/-- The part of a Korean syllable that a character is, or the syllable. Every twenty-eighth composed
syllable is without a consonant at its end. -/
def ofKorean? (n : Nat) : Option GraphemeClass :=
  if (0x1100 ≤ n && n ≤ 0x115F) || (0xA960 ≤ n && n ≤ 0xA97C) then some .leading
  else if (0x1160 ≤ n && n ≤ 0x11A7) || (0xD7B0 ≤ n && n ≤ 0xD7C6) then some .vowel
  else if (0x11A8 ≤ n && n ≤ 0x11FF) || (0xD7CB ≤ n && n ≤ 0xD7FB) then some .trailing
  else if 0xAC00 ≤ n && n ≤ 0xD7A3 then
    some (if (n - 0xAC00) % 28 == 0 then .openSyllable else .closedSyllable)
  else none

/-- Vowels of another script that are composed as Korean ones are. -/
def isComposedVowel (n : Nat) : Bool :=
  n == 0x16D63 || (0x16D67 ≤ n && n ≤ 0x16D6A)

def isSkinTone (n : Nat) : Bool :=
  0x1F3FB ≤ n && n ≤ 0x1F3FF

def ofOther (c : Char) : GraphemeClass :=
  let n := c.toNat
  if n == 0x200C then .nonJoiner
  else if n == 0x200D then .joiner
  else if Table.conjunctLinker.contains c then .linker
  else if Table.graphemeExtend.contains c || isSkinTone n then .extend
  else if Table.graphemeControl.contains c then .control
  else if Table.spacingMark.contains c then .spacing
  else if Table.graphemePrepend.contains c then .prepend
  else if 0x1F1E6 ≤ n && n ≤ 0x1F1FF then .regional
  else if isComposedVowel n then .vowel
  else if Table.pictograph.contains c then .pictograph
  else if Table.conjunctConsonant.contains c then .consonant
  else (ofKorean? n).getD .other

def of (c : Char) : GraphemeClass :=
  if c.toNat < 128 then ofAscii c else ofOther c

def standsApart : GraphemeClass → Bool
  | carriageReturn | lineFeed | control => true
  | _ => false

/-- Does such a character attach to what is before it, without a width of its own? -/
def isMark : GraphemeClass → Bool
  | extend | linker | nonJoiner => true
  | _ => false

def attaches : GraphemeClass → Bool
  | joiner | spacing => true
  | k => k.isMark

def spellsOn : GraphemeClass → GraphemeClass → Bool
  | leading, leading | leading, vowel | leading, openSyllable | leading, closedSyllable => true
  | openSyllable, vowel | openSyllable, trailing | vowel, vowel | vowel, trailing => true
  | closedSyllable, trailing | trailing, trailing => true
  | _, _ => false

end GraphemeClass

/-- **What is behind a gap**, as far as it decides whether the text is cut there. -/
structure GraphemeState where
  /-- The class of the last character. -/
  last : GraphemeClass
  /-- A picture is the last character but for marks. -/
  picture : Bool := false
  /-- A joiner is the last character, right behind such a picture. -/
  joined : Bool := false
  /-- The number of halves of flags at the end is odd. -/
  halfFlag : Bool := false
  /-- A consonant is the last character but for marks and joiners. -/
  consonant : Bool := false
  linked : Bool := false

namespace GraphemeState

open GraphemeClass

def start (k : GraphemeClass) : GraphemeState :=
  { last := k, picture := k == .pictograph, halfFlag := k == .regional,
    consonant := k == .consonant }

def next (s : GraphemeState) (k : GraphemeClass) : GraphemeState :=
  let staysLinkable := k == .extend || k == .linker || k == .joiner
  { last := k
    picture := k == .pictograph || (s.picture && k.isMark)
    joined := s.picture && k == .joiner
    halfFlag := k == .regional && !s.halfFlag
    consonant := k == .consonant || (s.consonant && staysLinkable)
    linked := s.consonant && (k == .linker || (s.linked && staysLinkable)) }

def joins (s : GraphemeState) (k : GraphemeClass) : Bool :=
  if s.last.standsApart || k.standsApart then s.last == .carriageReturn && k == .lineFeed
  else
    spellsOn s.last k || k.attaches || s.last == .prepend || (s.linked && k == .consonant) ||
      (s.joined && k == .pictograph) || (s.halfFlag && k == .regional)

end GraphemeState

def graphemesFrom (s : GraphemeState) (current : List Char) : List Char → List (List Char)
  | [] => [current.reverse]
  | c :: rest =>
    let k := GraphemeClass.of c
    if s.joins k then graphemesFrom (s.next k) (c :: current) rest
    else current.reverse :: graphemesFrom (s.next k) [c] rest

def graphemes : List Char → List (List Char)
  | [] => []
  | c :: rest => graphemesFrom (.start (.of c)) [c] rest

end Trellis.Text
