import Trellis.Text.Table.Cased
import Trellis.Text.Table.CaseIgnorable
import Trellis.Text.Table.UpperCase
import Trellis.Text.Table.LowerCase

/-!
# Upper and lower case

The full case mapping of text. A character may map to several (the upper case of `ß` is `SS`), so both
mappings go from a character to a list. Upper case looks at one character at a time. Lower case has one
rule that looks around: a capital sigma that ends a word becomes the final form `ς`, where a word ends
when a cased character precedes, none follows, and case-ignorable characters are looked through on both
sides.
-/

namespace Trellis.Text

/-- Look a character up in a case mapping: a sequence first, then the runs, else the character. -/
def mapCase (runs : List CaseRun) (sequences : List (Nat × List Nat)) (c : Char) : List Char :=
  match sequences.find? (·.1 == c.toNat) with
  | some (_, target) => target.map Char.ofNat
  | none =>
    match CaseRun.find? runs c.toNat with
    | some target => [Char.ofNat target]
    | none => [c]

def upperChar (c : Char) : List Char :=
  if c.toNat < 128 then [c.toUpper] else mapCase Table.upperCase Table.upperCaseSequences c

/-- The lower case of one character, without regard to its neighbours. -/
def lowerChar (c : Char) : List Char :=
  if c.toNat < 128 then [c.toLower] else mapCase Table.lowerCase Table.lowerCaseSequences c

def isCased (c : Char) : Bool :=
  if c.toNat < 128 then c.isAlpha else Table.cased.contains c

/-- Is the character looked through when the end of a word is sought? In ASCII these are the marks that
occur inside words and the two accents that stand alone. -/
def isCaseIgnorable (c : Char) : Bool :=
  if c.toNat < 128 then c == '\x27' || c == '.' || c == ':' || c == '^' || c == '\x60'
  else Table.caseIgnorable.contains c

/-- Is the nearest character that is not case-ignorable a cased one? -/
def nextIsCased (cs : List Char) : Bool :=
  match cs.dropWhile isCaseIgnorable with
  | [] => false
  | c :: _ => isCased c

/-- The capital sigma, the one character whose lower case depends on its neighbours. -/
def capitalSigma : Char := 'Σ'

/-- Lower case of a text, given the characters before it, nearest first. -/
def lowerFrom (before : List Char) : List Char → List Char
  | [] => []
  | c :: rest =>
    let mapped :=
      if c == capitalSigma then
        if nextIsCased before && !nextIsCased rest then ['ς'] else ['σ']
      else lowerChar c
    mapped ++ lowerFrom (c :: before) rest

def upper (s : String) : String :=
  String.ofList (s.toList.flatMap upperChar)

def lower (s : String) : String :=
  String.ofList (lowerFrom [] s.toList)

end Trellis.Text
