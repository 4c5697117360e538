import Trellis.Text.Table.GraphemeExtend
import Trellis.Text.Table.Unprintable

/-!
# Quoted text

A text shown inside another value stands between double quotes, and what could be misread is escaped:
the quote and the backslash, the common controls by letter, and every character that has no glyph of its
own, or attaches to the one before it, by its code point in braces. The single quote is not escaped, and
texts and paths are quoted alike.
-/

namespace Trellis.Text

/-- The four fillers of Korean script: letters without a glyph, which hold the place of a missing one. -/
def isFiller (c : Char) : Bool :=
  let n := c.toNat
  n == 0x115F || n == 0x1160 || n == 0x3164 || n == 0xFFA0

/-- The two sound marks of halfwidth Japanese script. They belong to the character before them, but they
are letters and have a cell of their own. -/
def isHalfwidthSoundMark (c : Char) : Bool :=
  c.toNat == 0xFF9E || c.toNat == 0xFF9F

/-- Does the character attach to the one before it, so that it cannot be shown on its own? -/
def isAttached (c : Char) : Bool :=
  Table.graphemeExtend.contains c && !isHalfwidthSoundMark c

def isShown (c : Char) : Bool :=
  if c.toNat < 128 then 32 ≤ c.toNat && c.toNat < 127
  else !isAttached c && !isFiller c && !Table.unprintable.contains c

def hexDigits (n : Nat) : List Char :=
  Nat.toDigits 16 n

def escapeCodePoint (c : Char) : List Char :=
  ['\\', 'u', '\x7b'] ++ hexDigits c.toNat ++ ['\x7d']

def escapeChar (c : Char) : List Char :=
  if c == '\x00' then ['\\', '0']
  else if c == '\t' then ['\\', 't']
  else if c == '\r' then ['\\', 'r']
  else if c == '\n' then ['\\', 'n']
  else if c == '\\' || c == '\x22' then ['\\', c]
  else if isShown c then [c]
  else escapeCodePoint c

/-- **A text between double quotes**, as it is shown inside another value. -/
def quote (s : String) : String :=
  "\"" ++ String.ofList (s.toList.flatMap escapeChar) ++ "\""

end Trellis.Text
