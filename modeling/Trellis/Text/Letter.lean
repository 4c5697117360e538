import Trellis.Text.Table.Alphabetic
import Trellis.Text.Table.Numeric

/-!
# Letters and words

A name in a script is a word: it starts with an alphabetic character or an underscore and goes on with
alphabetic or numeric ones. Letters of every script count. A number literal is made of ASCII digits
only, so a digit of another script can continue a word but start neither a word nor a number.
-/

namespace Trellis.Text

def isLetter (c : Char) : Bool :=
  if c.toNat < 128 then c.isAlpha else Table.alphabetic.contains c

def isNumeral (c : Char) : Bool :=
  if c.toNat < 128 then c.isDigit else Table.numeric.contains c

def startsWord (c : Char) : Bool :=
  isLetter c || c == '_'

def continuesWord (c : Char) : Bool :=
  isLetter c || isNumeral c || c == '_'

/-- What may start a word may continue one. -/
theorem continuesWord_of_startsWord {c : Char} (h : startsWord c = true) : continuesWord c = true := by
  unfold startsWord at h
  unfold continuesWord
  rcases Bool.or_eq_true _ _ ▸ h with h | h <;> simp [h]

end Trellis.Text
