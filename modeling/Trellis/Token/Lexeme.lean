import Trellis.Number.Reading
import Trellis.Text.Blank
import Trellis.Text.Letter
import Trellis.Token

/-!
# Lexemes

A lexeme is the longest piece at the front of a script that reads as one thing: a symbol, a comment, a
text, a number, a word, a blank, a line feed, or a fault. `Lexeme.read` cuts it off. What is left is the end
of what was there, and shorter, so reading one lexeme after the other comes to an end.
-/

namespace Trellis

inductive ScanFault where
  /-- A closing bracket that does not close the innermost open one. -/
  | unmatched (c : Char)
  /-- A character that starts nothing. -/
  | stray (c : Char)
  | unterminatedComment
  | unterminatedText
  /-- A letter directly behind a number. -/
  | badSuffix (number : String) (suffix : Char)
deriving DecidableEq, Repr

def ScanFault.message : ScanFault → String
  | .unmatched c => s!"Unmatched '{c}'"
  | .stray c => s!"Unexpected character: '{c}'"
  | .unterminatedComment => "Unterminated multi-line comment"
  | .unterminatedText => "Unterminated string"
  | .badSuffix number suffix => s!"Invalid number '{number}' - unexpected suffix '{suffix}'"

/-- The symbols of one character that no longer symbol starts with. -/
def Symbol.single? (c : Char) : Option Symbol :=
  match c with
  | '(' => some .leftParen
  | ')' => some .rightParen
  | '\x7b' => some .leftBrace
  | '\x7d' => some .rightBrace
  | '[' => some .leftBracket
  | ']' => some .rightBracket
  | ',' => some .comma
  | ':' => some .colon
  | '?' => some .question
  | '+' => some .plus
  | '-' => some .minus
  | '*' => some .star
  | '/' => some .slash
  | '%' => some .percent
  | '&' => some .ampersand
  | '|' => some .pipe
  | _ => none

/-- The characters that are a symbol alone and another one together with a second character: the second
character, the longer symbol and the shorter one. -/
def Symbol.pair? (c : Char) : Option (Char × Symbol × Symbol) :=
  match c with
  | '.' => some ('.', .dotDot, .dot)
  | '!' => some ('=', .notEqual, .bang)
  | '=' => some ('=', .equal, .assign)
  | '>' => some ('=', .greaterEqual, .greater)
  | '<' => some ('=', .lessEqual, .less)
  | _ => none

inductive LexemeKind where
  | symbol (s : Symbol)
  | comment
  | newline
  | blank
  /-- The characters between the quotes. -/
  | text (value : List Char)
  | number
  | word
  | fault (f : ScanFault)

structure Lexeme where
  kind : LexemeKind
  text : List Char
  rest : List Char

namespace Lexeme

/-- The body of a comment up to and with its closing mark, and what follows; without a closing mark the
body is all there is. -/
def commentBody : List Char → List Char × Option (List Char)
  | [] => ([], none)
  | c :: rest =>
    match c, rest with
    | '*', '#' :: behind => (['*', '#'], some behind)
    | _, _ =>
      match commentBody rest with
      | (body, behind) => (c :: body, behind)

/-- A comment: to the end of the line, or between marks over several lines. -/
def readComment (rest : List Char) : Lexeme :=
  match rest with
  | '*' :: inner =>
    match commentBody inner with
    | (body, some behind) => ⟨.comment, '#' :: '*' :: body, behind⟩
    | (body, none) => ⟨.fault .unterminatedComment, '#' :: '*' :: body, []⟩
  | _ => ⟨.comment, '#' :: rest.takeWhile (· != '\n'), rest.dropWhile (· != '\n')⟩

def readText (quote : Char) (rest : List Char) : Lexeme :=
  let body := rest.takeWhile fun c => c != quote && c != '\n'
  match rest.dropWhile fun c => c != quote && c != '\n' with
  | c :: behind =>
    if c == quote then ⟨.text body, quote :: (body ++ [c]), behind⟩
    else ⟨.fault .unterminatedText, quote :: body, c :: behind⟩
  | [] => ⟨.fault .unterminatedText, quote :: body, []⟩

/-- The digits behind a point, if the point is followed by a digit; two points are a range. -/
def places (rest : List Char) : List Char × List Char :=
  match rest with
  | '.' :: d :: behind =>
    if d.isDigit then
      ('.' :: d :: behind.takeWhile Char.isDigit, behind.dropWhile Char.isDigit)
    else ([], rest)
  | _ => ([], rest)

def readNumber (c : Char) (rest : List Char) : Lexeme :=
  let whole := rest.takeWhile Char.isDigit
  let (fraction, behind) := places (rest.dropWhile Char.isDigit)
  let number := c :: (whole ++ fraction)
  match behind with
  | s :: _ =>
    if Text.startsWord s then
      ⟨.fault (.badSuffix (String.ofList number) s),
        number ++ behind.takeWhile Text.continuesWord, behind.dropWhile Text.continuesWord⟩
    else ⟨.number, number, behind⟩
  | [] => ⟨.number, number, []⟩

def readPair (c second : Char) (long short : Symbol) (rest : List Char) : Lexeme :=
  match rest with
  | d :: behind => if d == second then ⟨.symbol long, [c, d], behind⟩ else ⟨.symbol short, [c], rest⟩
  | [] => ⟨.symbol short, [c], []⟩

def read (c : Char) (rest : List Char) : Lexeme :=
  match Symbol.single? c with
  | some s => ⟨.symbol s, [c], rest⟩
  | none =>
    match Symbol.pair? c with
    | some (second, long, short) => readPair c second long short rest
    | none =>
      if c = '#' then readComment rest
      else if c == '\n' then ⟨.newline, [c], rest⟩
      else if Text.isBlank c then ⟨.blank, [c], rest⟩
      else if c == '\x22' || c == '\x27' then readText c rest
      else if c.isDigit then readNumber c rest
      else if Text.startsWord c then
        ⟨.word, c :: rest.takeWhile Text.continuesWord, rest.dropWhile Text.continuesWord⟩
      else ⟨.fault (.stray c), [c], rest⟩

/-! ## Less is left -/

theorem commentBody_suffix {cs body behind : List Char} (h : commentBody cs = (body, some behind)) : behind <:+ cs := by
  induction cs generalizing body with
  | nil => cases h
  | cons c rest ih =>
    unfold commentBody at h
    split at h
    · cases h
      exact ⟨['*', '#'], rfl⟩
    · exact (ih (Prod.ext rfl (Prod.mk.inj h).2)).trans (List.suffix_cons _ _)

theorem places_suffix (rest : List Char) : (places rest).2 <:+ rest := by
  unfold places
  split
  · split
    · exact (List.dropWhile_suffix _).trans ⟨['.', _], rfl⟩
    · exact List.suffix_rfl
  · exact List.suffix_rfl

theorem readComment_suffix (rest : List Char) : (readComment rest).rest <:+ rest := by
  unfold readComment
  split
  · split
    · rename_i ends
      exact (commentBody_suffix ends).trans (List.suffix_cons _ _)
    · exact List.nil_suffix
  · exact List.dropWhile_suffix _

theorem readText_suffix (quote : Char) (rest : List Char) : (readText quote rest).rest <:+ rest := by
  have h := List.dropWhile_suffix (fun c => c != quote && c != '\n') (l := rest)
  unfold readText
  simp only
  split
  · rename_i hd
    rw [hd] at h
    split
    · exact (List.suffix_cons _ _).trans h
    · exact h
  · exact List.nil_suffix

theorem readNumber_suffix (c : Char) (rest : List Char) : (readNumber c rest).rest <:+ rest := by
  have h := (places_suffix (rest.dropWhile Char.isDigit)).trans (List.dropWhile_suffix _)
  unfold readNumber
  simp only
  split
  · split
    · exact (List.dropWhile_suffix _).trans h
    · exact h
  · exact List.nil_suffix

/-- **What is behind a lexeme is the end of what was there.** -/
theorem rest_suffix (c : Char) (rest : List Char) : (read c rest).rest <:+ rest := by
  unfold read readPair
  repeat' split
  all_goals first
    | exact List.suffix_rfl
    | exact List.suffix_cons _ _
    | exact List.nil_suffix
    | exact List.dropWhile_suffix _
    | exact readComment_suffix rest
    | exact readText_suffix c rest
    | exact readNumber_suffix c rest

/-- What follows a lexeme is shorter than what it was cut from. -/
theorem rest_length_lt (c : Char) (rest : List Char) : (read c rest).rest.length < (c :: rest).length :=
  Nat.lt_succ_of_le (rest_suffix c rest).length_le

end Lexeme

end Trellis
