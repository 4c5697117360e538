import Trellis.Keywords
import Trellis.Token.Lexeme

/-!
# Scanning

Scanning reads a script lexeme by lexeme and keeps those that are tokens. It never stops at a fault: the
fault is noted with its place and scanning goes on behind it, so the tokens always end in the mark of the
end. Along the way it keeps track of three things: the position, the closing brackets still owed, and
whether the current line holds anything. A line without anything becomes a blank-line token, but only
outside brackets, behind some token, and once for a run of such lines.
-/

namespace Trellis

/-- A fault and where it is. -/
structure LocatedScanFault where
  fault : ScanFault
  span : Span

/-- **What scanning a script gives**: its tokens, the last of which marks the end, and its faults, both in
the order of the script. -/
structure Scanned where
  tokens : List Token
  faults : List LocatedScanFault

/-- The state of a scan. Tokens and faults are kept in reverse. -/
structure Scan where
  position : Position := {}
  /-- Does the current line hold anything but blanks? -/
  content : Bool := false
  /-- The closing brackets still owed, innermost first. -/
  owed : List Symbol := []
  tokens : List Token := []
  faults : List LocatedScanFault := []

def Symbol.closer? : Symbol → Option Symbol
  | .leftParen => some .rightParen
  | .leftBrace => some .rightBrace
  | .leftBracket => some .rightBracket
  | _ => none

def Symbol.isCloser : Symbol → Bool
  | .rightParen => true
  | .rightBrace => true
  | .rightBracket => true
  | _ => false

namespace Scan

def addFault (s : Scan) (fault : ScanFault) (span : Span) : Scan :=
  { s with faults := ⟨fault, span⟩ :: s.faults }

def addToken (s : Scan) (kind : TokenKind) (text : List Char) (span : Span) : Scan :=
  { s with tokens := ⟨kind, String.ofList text, span⟩ :: s.tokens }

/-- Open or close a bracket. A closing bracket that is not the one owed is a fault. -/
def bracket (s : Scan) (symbol : Symbol) (c : Char) (span : Span) : Scan :=
  match symbol.closer? with
  | some closer => { s with owed := closer :: s.owed }
  | none =>
    if symbol.isCloser then
      match s.owed with
      | owed :: others =>
        if owed == symbol then { s with owed := others } else s.addFault (.unmatched c) span
      | [] => s.addFault (.unmatched c) span
    else s

def marksBlankLine (s : Scan) : Bool :=
  !s.content && s.owed.isEmpty &&
    match s.tokens with
    | [] => false
    | last :: _ => last.terminal != .blankLine

/-- The end of a line. The token of a blank line stands at the start of that line. -/
def endLine (s : Scan) : Scan :=
  let marked :=
    if s.marksBlankLine then s.addToken .blankLine [] ⟨s.position.line, 1, 0⟩ else s
  { marked with content := false }

/-- Where a fault is shown: at its first character. A comment that is never closed is shown on the last
line of the script, at its first character if it starts there. -/
def faultSpan (start finish : Position) (fault : ScanFault) (length : Nat) : Span :=
  match fault with
  | .unterminatedComment =>
    ⟨finish.line, if finish.line == start.line then start.col else 1, length⟩
  | _ => start.span length

def take (keywords : KeywordTable) (s : Scan) (lexeme : Lexeme) : Scan :=
  let span := s.position.span lexeme.text.length
  match lexeme.kind with
  | .symbol symbol =>
    (s.bracket symbol (lexeme.text.headD ' ') span).addToken (.symbol symbol) lexeme.text span
  | .comment => s.addToken .comment lexeme.text span
  | .newline => s.endLine
  | .blank => s
  | .text value => s.addToken (.text (String.ofList value)) lexeme.text span
  | .number =>
    s.addToken (.number ((Number.read? (String.ofList lexeme.text)).getD 0)) lexeme.text span
  | .word =>
    match keywords.find? (String.ofList lexeme.text) with
    | some k => s.addToken (.keyword k) lexeme.text span
    | none => s.addToken .name lexeme.text span
  | .fault fault =>
    s.addFault fault
      (faultSpan s.position (s.position.after lexeme.text) fault lexeme.text.length)

def step (keywords : KeywordTable) (s : Scan) (c : Char) (lexeme : Lexeme) : Scan :=
  let noted := { s with content := s.content || !Text.isBlank c }
  { noted.take keywords lexeme with position := s.position.after lexeme.text }

def run (keywords : KeywordTable) (s : Scan) : List Char → Scan
  | [] => s
  | c :: rest =>
    let lexeme := Lexeme.read c rest
    run keywords (s.step keywords c lexeme) lexeme.rest
termination_by cs => cs.length
decreasing_by exact Lexeme.rest_length_lt c rest

def finish (s : Scan) : Scanned :=
  let mark : Token := ⟨.endOfFile, "", s.position.span 0⟩
  ⟨(mark :: s.tokens).reverse, s.faults.reverse⟩

end Scan

def scan (keywords : KeywordTable) (source : String) : Scanned :=
  (Scan.run keywords {} source.toList).finish

end Trellis
