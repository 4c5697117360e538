import Trellis.Number.Decimal
import Trellis.Text.Lines
import Trellis.Text.Quoted
import Trellis.Token.Scan

/-!
# Listings of tokens

A listing shows the tokens of a script one per line: the place, what the token is, and the characters it
was written with, in quotes.
-/

namespace Trellis

def TokenKind.listing : TokenKind → String
  | .symbol s => s.listing
  | .keyword k => k.listing
  | .name => "Identifier"
  | .text value => "String(" ++ Text.quote value ++ ")"
  | .number value => "Number(" ++ Number.listingText value ++ ")"
  | .comment => "Comment"
  | .blankLine => "EmptyLine"
  | .endOfFile => "Eof"

/-- The line of a token. The places line up as long as they have few digits. -/
def Token.listing (t : Token) : String :=
  Text.padLeft 4 (toString t.span.line) ++ ":" ++ Text.padRight 3 (toString t.span.col) ++ " " ++
    t.kind.listing ++ " " ++ Text.quote t.lexeme ++ "\n"

def Scanned.listing (s : Scanned) : String :=
  String.join (s.tokens.map Token.listing)

end Trellis
