import Trellis.Span

/-!
# Tokens

A script is a sequence of tokens: symbols, keywords, names, literals, and the two kinds that carry no
meaning but are kept for layout, comments and blank lines. What a grammar rule asks for is a *terminal*,
which forgets the value of a literal; what the reader of a script gets is a *token*, which has the value,
the characters it was written with and its place.
-/

namespace Trellis

inductive Symbol where
  | leftParen
  | rightParen
  | leftBrace
  | rightBrace
  | leftBracket
  | rightBracket
  | comma
  | dot
  | dotDot
  | colon
  | question
  | plus
  | minus
  | star
  | slash
  | percent
  | ampersand
  | pipe
  | bang
  | assign
  | equal
  | notEqual
  | greater
  | greaterEqual
  | less
  | lessEqual
deriving DecidableEq, Repr

inductive Keyword where
  | useKw
  | exposeKw
  | pickKw
  | asKw
  | taskKw
  | waitKw
  | toKw
  | runKw
  | ifKw
  | elseKw
  | letKw
  | constKw
  | fnKw
  | returnKw
  | endKw
  | forKw
  | inKw
  | rangeKw
  | switchKw
  | caseKw
  | defaultKw
  | breakKw
  | nanKw
  | nilKw
  | trueKw
  | falseKw
deriving DecidableEq, Repr

def Symbol.text : Symbol → String
  | .leftParen => "("
  | .rightParen => ")"
  | .leftBrace => "\x7b"
  | .rightBrace => "\x7d"
  | .leftBracket => "["
  | .rightBracket => "]"
  | .comma => ","
  | .dot => "."
  | .dotDot => ".."
  | .colon => ":"
  | .question => "?"
  | .plus => "+"
  | .minus => "-"
  | .star => "*"
  | .slash => "/"
  | .percent => "%"
  | .ampersand => "&"
  | .pipe => "|"
  | .bang => "!"
  | .assign => "="
  | .equal => "=="
  | .notEqual => "!="
  | .greater => ">"
  | .greaterEqual => ">="
  | .less => "<"
  | .lessEqual => "<="

def Symbol.listing : Symbol → String
  | .leftParen => "LeftParen"
  | .rightParen => "RightParen"
  | .leftBrace => "LeftBrace"
  | .rightBrace => "RightBrace"
  | .leftBracket => "LeftBracket"
  | .rightBracket => "RightBracket"
  | .comma => "Comma"
  | .dot => "Dot"
  | .dotDot => "DotDot"
  | .colon => "Colon"
  | .question => "Question"
  | .plus => "Plus"
  | .minus => "Minus"
  | .star => "Star"
  | .slash => "Slash"
  | .percent => "Percent"
  | .ampersand => "Ampersand"
  | .pipe => "Pipe"
  | .bang => "Bang"
  | .assign => "Assign"
  | .equal => "Equal"
  | .notEqual => "NotEqual"
  | .greater => "Greater"
  | .greaterEqual => "GreaterEqual"
  | .less => "Less"
  | .lessEqual => "LessEqual"

def Keyword.text : Keyword → String
  | .useKw => "use"
  | .exposeKw => "expose"
  | .pickKw => "pick"
  | .asKw => "as"
  | .taskKw => "task"
  | .waitKw => "wait"
  | .toKw => "to"
  | .runKw => "run"
  | .ifKw => "if"
  | .elseKw => "else"
  | .letKw => "let"
  | .constKw => "const"
  | .fnKw => "fn"
  | .returnKw => "return"
  | .endKw => "end"
  | .forKw => "for"
  | .inKw => "in"
  | .rangeKw => "range"
  | .switchKw => "switch"
  | .caseKw => "case"
  | .defaultKw => "default"
  | .breakKw => "break"
  | .nanKw => "NaN"
  | .nilKw => "nil"
  | .trueKw => "true"
  | .falseKw => "false"

def Keyword.listing : Keyword → String
  | .useKw => "Use"
  | .exposeKw => "Expose"
  | .pickKw => "Pick"
  | .asKw => "As"
  | .taskKw => "Task"
  | .waitKw => "Wait"
  | .toKw => "To"
  | .runKw => "Run"
  | .ifKw => "If"
  | .elseKw => "Else"
  | .letKw => "Let"
  | .constKw => "Const"
  | .fnKw => "Fn"
  | .returnKw => "Return"
  | .endKw => "End"
  | .forKw => "For"
  | .inKw => "In"
  | .rangeKw => "Range"
  | .switchKw => "Switch"
  | .caseKw => "Case"
  | .defaultKw => "Default"
  | .breakKw => "Break"
  | .nanKw => "NaN"
  | .nilKw => "Nil"
  | .trueKw => "True"
  | .falseKw => "False"

/-- **Terminals of the grammar**: tokens without the value of their literal. -/
inductive Terminal where
  | symbol (s : Symbol)
  | keyword (k : Keyword)
  | name
  | text
  | number
  | comment
  | blankLine
  | endOfFile
deriving DecidableEq, Repr

def Terminal.describe : Terminal → String
  | .symbol s => "'" ++ s.text ++ "'"
  | .keyword k => "'" ++ k.text ++ "'"
  | .name => "identifier"
  | .text => "string"
  | .number => "number"
  | .comment => "comment"
  | .blankLine => "empty line"
  | .endOfFile => "end of file"

inductive TokenKind where
  | symbol (s : Symbol)
  | keyword (k : Keyword)
  | name
  /-- The characters between the quotes, as they were written. -/
  | text (value : String)
  | number (value : Float)
  | comment
  | blankLine
  | endOfFile

namespace TokenKind

def terminal : TokenKind → Terminal
  | symbol s => .symbol s
  | keyword k => .keyword k
  | name => .name
  | text _ => .text
  | number _ => .number
  | comment => .comment
  | blankLine => .blankLine
  | endOfFile => .endOfFile

def isKeyword : TokenKind → Bool
  | keyword _ => true
  | _ => false

end TokenKind

/-- **A token**: what it is, the characters it was written with, and where they stand. -/
structure Token where
  kind : TokenKind
  lexeme : String
  span : Span

namespace Token

def terminal (t : Token) : Terminal :=
  t.kind.terminal

/-- Comments and blank lines: statements where statements are read, and skipped elsewhere. -/
def isTrivia (t : Token) : Bool :=
  match t.kind with
  | .comment => true
  | .blankLine => true
  | _ => false

def isEnd (t : Token) : Bool :=
  match t.kind with
  | .endOfFile => true
  | _ => false

/-- How a token is named in a message about something unexpected. -/
def describe (t : Token) : String :=
  match t.kind with
  | .endOfFile => "end of file"
  | .text _ => "string " ++ t.lexeme
  | _ => "'" ++ t.lexeme ++ "'"

end Token

end Trellis
