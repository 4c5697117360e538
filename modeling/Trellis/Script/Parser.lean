import Trellis.Action
import Trellis.Script
import Trellis.Settings
import Trellis.Token.Scan

/-!
# Parsers

A parser holds the tokens that are still to be read. More tokens can be added at any time, and reading
goes on where it stopped, so one parser can read the inputs of a whole session. Comments and blank lines
are skipped wherever a token of the grammar is asked for, and seen only where statements are read.

The parser owns the mark of the end that stands in when the tokens run out, the mode of matching, the
spellings of the keywords for the scripts inside of templates, the next free identity and the place of
the token taken last.
-/

namespace Trellis

structure Parser where
  tokens : List Token := []
  /-- Where the mark of the end stands that is seen when the tokens have run out. -/
  endSpan : Span := {}
  keywords : KeywordTable := .default
  matching : MatchMode := .strict
  log : FaultLog := {}
  nextId : NodeId := 0
  /-- The place of the token taken last. -/
  lastSpan : Span := {}

/-- Reading something of a script. -/
abbrev Parse := Action Parser

namespace Parser

def ofTokens (tokens : List Token) : Parser :=
  { tokens, endSpan := ((tokens.getLast?).map (·.span)).getD {} }

def dropEnd (tokens : List Token) : List Token :=
  match tokens.getLast? with
  | some last => if last.isEnd then tokens.dropLast else tokens
  | none => tokens

def push (p : Parser) (tokens : List Token) : Parser :=
  { p with
    tokens := dropEnd p.tokens ++ tokens
    endSpan := ((tokens.getLast?).map (·.span)).getD p.endSpan }

/-- The mark of the end that stands in when the tokens have run out. -/
def endMark (p : Parser) : Token :=
  ⟨.endOfFile, "", p.endSpan⟩

def front (p : Parser) : Token :=
  p.tokens.head?.getD p.endMark

def peek (p : Parser) : Token :=
  (p.tokens.find? fun t => !t.isTrivia).getD p.endMark

def peekSecond (p : Parser) : Token :=
  match p.tokens.dropWhile (·.isTrivia) with
  | _ :: rest => (rest.find? fun t => !t.isTrivia).getD p.endMark
  | [] => p.endMark

def sees (p : Parser) (t : Terminal) : Bool :=
  p.peek.terminal == t

end Parser

namespace Parse

variable {α β : Type}

/-- Take the next token of the grammar. The mark of the end is seen and stays. -/
def advance : Parse Token := fun p =>
  let rest := p.tokens.dropWhile (·.isTrivia)
  match rest with
  | [] => .done p.endMark { p with tokens := [], lastSpan := p.endSpan }
  | t :: others =>
    if t.isEnd then .done p.endMark { p with tokens := rest, lastSpan := p.endSpan }
    else .done t { p with tokens := others, lastSpan := t.span }

def sees (t : Terminal) : Parse Bool :=
  Action.read (·.sees t)

/-- Take the next token of the grammar if it is of the given kind. -/
def accept? (t : Terminal) : Parse (Option Token) := do
  if ← sees t then return some (← advance) else return none

/-- Take the next token of the grammar if it is of the given kind, and tell if it was. -/
def accept (t : Terminal) : Parse Bool := do
  return (← accept? t).isSome

def failWith (fault : Fault) : Parse α := fun p =>
  .failed fault { p with log := p.log.record fault }

def fail (cause : Cause) (span : Span) : Parse α :=
  failWith (.reading cause span)

def failExpected (what : String) : Parse α := do
  let token ← Action.read Parser.peek
  fail (.expected what token.describe) token.span

/-- Look for a token of the given kind, discarding at most the given number of others. -/
def seek (t : Terminal) (what : String) : Nat → Parse Token
  | 0 => do if ← sees t then advance else failExpected what
  | limit + 1 => do
    if ← sees t then advance
    else if ← sees .endOfFile then failExpected what
    else
      let _ ← advance
      seek t what limit

def expect (t : Terminal) (what : String) : Parse Token := do
  match ← Action.read (·.matching) with
  | .strict => if ← sees t then advance else failExpected what
  | .lenient limit => seek t what limit

def freshId : Parse NodeId := fun p =>
  .done p.nextId { p with nextId := p.nextId + 1 }

/-- How a round of a repetition ends: another one follows, or there is a result. -/
inductive Round (α β : Type) where
  | again (a : α)
  | stop (b : β)

def repeatRound {γ : Type} (round : α → Parse (Round α β)) : List γ → α → Parse β
  | [], _ => Action.exhaust
  | _ :: bound, a => do
    match ← round a with
    | .again a => repeatRound round bound a
    | .stop b => return b

/-- **Repeat a round until it has a result.** A round that asks for another one takes a token, so there is
at most one round more than there are tokens. -/
def rounds (round : α → Parse (Round α β)) (start : α) : Parse β := fun p =>
  repeatRound round (p.endMark :: p.tokens) start p

/-- **Items with commas between them**, up to a closing token. A comma may stand behind the last item. -/
def separated (item : Parse α) (closer : Terminal) (what : String) : Parse (List α) := do
  let items ← rounds (fun (reversed : List α) => do
    if ← sees closer then return .stop reversed
    let a ← item
    if ← accept (.symbol .comma) then return .again (a :: reversed)
    else return .stop (a :: reversed)) []
  let _ ← expect closer what
  return items.reverse

end Parse

end Trellis
