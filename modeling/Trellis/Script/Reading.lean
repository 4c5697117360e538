import Trellis.Script.Grammar.Statement

/-!
# Reading scripts

Here the rules of the grammar are tied together, and whole scripts are read. The depth to which the rules
go back to each other is bounded by the *weight* of the tokens: a token counts one, and a text counts its
characters besides, since it may hold scripts of its own in its slots.
-/

namespace Trellis

/-- **The rules of the grammar**, which go back to each other to the given depth at most. -/
def Rules.ofDepth : Nat → Rules
  | 0 =>
    { expression := Action.exhaust
      comparison := Action.exhaust
      equality := Action.exhaust
      sum := Action.exhaust
      operand := Action.exhaust
      statement := Action.exhaust
      branch := Action.exhaust }
  | depth + 1 =>
    { expression := fun p => Parse.expression (ofDepth depth) p
      comparison := fun p => Parse.comparison (ofDepth depth) p
      equality := fun p => Parse.equality (ofDepth depth) p
      sum := fun p => Parse.sum (ofDepth depth) p
      operand := fun p => Parse.operand (ofDepth depth) p
      statement := fun p => Parse.statement (ofDepth depth) p
      branch := fun p => Parse.branch (ofDepth depth) p }

def Token.weight (t : Token) : Nat :=
  match t.kind with
  | .text s => 1 + s.length
  | _ => 1

namespace Parser

def weight (p : Parser) : Nat :=
  p.tokens.foldr (fun t n => t.weight + n) 0

def rules (p : Parser) : Rules :=
  Rules.ofDepth (p.weight + 1)

end Parser

namespace Parse

def program (r : Rules) : Parse Program := do
  let id ← freshId
  let reversed ← rounds (fun (reversed : List Stmt) => do
    if (← Action.read Parser.front).isEnd then return .stop reversed
    return .again ((← r.statement) :: reversed)) []
  return ⟨id, reversed.reverse⟩

end Parse

namespace Parser

/-- **Read a program** out of the tokens that are left. If it fails, the rest of the tokens stays. -/
def readProgram : Parse Program := fun p =>
  match Parse.program p.rules { p with log := {} } with
  | .done program q => .done program q
  | .failed fault q => .failed (q.log.surface fault) { q with log := {} }
  | .exhausted => .exhausted

/-- **Read an expression** that takes up the tokens that are left. -/
def readExpression : Parse Expr := fun p =>
  Parse.wholeExpression p.rules.expression p

end Parser

def Scanned.fault? (s : Scanned) : Option Fault :=
  s.faults.head?.map fun f => .reading (.scan f.fault) f.span

/-- **Read a script.** A fault of scanning comes before one of the grammar. -/
def readScript (keywords : KeywordTable) (matching : MatchMode) (source : String) : Outcome Parser Program :=
  let scanned := scan keywords source
  let parser := { Parser.ofTokens scanned.tokens with keywords, matching }
  match scanned.fault? with
  | some fault => .failed fault parser
  | none => parser.readProgram

end Trellis
