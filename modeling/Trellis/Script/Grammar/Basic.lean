import Trellis.Script.Parser

/-!
# The rules of the grammar

The grammar is recursive: expressions hold blocks, blocks hold statements, and statements hold
expressions. Each production is written as a plain function of the rules it may go back to, and the knot
is tied once, by a recursion on a depth. So a property of the grammar is proved production by production,
assuming it of the rules.

Every production takes a token before it goes back to a rule. The tokens that are left therefore bound the
depth.
-/

namespace Trellis

structure Rules where
  expression : Parse Expr
  /-- What stands behind an operator of comparison. -/
  comparison : Parse Expr
  /-- What stands behind an operator of equality. -/
  equality : Parse Expr
  /-- What stands behind an operator of arithmetic. -/
  sum : Parse Expr
  /-- An expression without operators in the middle. -/
  operand : Parse Expr
  statement : Parse Stmt
  branch : Parse Stmt

namespace Parse

def ident (what : String) : Parse Ident := do
  let token ← expect .name what
  return ⟨token.lexeme, token.span⟩

/-- The name of a property, which may be the spelling of a keyword. -/
def propertyName : Parse Ident := do
  let token ← Action.read Parser.peek
  if token.terminal == .name || token.kind.isKeyword then
    let token ← advance
    return ⟨token.lexeme, token.span⟩
  else failExpected "property name"

def params : Parse (List Ident) := do
  if ← accept (.symbol .leftParen) then
    separated (ident "parameter name") (.symbol .rightParen) "')' after parameters"
  else return []

def statementOf (form : StmtForm) (span : Span) : Parse Stmt := do
  return ⟨← freshId, span, form⟩

def blockUntil (r : Rules) (terminators : List Terminal) : Parse Block := do
  let id ← freshId
  let span ← Action.read (·.lastSpan)
  let reversed ← rounds (fun (reversed : List Stmt) => do
    let front ← Action.read Parser.front
    if front.isEnd || terminators.contains front.terminal then return .stop reversed
    return .again ((← r.statement) :: reversed)) []
  return ⟨id, span, reversed.reverse⟩

def blockToEnd (r : Rules) (what : String) : Parse Block := do
  let block ← blockUntil r [.keyword .endKw]
  let _ ← expect (.keyword .endKw) what
  return block

end Parse

end Trellis
