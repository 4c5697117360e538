import Trellis.Script.Grammar.Expression

/-!
# The grammar of statements

The token that a statement starts with decides of which kind it is. Nothing separates statements from
each other: a statement ends where the next token cannot go on with it. Comments and blank lines are
statements of their own.
-/

namespace Trellis

namespace Parse

def pick : Parse Pick := do
  let name ← ident "name to pick"
  if ← accept (.keyword .asKw) then
    return ⟨name, some (← ident "alias after 'as'")⟩
  else return ⟨name, none⟩

def picks : Parse (List Pick) := do
  if ← accept (.keyword .pickKw) then
    let _ ← expect (.symbol .leftParen) "'(' after 'pick'"
    separated pick (.symbol .rightParen) "')' to close pick list"
  else return []

def useModule : Parse Stmt := do
  let span := (← advance).span
  match (← Action.read Parser.peek).kind with
  | .text source =>
    let _ ← advance
    let called ←
      if ← accept (.keyword .asKw) then do
        let name ← ident "namespace name after 'as'"
        pure (some name)
      else pure none
    let picked ← picks
    statementOf (.useModule source called picked) span
  | _ => failExpected "module path string after 'use'"

def expose (r : Rules) : Parse Stmt := do
  let span := (← advance).span
  let inner ← r.statement
  if inner.form.declaredName?.isSome then statementOf (.expose inner) span
  else fail .notExposable inner.span

/-- The name, the parameters and the body of a function, behind the keyword. -/
def function (r : Rules) : Parse (Ident × List Ident × Block) := do
  let _ ← advance
  let name ← ident "function name"
  let ps ← params
  let _ ← expect (.symbol .colon) "':' before function body"
  let body ← blockToEnd r "'end' to close function"
  return (name, ps, body)

def declareTask (r : Rules) : Parse Stmt := do
  let span := (← advance).span
  if ← sees (.keyword .fnKw) then
    let (name, ps, body) ← function r
    statementOf (.declareTask name ps body) span
  else failExpected "'fn' after 'task'"

def declareFunction (r : Rules) : Parse Stmt := do
  let span := (← Action.read Parser.peek).span
  let (name, ps, body) ← function r
  statementOf (.declareFunction name ps body) span

def declare (r : Rules) : Parse Stmt := do
  let keyword ← advance
  let name ← ident "variable name"
  let _ ← expect (.symbol .assign) "'=' after variable name"
  let value ← expression r
  statementOf (.declare name (keyword.terminal == .keyword .constKw) value) keyword.span

/-- What is done when a condition does not hold. A branch there owns the end of the whole chain. -/
def alternate (r : Rules) : Parse Alternate := do
  if ← sees (.keyword .ifKw) then return .branch (← r.branch)
  else
    let _ ← accept (.symbol .colon)
    return .block (← blockToEnd r "'end' to close if")

def branch (r : Rules) : Parse Stmt := do
  let span := (← advance).span
  let condition ← expression r
  let _ ← expect (.symbol .colon) "':' after if condition"
  let consequent ← blockUntil r [.keyword .endKw, .keyword .elseKw]
  if ← accept (.keyword .elseKw) then
    let other ← alternate r
    statementOf (.branch condition consequent (some other)) span
  else
    let _ ← expect (.keyword .endKw) "'end' to close if"
    statementOf (.branch condition consequent none) span

def loop (r : Rules) : Parse Stmt := do
  let span := (← advance).span
  let key ← ident "loop variable"
  let value ←
    if ← accept (.symbol .comma) then do
      let name ← ident "second loop variable"
      pure (some name)
    else pure none
  let _ ← expect (.keyword .inKw) "'in' after loop variables"
  let iterated ← expression r
  let _ ← expect (.symbol .colon) "':' before loop body"
  let body ← blockToEnd r "'end' to close for"
  statementOf (.loop key value iterated body) span

def startsExpression : Terminal → Bool
  | .number => true
  | .text => true
  | .name => true
  | .keyword .trueKw => true
  | .keyword .falseKw => true
  | .keyword .nilKw => true
  | .keyword .nanKw => true
  | .symbol .leftParen => true
  | .symbol .leftBrace => true
  | .symbol .leftBracket => true
  | .symbol .minus => true
  | .keyword .fnKw => true
  | .keyword .runKw => true
  | .keyword .waitKw => true
  | .keyword .switchKw => true
  | _ => false

def give (r : Rules) : Parse Stmt := do
  let span := (← advance).span
  if startsExpression (← Action.read Parser.peek).terminal then
    let value ← expression r
    statementOf (.give (some value)) span
  else statementOf (.give none) span

def expressionStatement (r : Rules) : Parse Stmt := do
  let span := (← Action.read Parser.peek).span
  let e ← expression r
  statementOf (.expression e) span

def properStatement (r : Rules) : Parse Stmt := do
  match (← Action.read Parser.peek).terminal with
  | .keyword .useKw => useModule
  | .keyword .exposeKw => expose r
  | .keyword .taskKw => declareTask r
  | .keyword .letKw => declare r
  | .keyword .constKw => declare r
  | .keyword .fnKw =>
    if (← Action.read Parser.peekSecond).terminal == .name then declareFunction r
    else expressionStatement r
  | .keyword .ifKw => branch r
  | .keyword .forKw => loop r
  | .keyword .returnKw => give r
  | _ => expressionStatement r

def dropFront : Parse Unit :=
  Action.change fun p => { p with tokens := p.tokens.drop 1 }

def statement (r : Rules) : Parse Stmt := do
  let front ← Action.read Parser.front
  match front.kind with
  | .comment =>
    dropFront
    statementOf (.comment front.lexeme) front.span
  | .blankLine =>
    dropFront
    statementOf .blankLine front.span
  | _ => properStatement r

end Parse

end Trellis
