import Trellis.Script.Grammar.Basic
import Trellis.Script.Template

/-!
# The grammar of expressions

From the loosest to the tightest: conditional expressions, comparison, equality and assignment,
arithmetic, ranges, and operands, which are primary expressions with calls and members behind them. The
operators of a level associate to the right, and those of arithmetic are all on one level.
-/

namespace Trellis

namespace Parse

/-! ## Templates -/

def shiftSpan (text : Span) (offset : Nat) (inner : Span) : Span :=
  ⟨text.line, text.col + offset + inner.col, inner.length⟩

def wholeExpression (expression : Parse Expr) : Parse Expr := fun p =>
  let whole : Parse Expr := do
    let e ← expression
    let _ ← expect .endOfFile "end of expression"
    return e
  match whole { p with log := {} } with
  | .done e q => .done e q
  | .failed fault q => .failed (q.log.surface fault) { q with log := {} }
  | .exhausted => .exhausted

/-- The parser of the tokens in a slot. It goes on with the identities of the outer one. -/
def slotParser (p : Parser) (tokens : List Token) : Parser :=
  { Parser.ofTokens tokens with keywords := p.keywords, matching := p.matching, nextId := p.nextId }

/-- **The expression in a slot.** It is a script of its own, read by a parser of its own. -/
def slot (r : Rules) (text : Span) (source : String) (offset : Nat) : Parse Expr := fun p =>
  let scanned := scan p.keywords source
  match scanned.faults with
  | f :: _ => fail (.scan f.fault) (shiftSpan text offset f.span) p
  | [] =>
    let tokens := scanned.tokens.map fun t => { t with span := shiftSpan text offset t.span }
    match wholeExpression r.expression (slotParser p tokens) with
    | .done e q => .done e { p with nextId := q.nextId }
    | .failed fault q => failWith fault { p with nextId := q.nextId }
    | .exhausted => .exhausted

def templateParts (r : Rules) (text : Span) : List Template.Segment → Parse (List TemplatePart)
  | [] => return []
  | .text s :: rest => do
    let parts ← templateParts r text rest
    return .text s :: parts
  | .slot source offset :: rest => do
    let e ← slot r text source offset
    let parts ← templateParts r text rest
    return .slot e :: parts

def template (r : Rules) (raw : String) (span : Span) : Parse Expr := do
  match Template.split raw with
  | .error .unclosed => fail .openTemplate span
  | .error .blankSlot => fail .emptySlot span
  | .ok segments => return ⟨span, .template raw (← templateParts r span segments)⟩

/-! ## Primary expressions -/

/-- The key of a property, its place, and whether it can stand for its own value. -/
def propertyKey : Parse (Ident × Bool) := do
  let token ← Action.read Parser.peek
  match token.kind with
  | .text s =>
    let token ← advance
    return (⟨s, token.span⟩, false)
  | .name => return (← propertyName, true)
  | _ => return (← propertyName, false)

def property (r : Rules) : Parse Property := do
  let (key, canBeShort) ← propertyKey
  if ← accept (.symbol .colon) then
    return ⟨key.name, false, ← r.expression⟩
  else if canBeShort then
    return ⟨key.name, true, ⟨key.span, .name key.name⟩⟩
  else failExpected "':' after object key"

def object (r : Rules) : Parse Expr := do
  let span := (← advance).span
  let properties ← separated (property r) (.symbol .rightBrace) "'\x7d' to close object"
  return ⟨span, .object properties⟩

def array (r : Rules) : Parse Expr := do
  let span := (← advance).span
  let elements ← separated r.expression (.symbol .rightBracket) "']' to close array"
  return ⟨span, .array elements⟩

def lambda (r : Rules) : Parse Expr := do
  let span := (← advance).span
  let ps ← params
  let _ ← expect (.symbol .colon) "':' before lambda body"
  return ⟨span, .lambda ps (← blockToEnd r "'end' to close lambda")⟩

/-- What is done with the result of a task, if the next token starts that. -/
def continuation? (r : Rules) : Parse (Option Continuation) := do
  match ← accept? (.keyword .toKw) with
  | none => return none
  | some token =>
    let ps ← params
    let _ ← expect (.symbol .colon) "':' before 'to' body"
    let body ← blockUntil r [.keyword .toKw, .keyword .endKw]
    return some ⟨token.span, ps, body⟩

def continuations (r : Rules) : Parse (List Continuation) := do
  if ← sees (.keyword .toKw) then
    let reversed ← rounds (fun (reversed : List Continuation) => do
      match ← continuation? r with
      | some c => return .again (c :: reversed)
      | none => return .stop reversed) []
    let _ ← expect (.keyword .endKw) "'end' to close run"
    return reversed.reverse
  else return []

def run (r : Rules) : Parse Expr := do
  let span := (← advance).span
  let call ← r.operand
  if call.form.isCall then
    return ⟨span, .run call (← continuations r)⟩
  else fail .notRunnable call.span

def wait (r : Rules) : Parse Expr := do
  let span := (← advance).span
  let awaited ← if ← sees (.keyword .runKw) then run r else r.operand
  return ⟨span, .wait awaited⟩

/-- A case of a switch. It ends in a break unless it ends by giving its result. -/
def switchCase (r : Rules) : Parse Case := do
  let token ← advance
  let test ←
    match token.terminal with
    | .keyword .caseKw => do
      let e ← r.expression
      pure (some e)
    | .keyword .defaultKw => pure none
    | _ => fail (.expected "'case' or 'default'" token.describe) token.span
  let _ ← expect (.symbol .colon) "':' after case"
  let body ← blockUntil r
    [.keyword .breakKw, .keyword .caseKw, .keyword .defaultKw, .keyword .endKw]
  if body.endsInGive then
    let _ ← accept (.keyword .breakKw)
    return ⟨token.span, test, body⟩
  else
    let _ ← expect (.keyword .breakKw) "'break' at end of case"
    return ⟨token.span, test, body⟩

def switch (r : Rules) : Parse Expr := do
  let span := (← advance).span
  let subject ← r.expression
  let _ ← expect (.symbol .colon) "':' after switch subject"
  let reversed ← rounds (fun (reversed : List Case) => do
    if ← sees (.keyword .endKw) then return .stop reversed
    return .again ((← switchCase r) :: reversed)) []
  let _ ← expect (.keyword .endKw) "'end' to close switch"
  return ⟨span, .switch subject reversed.reverse⟩

def single (form : ExprForm) : Parse Expr := do
  let token ← advance
  return ⟨token.span, form⟩

def grouped (r : Rules) : Parse Expr := do
  let _ ← advance
  let e ← r.expression
  let _ ← expect (.symbol .rightParen) "')' after expression"
  return e

def negation (r : Rules) : Parse Expr := do
  let span := (← advance).span
  return ⟨span, .negate (← r.operand)⟩

/-- **A primary expression.** The token it starts with decides of which kind it is. -/
def primary (r : Rules) : Parse Expr := do
  let token ← Action.read Parser.peek
  match token.kind with
  | .number x => single (.literal (.number x))
  | .text s =>
    if Template.isTemplate s then
      let _ ← advance
      template r s token.span
    else single (.literal (.text s))
  | .keyword .trueKw => single (.literal (.bool true))
  | .keyword .falseKw => single (.literal (.bool false))
  | .keyword .nilKw => single (.literal .nil)
  | .keyword .nanKw => single (.literal .nan)
  | .name => single (.name token.lexeme)
  | .symbol .minus => negation r
  | .symbol .leftParen => grouped r
  | .symbol .leftBrace => object r
  | .symbol .leftBracket => array r
  | .keyword .fnKw => lambda r
  | .keyword .runKw => run r
  | .keyword .waitKw => wait r
  | .keyword .switchKw => switch r
  | _ => fail (.unexpected token.describe) token.span

/-! ## Operands and operators -/

/-- What may stand behind an operand: a member, an index, or arguments. -/
def access? (r : Rules) (e : Expr) : Parse (Option Expr) := do
  match (← Action.read Parser.peek).terminal with
  | .symbol .dot =>
    let span := (← advance).span
    return some ⟨span, .member e (← propertyName)⟩
  | .symbol .leftBracket =>
    let span := (← advance).span
    let key ← r.expression
    let _ ← expect (.symbol .rightBracket) "']' after index"
    return some ⟨span, .index e key⟩
  | .symbol .leftParen =>
    let span := (← advance).span
    let arguments ← separated r.expression (.symbol .rightParen) "')' after arguments"
    return some ⟨span, .call e arguments⟩
  | _ => return none

/-- **An operand**: a primary expression with members, indices and arguments behind it. -/
def operand (r : Rules) : Parse Expr := do
  rounds (fun (e : Expr) => do
    match ← access? r e with
    | some e => return .again e
    | none => return .stop e) (← primary r)

def range (r : Rules) : Parse Expr := do
  let first ← operand r
  match ← accept? (.symbol .dotDot) with
  | some dots => return ⟨dots.span, .range first (← operand r)⟩
  | none => return first

def arithmetic? : Terminal → Option Arithmetic
  | .symbol .plus => some .add
  | .symbol .minus => some .subtract
  | .symbol .star => some .multiply
  | .symbol .slash => some .divide
  | .symbol .percent => some .remainder
  | _ => none

def sum (r : Rules) : Parse Expr := do
  let left ← range r
  match arithmetic? (← Action.read Parser.peek).terminal with
  | some operator =>
    let span := (← advance).span
    return ⟨span, .arithmetic left operator (← r.sum)⟩
  | none => return left

def equality (r : Rules) : Parse Expr := do
  let left ← sum r
  match (← Action.read Parser.peek).terminal with
  | .symbol .equal =>
    let span := (← advance).span
    return ⟨span, .equal left false (← r.equality)⟩
  | .symbol .notEqual =>
    let span := (← advance).span
    return ⟨span, .equal left true (← r.equality)⟩
  | .symbol .assign =>
    let span := (← advance).span
    let value ← r.expression
    if left.form.isTarget then return ⟨span, .assign left value⟩
    else fail .invalidTarget span
  | _ => return left

def comparison? : Terminal → Option Comparison
  | .symbol .less => some .less
  | .symbol .lessEqual => some .lessEqual
  | .symbol .greater => some .greater
  | .symbol .greaterEqual => some .greaterEqual
  | _ => none

def comparison (r : Rules) : Parse Expr := do
  let left ← equality r
  match comparison? (← Action.read Parser.peek).terminal with
  | some operator =>
    let span := (← advance).span
    return ⟨span, .compare left operator (← r.comparison)⟩
  | none => return left

def expression (r : Rules) : Parse Expr := do
  let condition ← comparison r
  match ← accept? (.symbol .question) with
  | some question =>
    let consequent ← r.expression
    let _ ← expect (.symbol .colon) "':' in ternary expression"
    let alternate ← r.expression
    return ⟨question.span, .conditional condition consequent alternate⟩
  | none => return condition

end Parse

end Trellis
