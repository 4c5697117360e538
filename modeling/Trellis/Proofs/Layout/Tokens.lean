import Trellis.Proofs.Script.Bare
import Trellis.Proofs.Token.Bare

/-!
# The tokens of a layout

The layout of a tree is a text. Between the tree and the text stand the tokens that the text is made of,
and they are all that matters when the text is read again. `Expr.tokens` and its companions give them
directly, without a text: they follow the layout form by form, with a token for every word and symbol that
it writes and nothing for blanks, line ends and indentation.

A blank line is a token only outside brackets, so the tokens depend on which blank lines are kept, just as
the bare tree does.
-/

namespace Trellis

def Arithmetic.sign : Arithmetic → Symbol
  | .add => .plus
  | .subtract => .minus
  | .multiply => .star
  | .divide => .slash
  | .remainder => .percent

def Comparison.sign : Comparison → Symbol
  | .less => .less
  | .lessEqual => .lessEqual
  | .greater => .greater
  | .greaterEqual => .greaterEqual

def equalSign (negated : Bool) : Symbol :=
  if negated then .notEqual else .equal

theorem Arithmetic.text_sign (o : Arithmetic) : o.sign.text = o.symbol := by
  cases o <;> rfl

theorem Comparison.text_sign (o : Comparison) : o.sign.text = o.symbol := by
  cases o <;> rfl

def Literal.token : Literal → Token
  | .number x => .ofNumber x
  | .text s => .ofText s
  | .bool b => .ofKeyword (if b then .trueKw else .falseKw)
  | .nil => .ofKeyword .nilKw
  | .nan => .ofKeyword .nanKw

def Ident.tokensOf (params : List Ident) : List Token :=
  Token.listed (params.map fun i => [.ofName i.name])

def Ident.calledTokens : Option Ident → List Token
  | some other => [.ofKeyword .asKw, .ofName other.name]
  | none => []

def Pick.tokens (p : Pick) : List Token :=
  .ofName p.name.name :: Ident.calledTokens p.called

def Pick.tokensOf (picks : List Pick) : List Token :=
  if picks.isEmpty then []
  else .ofKeyword .pickKw :: .ofSymbol .leftParen ::
    (Token.listed (picks.map Pick.tokens) ++ [.ofSymbol .rightParen])

def Token.guarded (bracketed : Bool) (ts : List Token) : List Token :=
  if bracketed then .ofSymbol .leftParen :: (ts ++ [.ofSymbol .rightParen]) else ts

mutual

def Expr.tokens (kw : KeywordTable) (b : Blanks) : Expr → List Token
  | ⟨_, form⟩ => form.tokens kw b

def ExprForm.tokens (kw : KeywordTable) (b : Blanks) : ExprForm → List Token
  | .literal value => [value.token]
  | .name name => [.ofName name]
  | .template raw _ => [.ofText raw]
  | .array elements =>
    .ofSymbol .leftBracket ::
      (Token.listed (Expr.tokensOf kw b.within elements) ++ [.ofSymbol .rightBracket])
  | .object properties =>
    .ofSymbol .leftBrace ::
      (Token.listed (Property.tokensOf kw b.within properties) ++ [.ofSymbol .rightBrace])
  | .lambda params body =>
    .ofKeyword .fnKw :: .ofSymbol .leftParen ::
      (Ident.tokensOf params ++ .ofSymbol .rightParen :: .ofSymbol .colon ::
        (body.tokens kw b ++ [.ofKeyword .endKw]))
  | .negate operand => .ofSymbol .minus :: operand.operandTokens kw b 6
  | .arithmetic left operator right =>
    left.operandTokens kw b 5 ++ .ofSymbol operator.sign :: right.operandTokens kw b 4
  | .compare left operator right =>
    left.operandTokens kw b 3 ++ .ofSymbol operator.sign :: right.operandTokens kw b 2
  | .equal left negated right =>
    left.operandTokens kw b 4 ++ .ofSymbol (equalSign negated) :: right.operandTokens kw b 3
  | .assign target value =>
    target.operandTokens kw b 6 ++ .ofSymbol .assign :: value.tokens kw b
  | .conditional condition consequent alternate =>
    condition.operandTokens kw b 2 ++ .ofSymbol .question ::
      (consequent.tokens kw b ++ .ofSymbol .colon :: alternate.tokens kw b)
  | .range first last =>
    first.operandTokens kw b 6 ++ .ofSymbol .dotDot :: last.operandTokens kw b 6
  | .call callee arguments =>
    callee.operandTokens kw b 6 ++ .ofSymbol .leftParen ::
      (Token.listed (Expr.tokensOf kw b.within arguments) ++ [.ofSymbol .rightParen])
  | .member receiver key =>
    receiver.operandTokens kw b 6 ++ [.ofSymbol .dot, .ofWord kw key.name]
  | .index receiver key =>
    receiver.operandTokens kw b 6 ++ .ofSymbol .leftBracket ::
      (key.tokens kw b.within ++ [.ofSymbol .rightBracket])
  | .switch subject cases =>
    .ofKeyword .switchKw :: (subject.tokens kw b ++ .ofSymbol .colon ::
      (Case.tokensOf kw b cases ++ [.ofKeyword .endKw]))
  | .run call [] => .ofKeyword .runKw :: call.tokens kw b
  | .run call (first :: rest) =>
    .ofKeyword .runKw :: (call.tokens kw b ++
      (first.tokens kw b ++ (Continuation.tokensOf kw b rest ++ [.ofKeyword .endKw])))
  | .wait awaited => .ofKeyword .waitKw :: awaited.operandTokens kw b 6

def Expr.operandTokens (kw : KeywordTable) (b : Blanks) (least : Nat) : Expr → List Token
  | ⟨_, form⟩ =>
    Token.guarded (Layout.strength form < least)
      (form.tokens kw (b.under (Layout.strength form < least)))

def Expr.tokensOf (kw : KeywordTable) (b : Blanks) : List Expr → List (List Token)
  | [] => []
  | e :: rest => e.tokens kw b :: Expr.tokensOf kw b rest

def Property.tokensOf (kw : KeywordTable) (b : Blanks) : List Property → List (List Token)
  | [] => []
  | ⟨key, short, value⟩ :: rest =>
    (if short then [.ofName key]
      else .ofKey kw key :: .ofSymbol .colon :: value.tokens kw b) ::
      Property.tokensOf kw b rest

def Case.tokensOf (kw : KeywordTable) (b : Blanks) : List Case → List Token
  | [] => []
  | ⟨_, none, body⟩ :: rest =>
    .ofKeyword .defaultKw :: .ofSymbol .colon ::
      (body.caseTokens kw b ++ Case.tokensOf kw b rest)
  | ⟨_, some test, body⟩ :: rest =>
    .ofKeyword .caseKw :: (test.tokens kw b ++ .ofSymbol .colon ::
      (body.caseTokens kw b ++ Case.tokensOf kw b rest))

def Block.caseTokens (kw : KeywordTable) (b : Blanks) : Block → List Token
  | ⟨id, span, body⟩ =>
    Stmt.tokensOf kw b body ++
      if Block.endsInGive ⟨id, span, body⟩ then [] else [.ofKeyword .breakKw]

def Continuation.tokens (kw : KeywordTable) (b : Blanks) : Continuation → List Token
  | ⟨_, params, body⟩ =>
    .ofKeyword .toKw :: .ofSymbol .leftParen ::
      (Ident.tokensOf params ++ .ofSymbol .rightParen :: .ofSymbol .colon :: body.tokens kw b)

def Continuation.tokensOf (kw : KeywordTable) (b : Blanks) : List Continuation → List Token
  | [] => []
  | c :: rest => c.tokens kw b ++ Continuation.tokensOf kw b rest

def Block.tokens (kw : KeywordTable) (b : Blanks) : Block → List Token
  | ⟨_, _, body⟩ => Stmt.tokensOf kw b body

def Stmt.tokensOf (kw : KeywordTable) (b : Blanks) : List Stmt → List Token
  | [] => []
  | ⟨_, _, form⟩ :: rest =>
    if form.isBlankLine && !b.keeps then Stmt.tokensOf kw b rest
    else form.tokens kw b ++ Stmt.tokensOf kw b rest

def Stmt.tokens (kw : KeywordTable) (b : Blanks) : Stmt → List Token
  | ⟨_, _, form⟩ => form.tokens kw b

def StmtForm.tokens (kw : KeywordTable) (b : Blanks) : StmtForm → List Token
  | .useModule source called picks =>
    .ofKeyword .useKw :: .ofText source :: (Ident.calledTokens called ++ Pick.tokensOf picks)
  | .expose declaration => .ofKeyword .exposeKw :: declaration.tokens kw b
  | .declareTask name params body =>
    .ofKeyword .taskKw :: .ofKeyword .fnKw :: .ofName name.name :: .ofSymbol .leftParen ::
      (Ident.tokensOf params ++ .ofSymbol .rightParen :: .ofSymbol .colon ::
        (body.tokens kw b ++ [.ofKeyword .endKw]))
  | .declareFunction name params body =>
    .ofKeyword .fnKw :: .ofName name.name :: .ofSymbol .leftParen ::
      (Ident.tokensOf params ++ .ofSymbol .rightParen :: .ofSymbol .colon ::
        (body.tokens kw b ++ [.ofKeyword .endKw]))
  | .declare name constant value =>
    .ofKeyword (if constant then .constKw else .letKw) :: .ofName name.name ::
      .ofSymbol .assign :: value.tokens kw b
  | .branch condition consequent none =>
    .ofKeyword .ifKw :: (condition.tokens kw b ++ .ofSymbol .colon ::
      (consequent.tokens kw b ++ [.ofKeyword .endKw]))
  | .branch condition consequent (some alternate) =>
    .ofKeyword .ifKw :: (condition.tokens kw b ++ .ofSymbol .colon ::
      (consequent.tokens kw b ++ alternate.tokens kw b))
  | .loop key value iterated body =>
    .ofKeyword .forKw :: .ofName key.name ::
      (((value.map fun v => [.ofSymbol .comma, .ofName v.name]).getD []) ++
        .ofKeyword .inKw :: (iterated.tokens kw b ++ .ofSymbol .colon ::
          (body.tokens kw b ++ [.ofKeyword .endKw])))
  | .give none => [.ofKeyword .returnKw]
  | .give (some value) => .ofKeyword .returnKw :: value.tokens kw b
  | .expression e => e.tokens kw b
  | .comment text => [.ofComment text]
  | .blankLine => [.blankLine]

def Alternate.tokens (kw : KeywordTable) (b : Blanks) : Alternate → List Token
  | .block body =>
    .ofKeyword .elseKw :: .ofSymbol .colon :: (body.tokens kw b ++ [.ofKeyword .endKw])
  | .branch s => .ofKeyword .elseKw :: s.tokens kw b

end

def Program.tokens (kw : KeywordTable) (p : Program) : List Token :=
  Stmt.tokensOf kw .outside p.body ++ [.endOfFile]

section

variable (kw : KeywordTable) (b : Blanks)

theorem Expr.tokens_eq (e : Expr) : e.tokens kw b = e.form.tokens kw b := by
  cases e
  rfl

theorem Expr.operandTokens_eq (least : Nat) (e : Expr) :
    e.operandTokens kw b least =
      Token.guarded (Layout.strength e.form < least)
        (e.tokens kw (b.under (Layout.strength e.form < least))) := by
  cases e
  rfl

theorem Block.tokens_eq (block : Block) : block.tokens kw b = Stmt.tokensOf kw b block.body := by
  cases block
  rfl

theorem Block.caseTokens_eq (block : Block) :
    block.caseTokens kw b =
      block.tokens kw b ++ if block.endsInGive then [] else [.ofKeyword .breakKw] := by
  cases block
  rfl

theorem Stmt.tokens_eq (s : Stmt) : s.tokens kw b = s.form.tokens kw b := by
  cases s
  rfl

theorem Stmt.tokensOf_cons (s : Stmt) (rest : List Stmt) :
    Stmt.tokensOf kw b (s :: rest) =
      if s.form.isBlankLine && !b.keeps then Stmt.tokensOf kw b rest
      else s.tokens kw b ++ Stmt.tokensOf kw b rest := by
  cases s
  rfl

theorem Expr.tokensOf_eq (es : List Expr) : Expr.tokensOf kw b es = es.map (·.tokens kw b) :=
  eq_map_of_cons rfl (fun _ _ => rfl) es

def Property.tokens (p : Property) : List Token :=
  if p.short then [.ofName p.key] else .ofKey kw p.key :: .ofSymbol .colon :: p.value.tokens kw b

theorem Property.tokensOf_eq (ps : List Property) : Property.tokensOf kw b ps = ps.map (Property.tokens kw b) :=
  eq_map_of_cons rfl (fun ⟨_, _, _⟩ _ => rfl) ps

def Case.tokens (c : Case) : List Token :=
  (match c.test with
    | none => [.ofKeyword .defaultKw]
    | some test => .ofKeyword .caseKw :: test.tokens kw b) ++
    .ofSymbol .colon :: c.body.caseTokens kw b

theorem Case.tokensOf_cons (c : Case) (rest : List Case) :
    Case.tokensOf kw b (c :: rest) = c.tokens kw b ++ Case.tokensOf kw b rest := by
  obtain ⟨span, test, body⟩ := c
  cases test <;> simp [Case.tokensOf, Case.tokens]

theorem Continuation.tokens_eq (c : Continuation) :
    c.tokens kw b = .ofKeyword .toKw :: .ofSymbol .leftParen :: (Ident.tokensOf c.params ++
      .ofSymbol .rightParen :: .ofSymbol .colon :: c.body.tokens kw b) := by
  cases c
  rfl

theorem ExprForm.tokens_run (call : Expr) (cs : List Continuation) :
    (ExprForm.run call cs).tokens kw b =
      .ofKeyword .runKw :: (call.tokens kw b ++
        if cs.isEmpty then [] else Continuation.tokensOf kw b cs ++ [.ofKeyword .endKw]) := by
  cases cs with
  | nil => simp [ExprForm.tokens]
  | cons c rest => simp [ExprForm.tokens, Continuation.tokensOf]

end

end Trellis
