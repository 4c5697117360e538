import Trellis.Proofs.Layout.Tokens

/-!
# The first token of a layout

Statements stand next to each other without anything between them, so where one ends depends on what the next one
starts with. The *lead* of a tree is the terminal of the first token that its layout writes. It is computed from the
tree alone, by going down on the left until there is a token.

An expression has a lead that an expression can start with (`ExprForm.startsExpression_lead`), and its tokens start
with it (`ExprForm.opens`). Of the keyword of functions the parenthesis behind it is recorded as well.
-/

namespace Trellis

open Token (skip next)

mutual

def Expr.lead : Expr → Terminal
  | ⟨_, form⟩ => form.lead

def ExprForm.lead : ExprForm → Terminal
  | .literal value => value.token.terminal
  | .name _ => .name
  | .template _ _ => .text
  | .array _ => .symbol .leftBracket
  | .object _ => .symbol .leftBrace
  | .lambda _ _ => .keyword .fnKw
  | .negate _ => .symbol .minus
  | .arithmetic left _ _ => left.leadOperand 5
  | .compare left _ _ => left.leadOperand 3
  | .equal left _ _ => left.leadOperand 4
  | .assign target _ => target.leadOperand 6
  | .conditional condition _ _ => condition.leadOperand 2
  | .range first _ => first.leadOperand 6
  | .call callee _ => callee.leadOperand 6
  | .member receiver _ => receiver.leadOperand 6
  | .index receiver _ => receiver.leadOperand 6
  | .switch _ _ => .keyword .switchKw
  | .run _ _ => .keyword .runKw
  | .wait _ => .keyword .waitKw

/-- The terminal that an expression starts with where at least the given strength is asked for. -/
def Expr.leadOperand (least : Nat) : Expr → Terminal
  | ⟨_, form⟩ => if Layout.strength form < least then .symbol .leftParen else form.lead

end

def StmtForm.lead : StmtForm → Terminal
  | .useModule _ _ _ => .keyword .useKw
  | .expose _ => .keyword .exposeKw
  | .declareTask _ _ _ => .keyword .taskKw
  | .declareFunction _ _ _ => .keyword .fnKw
  | .declare _ constant _ => .keyword (if constant then .constKw else .letKw)
  | .branch _ _ _ => .keyword .ifKw
  | .loop _ _ _ _ => .keyword .forKw
  | .give _ => .keyword .returnKw
  | .expression e => e.lead
  | .comment _ => .comment
  | .blankLine => .blankLine

/-- **The terminal that the layout of statements starts with**, comments and blank lines aside. Without
any other statement it is the mark of the end. -/
def Stmt.leadOf : List Stmt → Terminal
  | [] => .endOfFile
  | s :: rest => if s.form.isTrivia then Stmt.leadOf rest else s.form.lead

theorem Expr.lead_eq (e : Expr) : e.lead = e.form.lead := by
  cases e
  rfl

theorem Expr.leadOperand_eq (least : Nat) (e : Expr) :
    e.leadOperand least =
      if Layout.strength e.form < least then .symbol .leftParen else e.lead := by
  cases e
  rfl

/-! ## What a lead can be -/

theorem Literal.startsExpression_token (value : Literal) : Parse.startsExpression value.token.terminal = true := by
  cases value with
  | bool b => cases b <;> rfl
  | _ => rfl

mutual

theorem Expr.startsExpression_lead : (e : Expr) → Parse.startsExpression e.lead = true
  | ⟨_, form⟩ => form.startsExpression_lead

theorem ExprForm.startsExpression_lead : (form : ExprForm) → Parse.startsExpression form.lead = true
  | .literal value => value.startsExpression_token
  | .name _ => rfl
  | .template _ _ => rfl
  | .array _ => rfl
  | .object _ => rfl
  | .lambda _ _ => rfl
  | .negate _ => rfl
  | .arithmetic left _ _ => left.startsExpression_leadOperand 5
  | .compare left _ _ => left.startsExpression_leadOperand 3
  | .equal left _ _ => left.startsExpression_leadOperand 4
  | .assign target _ => target.startsExpression_leadOperand 6
  | .conditional condition _ _ => condition.startsExpression_leadOperand 2
  | .range first _ => first.startsExpression_leadOperand 6
  | .call callee _ => callee.startsExpression_leadOperand 6
  | .member receiver _ => receiver.startsExpression_leadOperand 6
  | .index receiver _ => receiver.startsExpression_leadOperand 6
  | .switch _ _ => rfl
  | .run _ _ => rfl
  | .wait _ => rfl

theorem Expr.startsExpression_leadOperand (least : Nat) :
    (e : Expr) → Parse.startsExpression (e.leadOperand least) = true
  | ⟨_, form⟩ => by
    rw [Expr.leadOperand]
    split
    · rfl
    · exact form.startsExpression_lead

end

/-! ## The first token -/

/-- **Tokens that start with the given terminal.** The keyword of functions has a parenthesis behind it. -/
def Token.Opens (lead : Terminal) (ts : List Token) : Prop :=
  ∃ t rest, ts = t :: rest ∧ t.terminal = lead ∧
    (lead = .keyword .fnKw → ∃ others, rest = .ofSymbol .leftParen :: others)

theorem Token.Opens.append {lead : Terminal} {ts : List Token} (h : Token.Opens lead ts)
    (more : List Token) : Token.Opens lead (ts ++ more) := by
  obtain ⟨t, rest, rfl, ht, hfn⟩ := h
  refine ⟨t, rest ++ more, rfl, ht, fun hlead => ?_⟩
  obtain ⟨others, rfl⟩ := hfn hlead
  exact ⟨others ++ more, rfl⟩

theorem Token.Opens.of_cons {lead : Terminal} {t : Token} {rest : List Token} (ht : t.terminal = lead)
    (hfn : lead ≠ .keyword .fnKw) : Token.Opens lead (t :: rest) :=
  ⟨t, rest, rfl, ht, fun h => absurd h hfn⟩

theorem Literal.token_ne_fn (value : Literal) : value.token.terminal ≠ .keyword .fnKw := by
  cases value with
  | bool b => cases b <;> exact nofun
  | _ => exact nofun

mutual

theorem Expr.opens (kw : KeywordTable) (b : Blanks) : (e : Expr) → Token.Opens e.lead (e.tokens kw b)
  | ⟨_, form⟩ => form.opens kw b

theorem ExprForm.opens (kw : KeywordTable) (b : Blanks) : (form : ExprForm) → Token.Opens form.lead (form.tokens kw b)
  | .literal value => .of_cons rfl value.token_ne_fn
  | .name _ => .of_cons rfl nofun
  | .template _ _ => .of_cons rfl nofun
  | .array _ => .of_cons rfl nofun
  | .object _ => .of_cons rfl nofun
  | .lambda _ _ => ⟨_, _, rfl, rfl, fun _ => ⟨_, rfl⟩⟩
  | .negate _ => .of_cons rfl nofun
  | .arithmetic left _ _ => (left.opensOperand kw b 5).append _
  | .compare left _ _ => (left.opensOperand kw b 3).append _
  | .equal left _ _ => (left.opensOperand kw b 4).append _
  | .assign target _ => (target.opensOperand kw b 6).append _
  | .conditional condition _ _ => (condition.opensOperand kw b 2).append _
  | .range first _ => (first.opensOperand kw b 6).append _
  | .call callee _ => (callee.opensOperand kw b 6).append _
  | .member receiver _ => (receiver.opensOperand kw b 6).append _
  | .index receiver _ => (receiver.opensOperand kw b 6).append _
  | .switch _ _ => .of_cons rfl nofun
  | .run _ [] => .of_cons rfl nofun
  | .run _ (_ :: _) => .of_cons rfl nofun
  | .wait _ => .of_cons rfl nofun

theorem Expr.opensOperand (kw : KeywordTable) (b : Blanks) (least : Nat) :
    (e : Expr) → Token.Opens (e.leadOperand least) (e.operandTokens kw b least)
  | ⟨_, form⟩ => by
    rw [Expr.leadOperand, Expr.operandTokens, Token.guarded]
    by_cases hweak : Layout.strength form < least
    · rw [if_pos hweak, if_pos (decide_eq_true hweak)]
      exact .of_cons rfl nofun
    · rw [if_neg hweak, if_neg (by simpa using hweak)]
      exact form.opens kw _

end

theorem Expr.next_tokens (kw : KeywordTable) (b : Blanks) (e : Expr) (more : List Token) :
    next (e.tokens kw b ++ more) = e.lead := by
  obtain ⟨t, rest, htokens, ht, _⟩ := e.opens kw b
  have hstarts := e.startsExpression_lead
  rw [htokens, List.cons_append, Token.next_cons_of_not_trivia, ht]
  rw [Token.isTrivia_eq, ht, Bool.or_eq_false_iff]
  constructor <;> cases hlead : e.lead <;> first | rfl | (rw [hlead] at hstarts; cases hstarts)

theorem StmtForm.exists_tokens (kw : KeywordTable) (b : Blanks) (form : StmtForm) :
    ∃ t rest, form.tokens kw b = t :: rest ∧ t.terminal = form.lead := by
  cases form with
  | expression e =>
    obtain ⟨t, rest, htokens, ht, _⟩ := e.opens kw b
    refine ⟨t, rest, ?_, ht⟩
    rw [StmtForm.tokens, htokens]
  | branch _ _ alternate => cases alternate <;> exact ⟨_, _, rfl, rfl⟩
  | give value => cases value <;> exact ⟨_, _, rfl, rfl⟩
  | _ => exact ⟨_, _, rfl, rfl⟩

theorem StmtForm.isTrivia_eq (form : StmtForm) :
    form.isTrivia = (form.lead == .comment || form.lead == .blankLine) := by
  cases form with
  | expression e =>
    have hstarts := e.startsExpression_lead
    cases hlead : e.lead <;> rw [StmtForm.lead, hlead] <;> first | rfl | (rw [hlead] at hstarts; cases hstarts)
  | declare _ constant _ => cases constant <;> rfl
  | _ => rfl

theorem StmtForm.next_tokens (kw : KeywordTable) (b : Blanks) {form : StmtForm}
    (h : form.isTrivia = false) (more : List Token) :
    next (form.tokens kw b ++ more) = form.lead := by
  obtain ⟨t, rest, htokens, ht⟩ := form.exists_tokens kw b
  rw [htokens, List.cons_append, Token.next_cons_of_not_trivia, ht]
  rw [Token.isTrivia_eq, ht, ← StmtForm.isTrivia_eq, h]

theorem StmtForm.skip_tokens_of_trivia (kw : KeywordTable) (b : Blanks) {form : StmtForm}
    (h : form.isTrivia = true) (more : List Token) :
    skip (form.tokens kw b ++ more) = skip more := by
  cases form with
  | comment _ => exact Token.skip_cons_of_trivia rfl more
  | blankLine => exact Token.skip_cons_of_trivia rfl more
  | _ => cases h

theorem Stmt.next_tokensOf_of_trivia (kw : KeywordTable) (b : Blanks) {body : List Stmt}
    (h : body.all (·.form.isTrivia) = true) (more : List Token) :
    next (Stmt.tokensOf kw b body ++ more) = next more := by
  induction body with
  | nil => rfl
  | cons s rest ih =>
    rw [List.all_cons, Bool.and_eq_true] at h
    rw [Stmt.tokensOf_cons]
    split
    · exact ih h.2
    · rw [List.append_assoc, Stmt.tokens_eq, next, StmtForm.skip_tokens_of_trivia kw b h.1, ← next, ih h.2]

theorem Stmt.next_tokensOf (kw : KeywordTable) (b : Blanks) {body : List Stmt}
    (h : body.all (·.form.isTrivia) = false) (more : List Token) :
    next (Stmt.tokensOf kw b body ++ more) = Stmt.leadOf body := by
  induction body with
  | nil => cases h
  | cons s rest ih =>
    rw [Stmt.tokensOf_cons, Stmt.leadOf]
    cases htrivia : s.form.isTrivia with
    | true =>
      rw [List.all_cons, htrivia, Bool.true_and] at h
      split
      · exact ih h
      · rw [List.append_assoc, Stmt.tokens_eq, next, StmtForm.skip_tokens_of_trivia kw b htrivia, ← next, ih h]
        rfl
    | false =>
      have hblank : s.form.isBlankLine = false := by
        cases hb : s.form.isBlankLine with
        | false => rfl
        | true => rw [StmtForm.isTrivia_of_isBlankLine hb] at htrivia; cases htrivia
      rw [hblank, Bool.false_and, if_neg Bool.false_ne_true, if_neg Bool.false_ne_true,
        List.append_assoc, Stmt.tokens_eq]
      exact StmtForm.next_tokens kw b htrivia _

end Trellis
