import Trellis.Proofs.Grammar.Levels
import Trellis.Proofs.Script.Bare

/-!
# What productions look at

A production looks at the next token, at the one behind it, or at the very first one with comments and blank lines
included, and goes on as the token says. Here is what the parts of productions have in common, whichever way the
productions are followed later: what the token is that is looked at, and which pieces they are put together from.
-/

namespace Trellis

open Token (skip next)

theorem Expr.bare_mk (b : Blanks) (span : Span) (form : ExprForm) :
    Expr.bare b ⟨span, form⟩ = ⟨{}, form.bare b⟩ := rfl

theorem ExprForm.isCall_bare (b : Blanks) (form : ExprForm) : (form.bare b).isCall = form.isCall := by
  cases form <;> rfl

theorem ExprForm.isTarget_bare (b : Blanks) (form : ExprForm) : (form.bare b).isTarget = form.isTarget := by
  cases form <;> rfl

@[simp] theorem Expr.bareOperand_all (least : Nat) (e : Expr) : e.bareOperand .all least = e.bare .all := by
  rw [Expr.bareOperand_eq, Blanks.under_all]

def TokenKind.literal? : TokenKind → Option Literal
  | .number x => some (.number x)
  | .text s => if Template.isTemplate s then none else some (.text s)
  | .keyword .trueKw => some (.bool true)
  | .keyword .falseKw => some (.bool false)
  | .keyword .nilKw => some .nil
  | .keyword .nanKw => some .nan
  | _ => none

theorem Token.terminal_of_peek {ts rest : List Token} {t u : Token} (h : skip ts = t :: rest)
    (hu : u.bare = Token.peek ts) : u.terminal = t.terminal := by
  rw [Token.terminal_of_bare hu, Token.peek_of_skip h]

theorem Token.isEnd_of_kind {t : Token} {kind : TokenKind} (h : t.kind = kind)
    (hne : kind.terminal ≠ .endOfFile) : t.isEnd = false :=
  Token.isEnd_of_terminal (congrArg TokenKind.terminal h) hne

def Parse.caseRest (r : Rules) (span : Span) (test : Option Expr) : Parse Case := do
  let _ ← Parse.expect (.symbol .colon) "':' after case"
  let body ← Parse.blockUntil r
    [.keyword .breakKw, .keyword .caseKw, .keyword .defaultKw, .keyword .endKw]
  if body.endsInGive then
    let _ ← Parse.accept (.keyword .breakKw)
    return ⟨span, test, body⟩
  else
    let _ ← Parse.expect (.keyword .breakKw) "'break' at end of case"
    return ⟨span, test, body⟩

/-- What a loop reads behind its variables. -/
def Parse.loopRest (r : Rules) (key : Ident) (value : Option Ident) (span : Span) : Parse Stmt := do
  let _ ← Parse.expect (.keyword .inKw) "'in' after loop variables"
  let iterated ← Parse.expression r
  let _ ← Parse.expect (.symbol .colon) "':' before loop body"
  let body ← Parse.blockToEnd r "'end' to close for"
  Parse.statementOf (.loop key value iterated body) span

def Parse.accessRound (r : Rules) (e : Expr) : Parse (Parse.Round Expr Expr) := do
  match ← Parse.access? r e with
  | some e => return .again e
  | none => return .stop e

theorem Parse.operand_eq (r : Rules) :
    Parse.operand r = (do
      let e ← Parse.primary r
      Parse.rounds (Parse.accessRound r) e) := rfl

namespace Token

def head (ts : List Token) : Terminal :=
  (ts.head?.getD endOfFile).terminal

def stops (terminators : List Terminal) (ts : List Token) : Bool :=
  head ts == .endOfFile || terminators.contains (head ts)

@[simp] theorem head_cons (t : Token) (ts : List Token) : head (t :: ts) = t.terminal := rfl

theorem head_of_skip {ts : List Token} (h : skip ts = ts) : head ts ≠ .comment ∧ head ts ≠ .blankLine := by
  cases ts with
  | nil => exact ⟨nofun, nofun⟩
  | cons t rest =>
    have ht : t.isTrivia = false := not_trivia_of_skip h
    rw [isTrivia_eq, Bool.or_eq_false_iff, beq_eq_false_iff_ne, beq_eq_false_iff_ne] at ht
    exact ht

end Token

theorem Parser.Holds.peekSecond {d : Dialect} {p : Parser} {ts rest : List Token} {t : Token}
    (hp : p.Holds d ts) (h : skip ts = t :: rest) : p.peekSecond.terminal = Token.next rest := by
  rw [← hp.tokens, Token.skip_map_bare] at h
  obtain ⟨u, others, hskip, _, rfl⟩ := List.map_eq_cons_iff.mp h
  have hdrop : p.tokens.dropWhile (·.isTrivia) = u :: others := hskip
  rw [Parser.peekSecond, hdrop]
  simp only [Token.find?_not_trivia]
  rw [Token.next, Token.skip_map_bare]
  cases skip others <;> rfl

@[simp] theorem Stmt.bare_form (b : Blanks) (s : Stmt) : (s.bare b).form = s.form.bare b := by
  cases s
  rfl

theorem StmtForm.isSome_declaredName?_bare (b : Blanks) (form : StmtForm) :
    (form.bare b).declaredName?.isSome = form.declaredName?.isSome := by
  cases form with
  | branch _ _ alternate => cases alternate <;> rfl
  | give value => cases value <;> rfl
  | _ => rfl

theorem Gives.peekSecond {β : Type} {d : Dialect} {ts ts₁ rest : List Token} {t : Token} {f : Token → Parse β}
    {Q : β → Prop} (h : skip ts = t :: ts₁)
    (hf : ∀ u : Token, u.terminal = next ts₁ → Gives d (f u) ts Q rest) :
    Gives d (Action.read Parser.peekSecond >>= f) ts Q rest :=
  fun p hp => hf p.peekSecond (hp.peekSecond h) p hp

end Trellis
