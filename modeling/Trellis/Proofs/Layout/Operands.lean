import Trellis.Proofs.Grammar.Ends
import Trellis.Proofs.Layout.Plain

/-!
# Reading an expression back

The tokens of the layout of an expression are to be read back as the expression, without its places and with the
blank lines that the layout keeps. What this takes depends on the strength of the expression and on what stands
behind its tokens.

An expression with an operator in the middle is read on the level of its strength, if the next token is looser. One
without is read as an operand, and more accesses may follow it: so it is only said that reading *arrives* behind it
with the right tree (`Arrives`), and that the repetition which reads accesses goes on from there. A prefix form does
not arrive in front of an access, since what stands behind its operand belongs to the operand.

`ExprForm.Restores` puts the cases together. From it follows how an expression is read as an operand of something
else (`ExprForm.Restores.operand`, `ExprForm.Restores.receiver`).
-/

namespace Trellis

open Token (skip next)

/-! ## Tokens that stand in their place -/

namespace Gives

variable {α : Type} {d : Dialect} {rest final : List Token} {t : Token} {Q : α → Prop}

theorem take (ht : t.isTrivia = false) (hend : t.isEnd = false) :
    Gives d Parse.advance (t :: rest) (·.bare = t) rest :=
  .advance (Token.skip_cons_of_not_trivia ht rest) hend

theorem facing {f : Token → Parse α} (ht : t.isTrivia = false)
    (hf : ∀ span, Gives d (f ⟨t.kind, t.lexeme, span⟩) (t :: rest) Q final) :
    Gives d (Action.read Parser.peek >>= f) (t :: rest) Q final := by
  refine .peek fun u hu => ?_
  rw [Token.peek_of_skip (Token.skip_cons_of_not_trivia ht rest)] at hu
  subst hu
  exact hf u.span

theorem symbol (s : Symbol) (what : String) :
    Gives d (Parse.expect (.symbol s) what) (.ofSymbol s :: rest) (fun _ => True) rest :=
  (Gives.expect (Token.skip_cons_of_not_trivia rfl rest) rfl what).imp fun _ _ => trivial

theorem keyword (k : Keyword) (what : String) :
    Gives d (Parse.expect (.keyword k) what) (.ofKeyword k :: rest) (fun _ => True) rest :=
  (Gives.expect (Token.skip_cons_of_not_trivia rfl rest) rfl what).imp fun _ _ => trivial

theorem name (i : Ident) (what : String) :
    Gives d (Parse.ident what) (.ofName i.name :: rest) (·.bare = i.bare) rest := by
  have hname : Gives d (Parse.expect .name what) (.ofName i.name :: rest) (·.bare = .ofName i.name) rest :=
    .expect (Token.skip_cons_of_not_trivia rfl rest) rfl what
  exact .bind_pure hname fun _ hu => congrArg (Ident.mk · {}) (Token.lexeme_of_bare hu)

theorem listed {β γ δ : Type} {item : Parse β} {bare : β → γ} {f : δ → List Token} {g : δ → γ} {l : List δ}
    {s : Symbol} {what : String} (hs : s ≠ .comma)
    (h : ∀ c ∈ l, ∀ more, next more = .symbol .comma ∨ next more = .symbol s →
      next (f c ++ more) ≠ .symbol s ∧ Gives d item (f c ++ more) (bare · = g c) more) :
    Gives d (Parse.separated item (.symbol s) what) (Token.listed (l.map f) ++ .ofSymbol s :: rest)
      (·.map bare = l.map g) rest := by
  have hloops : ∀ read, Loops d (Parse.itemRound item (.symbol s)) read
      (Token.listed (l.map f) ++ .ofSymbol s :: rest)
      (fun all => ∃ bs : List β, all = bs.reverse ++ read ∧ bs.map bare = l.map g) (.ofSymbol s :: rest) := by
    induction l with
    | nil =>
      refine fun read => Loops.stop (.sees ?_)
      have hclose : (next (.ofSymbol s :: rest) == Terminal.symbol s) = true := beq_self_eq_true _
      rw [show Token.listed ([].map f) ++ .ofSymbol s :: rest = .ofSymbol s :: rest from rfl, hclose]
      exact .pure ⟨read, rfl, [], rfl, rfl⟩
    | cons c l ih =>
      obtain ⟨hhere, hothers⟩ := List.forall_mem_cons.mp h
      intro read
      cases l with
      | nil =>
        obtain ⟨hopens, hitem⟩ := hhere (.ofSymbol s :: rest) (.inr rfl)
        refine Loops.stop (.sees ?_)
        rw [show Token.listed ([c].map f) = f c from rfl, beq_eq_false_iff_ne.mpr hopens]
        refine .bind hitem fun b hb => .accept_false (fun hcomma => ?_) ?_
        · injection (show Terminal.symbol s = .symbol .comma from hcomma) with hcomma
          exact hs hcomma
        · exact .pure ⟨b :: read, rfl, [b], rfl, congrArg (· :: []) hb⟩
      | cons c' l =>
        have htokens : Token.listed ((c :: c' :: l).map f) ++ .ofSymbol s :: rest =
            f c ++ .ofSymbol .comma :: (Token.listed ((c' :: l).map f) ++ .ofSymbol s :: rest) := by
          simp [Token.listed]
        rw [htokens]
        obtain ⟨hopens, hitem⟩ := hhere
          (.ofSymbol .comma :: (Token.listed ((c' :: l).map f) ++ .ofSymbol s :: rest)) (.inl rfl)
        refine Loops.again (Q := fun all => ∃ b, all = b :: read ∧ bare b = g c) (.sees ?_)
          (show (Token.listed ((c' :: l).map f) ++ .ofSymbol s :: rest).length < _ from ?_) ?_
        · rw [beq_eq_false_iff_ne.mpr hopens]
          exact .bind hitem fun b hb => .accept_true rfl rfl nofun (.pure ⟨_, rfl, b, rfl, hb⟩)
        · simp only [List.length_append, List.length_cons]
          omega
        · rintro _ ⟨b, rfl, hb⟩ bound hbound
          refine (ih hothers (b :: read) bound hbound).imp ?_
          rintro _ ⟨bs, rfl, hbs⟩
          exact ⟨b :: bs, by simp, by rw [List.map_cons, hb, hbs]; rfl⟩
  rw [Parse.separated_eq]
  refine .bind (hloops []).rounds ?_
  rintro _ ⟨bs, rfl, hbs⟩
  exact .bind_pure (.symbol s what) fun _ _ => by simpa using hbs

end Gives

/-! ## Operands -/

/-- **Reading an operand arrives behind some tokens**, with the given bare tree so far. However the
repetition of accesses goes on from there, reading the operand ends like it. -/
def Arrives (d : Dialect) (ts : List Token) (e : Expr) (rest : List Token) : Prop :=
  ∀ (P : Expr → Prop) (final : List Token),
    (∀ a : Expr, a.bare .all = e → Loops d (Parse.accessRound .tied) a rest P final) →
    Gives d (Parse.operand .tied) ts P final

namespace Arrives

variable {d : Dialect} {ts mid rest : List Token} {e e' : Expr}

theorem of_primary (h : Gives d (Parse.primary .tied) ts (·.bare .all = e) rest) : Arrives d ts e rest := by
  intro P final hloop
  rw [Parse.operand_eq]
  exact .bind h fun a ha => (hloop a ha).rounds

theorem reads (h : Arrives d ts e rest) (hnext : (next rest).bond < 6) :
    Gives d (Parse.level 6 .tied) ts (·.bare .all = e) rest := by
  have hnone (a : Expr) : Gives d (Parse.access? .tied a) rest (· = none) rest := by
    refine .peek fun u hu => ?_
    rw [Token.terminal_of_bare hu, Token.terminal_peek]
    split <;> first | exact .pure rfl | (rename_i heq; exact absurd (heq ▸ hnext) (by decide))
  refine h _ _ fun a ha => Loops.stop (.bind (hnone a) ?_)
  rintro _ rfl
  exact .pure ⟨a, rfl, ha⟩

theorem access (h : Arrives d ts e mid) (hmid : rest.length < mid.length)
    (haccess : ∀ a : Expr, a.bare .all = e →
      Gives d (Parse.access? .tied a) mid (fun o => ∃ a', o = some a' ∧ a'.bare .all = e') rest) :
    Arrives d ts e' rest := by
  refine fun P final hloop => h P final fun a ha =>
    Loops.again (Q := (·.bare .all = e')) (.bind (haccess a ha) ?_) hmid hloop
  rintro _ ⟨a', rfl, ha'⟩
  exact .pure ⟨a', rfl, ha'⟩

end Arrives

/-! ## Restoring a form -/

structure ExprForm.Restored (d : Dialect) (form : ExprForm) (b : Blanks) (rest : List Token) : Prop where
  /-- Without an operator in the middle, reading an operand arrives behind them. -/
  arrives : Layout.strength form = 6 →
    Arrives d (form.tokens d.keywords b ++ rest) ⟨{}, form.bare b⟩ rest
  /-- With one, they are read on the level of their strength. -/
  reads : Layout.strength form < 6 →
    Gives d (Parse.level (Layout.strength form) .tied) (form.tokens d.keywords b ++ rest)
      (·.bare .all = ⟨{}, form.bare b⟩) rest
  runs : form.isRun = true →
    Gives d (Parse.run .tied) (form.tokens d.keywords b ++ rest) (·.bare .all = ⟨{}, form.bare b⟩) rest

/-- What may stand behind the tokens of a form. -/
structure ExprForm.EndsAt (form : ExprForm) (rest : List Token) : Prop where
  bond : form.isPrefix = true ∨ Layout.strength form < 6 →
    (next rest).bond < Layout.strength form
  noTo : form.endsInRun = true → next rest ≠ .keyword .toKw

def ExprForm.Restores (d : Dialect) (form : ExprForm) : Prop :=
  ∀ b rest, form.EndsAt rest → form.Restored d b rest

theorem ExprForm.strength_le (form : ExprForm) : Layout.strength form ≤ 6 := by
  cases form <;> simp [Layout.strength]

theorem ExprForm.strength_pos (form : ExprForm) : 0 < Layout.strength form := by
  cases form <;> simp [Layout.strength]

theorem ExprForm.isRun_of_operator {form : ExprForm} (h : Layout.strength form < 6) : form.isRun = false := by
  cases form <;> first | rfl | exact absurd h (Nat.lt_irrefl 6)

theorem ExprForm.endsInRun_of_not_prefix {form : ExprForm} (hstrength : Layout.strength form = 6)
    (hnoPrefix : form.isPrefix = false) : form.endsInRun = false := by
  cases form with
  | negate _ => cases hnoPrefix
  | run _ _ => cases hnoPrefix
  | wait _ => cases hnoPrefix
  | _ => first | rfl | simp [Layout.strength] at hstrength

theorem Expr.operandTokens_of_strong {kw : KeywordTable} {b : Blanks} {least : Nat} {e : Expr}
    (h : ¬ Layout.strength e.form < least) : e.operandTokens kw b least = e.tokens kw b := by
  rw [Expr.operandTokens_eq, decide_eq_false h]
  rfl

theorem Expr.bareOperand_of_strong {b : Blanks} {least : Nat} {e : Expr}
    (h : ¬ Layout.strength e.form < least) : e.bareOperand b least = e.bare b := by
  rw [Expr.bareOperand_eq, decide_eq_false h]
  rfl

namespace ExprForm.Restored

variable {d : Dialect} {form : ExprForm} {b : Blanks} {rest : List Token}

theorem of_primary (hstrength : Layout.strength form = 6) (hrun : form.isRun = false)
    (h : Gives d (Parse.primary .tied) (form.tokens d.keywords b ++ rest)
      (·.bare .all = ⟨{}, form.bare b⟩) rest) : form.Restored d b rest :=
  ⟨fun _ => .of_primary h, fun hlt => absurd hlt (by omega), fun h => absurd h (by simp [hrun])⟩

theorem of_access (hstrength : Layout.strength form = 6) (hrun : form.isRun = false)
    (h : Arrives d (form.tokens d.keywords b ++ rest) ⟨{}, form.bare b⟩ rest) :
    form.Restored d b rest :=
  ⟨fun _ => h, fun hlt => absurd hlt (by omega), fun h => absurd h (by simp [hrun])⟩

theorem of_operator (hstrength : Layout.strength form < 6)
    (h : Gives d (Parse.level (Layout.strength form) .tied) (form.tokens d.keywords b ++ rest)
      (·.bare .all = ⟨{}, form.bare b⟩) rest) : form.Restored d b rest :=
  ⟨fun heq => absurd heq (by omega), fun _ => h,
    fun h => absurd h (by simp [ExprForm.isRun_of_operator hstrength])⟩

end ExprForm.Restored

namespace ExprForm.Restores

variable {d : Dialect} {e : Expr} {b : Blanks} {rest : List Token} {least : Nat}

variable (h : e.form.Restores d)

include h

theorem level (hleast : least ≤ Layout.strength e.form)
    (hbond : (next rest).bond < least) (hto : e.endsInRun = true → next rest ≠ .keyword .toKw) :
    Gives d (Parse.level least .tied) (e.tokens d.keywords b ++ rest) (·.bare .all = e.bare b) rest := by
  have hbare : e.bare b = ⟨{}, e.form.bare b⟩ := by
    cases e
    rfl
  rw [Expr.endsInRun_eq] at hto
  rw [Expr.tokens_eq, hbare]
  have hle := e.form.strength_le
  have hrestored := h b rest ⟨fun _ => by omega, hto⟩
  by_cases hstrength : Layout.strength e.form = 6
  · exact (hrestored.arrives hstrength |>.reads (by omega)).loosen (by omega) (Nat.le_refl 6) hbond
  · exact (hrestored.reads (by omega)).loosen hleast hle hbond

theorem expression (hbond : (next rest).bond = 0)
    (hto : e.endsInRun = true → next rest ≠ .keyword .toKw) :
    Gives d (Parse.expression .tied) (e.tokens d.keywords b ++ rest) (·.bare .all = e.bare b) rest := by
  show Gives d (Parse.level 1 .tied) _ _ _
  exact h.level e.form.strength_pos (by omega) hto

theorem rule (hbond : (next rest).bond = 0)
    (hto : e.endsInRun = true → next rest ≠ .keyword .toKw) :
    Gives d Rules.tied.expression (e.tokens d.keywords b ++ rest) (·.bare .all = e.bare b) rest := by
  rw [show Rules.tied.expression = _ from Rules.tied_tier .expression]
  exact h.expression hbond hto

theorem guarded (hweak : Layout.strength e.form < least) :
    Gives d (Parse.primary .tied) (e.operandTokens d.keywords b least ++ rest)
      (·.bare .all = e.bareOperand b least) rest := by
  have htokens : e.operandTokens d.keywords b least ++ rest =
      .ofSymbol .leftParen :: (e.tokens d.keywords b.within ++ .ofSymbol .rightParen :: rest) := by
    simp [Expr.operandTokens_eq, hweak, Token.guarded, Blanks.under]
  rw [htokens, Expr.bareOperand_eq, decide_eq_true hweak]
  refine .facing rfl fun _ => .bind (.take rfl rfl) fun _ _ => ?_
  exact .bind (h.rule rfl fun _ => nofun) fun _ he => .bind_pure (.symbol _ _) fun _ _ => he

theorem operand (hleast : least ≤ 6) (hbond : (next rest).bond < least)
    (hto : e.operandEndsInRun least = true → next rest ≠ .keyword .toKw) :
    Gives d (Parse.level least .tied) (e.operandTokens d.keywords b least ++ rest)
      (·.bare .all = e.bareOperand b least) rest := by
  by_cases hweak : Layout.strength e.form < least
  · have harrives : Arrives d (e.operandTokens d.keywords b least ++ rest) (e.bareOperand b least)
      rest := .of_primary (h.guarded hweak)
    exact (harrives.reads (by omega)).loosen hleast (Nat.le_refl 6) hbond
  · rw [Expr.operandEndsInRun_eq, decide_eq_false hweak] at hto
    rw [Expr.operandTokens_of_strong hweak, Expr.bareOperand_of_strong hweak]
    exact h.level (Nat.le_of_not_lt hweak) hbond fun hrun => hto (Expr.endsInRun_eq e ▸ hrun)

theorem receiver (hnoPrefix : e.form.isPrefix = false) :
    Arrives d (e.operandTokens d.keywords b 6 ++ rest) (e.bareOperand b 6) rest := by
  by_cases hweak : Layout.strength e.form < 6
  · exact .of_primary (h.guarded hweak)
  · have hstrength : Layout.strength e.form = 6 := by
      have := e.form.strength_le
      omega
    have hends : e.form.EndsAt rest := by
      refine ⟨fun hor => ?_, fun hrun => ?_⟩
      · rw [hnoPrefix] at hor
        exact absurd hor (by simp [hstrength])
      · rw [ExprForm.endsInRun_of_not_prefix hstrength hnoPrefix] at hrun
        cases hrun
    rw [Expr.operandTokens_of_strong hweak, Expr.bareOperand_of_strong hweak, Expr.tokens_eq]
    cases e
    exact (h b rest hends).arrives hstrength

end ExprForm.Restores

end Trellis
