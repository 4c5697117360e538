import Trellis.Proofs.Grammar.MakesOperators

/-!
# The grammar makes well-formed statements

One lemma for each production of statements, in the manner of those for expressions. A statement that ends in an
expression stops in front of a token that does not go on with it, so the statement behind it may follow it in a
layout as well (`Stmt.Made.links`): there it starts with the same token, or with less than the parenthesis that it
started with. In the end the knot is tied (`Rules.makes_ofDepth`).
-/

namespace Trellis

open Token (skip next Source)

theorem StmtForm.lead_ne (form : StmtForm) :
    form.lead ≠ .keyword .asKw ∧ form.lead ≠ .keyword .pickKw ∧ form.lead ≠ .symbol .dotDot := by
  cases form with
  | expression e =>
    have hstarts := e.startsExpression_lead
    rw [StmtForm.lead]
    refine ⟨?_, ?_, ?_⟩ <;> intro heq <;> rw [heq] at hstarts <;> cases hstarts
  | declare _ constant _ => cases constant <;> refine ⟨?_, ?_, ?_⟩ <;> rintro ⟨⟩
  | _ => refine ⟨?_, ?_, ?_⟩ <;> rintro ⟨⟩

/-- **A statement that was made of tokens and is no comment and no blank line.** -/
structure Stmt.MadeProper (d : Dialect) (ts rest : List Token) (s : Stmt) : Prop where
  wellFormed : s.WellFormed d
  notTrivia : s.form.isTrivia = false
  lead : next ts = .symbol .leftParen ∨ next ts = s.form.lead
  links : ∀ form : StmtForm, form.isTrivia = false →
    next rest = .symbol .leftParen ∨ next rest = form.lead → s.allows form.lead = true
  shorter : rest.length < ts.length

section

variable {d : Dialect} {r : Rules} {ts mid rest : List Token} {t : Token}

theorem Stmt.MadeProper.of_keyword {k : Keyword} {id : NodeId} {span : Span} {form : StmtForm}
    (hskip : skip ts = t :: mid) (ht : t.terminal = .keyword k) (hrest : rest <:+ mid) (hform : form.WellFormed d)
    (hlead : form.lead = .keyword k)
    (hlinks : ∀ other : StmtForm, other.isTrivia = false →
      next rest = .symbol .leftParen ∨ next rest = other.lead → form.allows other.lead = true) :
    Stmt.MadeProper d ts rest ⟨id, span, form⟩ := by
  have hnext : next ts = .keyword k := (Token.next_eq_of_skip hskip).trans ht
  refine ⟨hform, ?_, .inr (hnext.trans hlead.symm), hlinks, Token.length_lt_of_taken hskip hrest⟩
  show form.isTrivia = false
  rw [StmtForm.isTrivia_eq, hlead]
  rfl

theorem Expr.Made.links {e : Expr} (h : e.Made d 1 ts rest) (form : StmtForm)
    (hnext : next rest = .symbol .leftParen ∨ next rest = form.lead) : (form.lead.bond == 0) = true := by
  rcases hnext with hparen | hlead
  · have hlt := h.stops (by rw [hparen]; exact nofun)
    rw [hparen] at hlt
    exact absurd hlt (by decide)
  · have hlt := h.stops (by rw [hlead]; exact form.lead_ne.2.2)
    rw [hlead] at hlt
    exact beq_iff_eq.mpr (Nat.lt_one_iff.mp hlt)

theorem Tells.statementOf {form : StmtForm} {span : Span} {P : List Token → Stmt → Prop}
    (h : ∀ id, P ts ⟨id, span, form⟩) : Tells d (Parse.statementOf form span) ts P := by
  refine .bind_pure .freshId ?_
  rintro _ id _ rfl
  exact h id

/-! ## Modules -/

theorem Tells.called {β : Type} {what : String} {f : Option Ident → Parse β}
    {Q : List Token → β → Prop} (hts : Source d.keywords ts)
    (hf : ∀ mid called, mid <:+ ts → (∀ i ∈ called, IsName d.keywords i.name) → Tells d (f called) mid Q) :
    Tells d (do if ← Parse.accept (.keyword .asKw) then f (some (← Parse.ident what)) else f none) ts
      Q := by
  refine .bind .accept fun mid found hmid hfound => ?_
  rcases hfound with ⟨rfl, rfl, -⟩ | ⟨t, rfl, -, -⟩
  · exact hf _ none hmid nofun
  · refine .bind (.ident (hts.suffix hmid)) fun rest i hrest hi => hf rest (some i) (hrest.trans hmid) ?_
    rintro _ ⟨⟩
    exact hi.isName

theorem Tells.pick (hts : Source d.keywords ts) : Tells d Parse.pick ts fun _ p => p.WellFormed d.keywords := by
  refine .bind (.ident hts) fun ts₁ i hts₁ hi => ?_
  exact .called (f := fun called => Pure.pure (Pick.mk i called)) (hts.suffix hts₁)
    fun mid called _ hname => .pure ⟨hi.isName, hname⟩

theorem Tells.picks (hts : Source d.keywords ts) :
    Tells d Parse.picks ts fun _ ps => ∀ p ∈ ps, p.WellFormed d.keywords := by
  refine Tells.bind Tells.accept fun ts₁ found hts₁ hfound => ?_
  rcases hfound with ⟨rfl, rfl, -⟩ | ⟨t, rfl, -, -⟩
  · exact Tells.pure nofun
  · refine Tells.bind Parse.tells_expect fun ts₂ u hts₂ _ => ?_
    refine (Tells.items (fun _ p _ => p.WellFormed d.keywords) fun ts' hts' =>
      Tells.pick (hts.suffix ((hts'.trans hts₂).trans hts₁))).imp ?_
    rintro rest ps _ ⟨last, v, hitems, -⟩
    exact hitems.forall_mem fun _ _ _ hp => hp

theorem Tells.useModule (hts : Source d.keywords ts) (hskip : skip ts = t :: mid)
    (ht : t.terminal = .keyword .useKw) : Tells d Parse.useModule ts (Stmt.MadeProper d ts) := by
  refine .taking hskip (Token.isEnd_of_terminal ht nofun) fun u hmid _ => ?_
  refine .peek fun v hv => ?_
  cases hkind : v.kind with
  | text source =>
    obtain ⟨ts₂, hsource⟩ := Token.skip_of_peek hv (by
      show v.kind.terminal ≠ _
      rw [hkind]
      exact nofun)
    refine .bind (.take hsource (Token.isEnd_of_kind hkind nofun)) ?_
    rintro ts₂ _ hts₂ ⟨rfl, _⟩
    have hbehind := hts.suffix (hts₂.trans hmid)
    have hquotable : IsQuotable source.toList := by
      have hsound := (hts.suffix hmid).of_skip hsource
      rw [Token.Sound, Token.bare_kind, hkind] at hsound
      exact hsound
    refine .called (f := fun called => do
      let picked ← Parse.picks
      Parse.statementOf (.useModule source called picked) u.span) hbehind
      fun ts₃ called hts₃ hname => ?_
    refine .bind (.picks (hbehind.suffix hts₃)) fun rest ps hrest hps => ?_
    refine .statementOf fun id => .of_keyword hskip ht ((hrest.trans hts₃).trans hts₂)
      ⟨hquotable, hname, hps⟩ rfl fun other _ _ => ?_
    rw [StmtForm.allows, Bool.and_eq_true, bne_iff_ne, bne_iff_ne]
    exact ⟨other.lead_ne.1, other.lead_ne.2.1⟩
  | _ => exact .failExpected

/-! ## Declarations -/

namespace Rules.Makes

variable (h : r.Makes d) (hts : Source d.keywords ts)

include h hts

theorem expose (hskip : skip ts = t :: mid) (ht : t.terminal = .keyword .exposeKw) :
    Tells d (Parse.expose r) ts (Stmt.MadeProper d ts) := by
  refine .taking hskip (Token.isEnd_of_terminal ht nofun) fun u hmid _ => ?_
  refine .bind (h.statement mid (hts.suffix hmid)) fun rest inner hrest hinner => ?_
  cases hdeclares : inner.form.declaredName?.isSome with
  | false => exact .fail
  | true =>
    exact .statementOf fun id => .of_keyword hskip ht hrest ⟨hdeclares, hinner.wellFormed⟩ rfl hinner.links

theorem function (hskip : skip ts = t :: mid) (hend : t.isEnd = false) :
    Tells d (Parse.function r) ts fun rest f =>
      (IsName d.keywords f.1.name ∧ (∀ i ∈ f.2.1, IsName d.keywords i.name) ∧ f.2.2.WellFormed d) ∧ rest <:+ mid := by
  refine .taking hskip hend fun u hmid _ => ?_
  refine .bind (.ident (hts.suffix hmid)) fun ts₂ name hts₂ hname => ?_
  refine .bind (.params (hts.suffix (hts₂.trans hmid))) fun ts₃ ps hts₃ hps => ?_
  refine .bind Parse.tells_expect fun ts₄ v hts₄ _ => ?_
  have hbehind := hts₄.trans (hts₃.trans hts₂)
  exact .bind_pure (h.blockToEnd (hts.suffix (hbehind.trans hmid)) _) fun rest body hrest hbody =>
    ⟨⟨hname.isName, hps, hbody⟩, hrest.trans hbehind⟩

theorem declareTask (hskip : skip ts = t :: mid) (ht : t.terminal = .keyword .taskKw) :
    Tells d (Parse.declareTask r) ts (Stmt.MadeProper d ts) := by
  refine .taking hskip (Token.isEnd_of_terminal ht nofun) fun u hmid _ => ?_
  refine .sees ?_
  cases hfn : next mid == .keyword .fnKw with
  | false => exact .failExpected
  | true =>
    obtain ⟨v, ts₁, htaken, hv⟩ := Token.exists_skip_of_next (beq_iff_eq.mp hfn) nofun
    exact .bind (h.function (hts.suffix hmid) htaken (Token.isEnd_of_terminal hv nofun)) fun rest f hrest hf =>
      .statementOf fun id => .of_keyword hskip ht hrest hf.1 rfl fun _ _ _ => rfl

theorem declareFunction (hskip : skip ts = t :: mid) (ht : t.terminal = .keyword .fnKw) :
    Tells d (Parse.declareFunction r) ts (Stmt.MadeProper d ts) :=
  .read fun _ => .bind (h.function hts hskip (Token.isEnd_of_terminal ht nofun)) fun _ _ _ hf =>
    .statementOf fun _ => .of_keyword hskip ht hf.2 hf.1 rfl fun _ _ _ => rfl

theorem declare {k : Keyword} (hskip : skip ts = t :: mid) (ht : t.terminal = .keyword k)
    (hk : k = .letKw ∨ k = .constKw) : Tells d (Parse.declare r) ts (Stmt.MadeProper d ts) := by
  refine .taking hskip (Token.isEnd_of_terminal ht nofun) fun u hmid hu => ?_
  refine .bind (.ident (hts.suffix hmid)) fun ts₂ name hts₂ hname => ?_
  refine .bind Parse.tells_expect fun ts₃ v hts₃ _ => ?_
  have hbehind := hts₃.trans hts₂
  refine .bind (h.expressionMade (hts.suffix (hbehind.trans hmid))) fun rest value hrest hvalue => ?_
  rw [Token.terminal_of_bare hu]
  refine .statementOf fun id => .of_keyword hskip ht (hrest.trans hbehind)
    ⟨hname.isName, hvalue.wellFormed⟩ ?_ fun other _ => hvalue.links other
  rw [ht]
  rcases hk with rfl | rfl <;> rfl

/-! ## Branches and loops -/

theorem alternate : Tells d (Parse.alternate r) ts fun _ a => a.WellFormed d := by
  refine .sees ?_
  cases hif : next ts == .keyword .ifKw with
  | true =>
    exact .bind_pure (h.branch ts hts (beq_iff_eq.mp hif)) fun rest s _ hs => ⟨hs.isBranch, hs.wellFormed⟩
  | false =>
    exact .bind .accept fun ts₁ _ hts₁ _ => .bind_pure (h.blockToEnd (hts.suffix hts₁) _)
      fun _ _ _ hbody => hbody

theorem branchMade (hskip : skip ts = t :: mid) (hend : t.isEnd = false) :
    Tells d (Parse.branch r) ts fun rest s => s.MadeBranch d ts rest ∧ rest <:+ mid := by
  refine .taking hskip hend fun u hmid _ => ?_
  refine .bind (h.expressionMade (hts.suffix hmid)) fun ts₂ condition hts₂ hcondition => ?_
  refine .bind Parse.tells_expect fun ts₃ v hts₃ _ => ?_
  have hbehind := hts₃.trans hts₂
  refine .bind (h.blockUntil (hts.suffix (hbehind.trans hmid)) _) fun ts₄ body hts₄ hbody => ?_
  have hclosing := hts₄.trans hbehind
  refine .bind .accept fun ts₅ found hts₅ hfound => ?_
  rcases hfound with ⟨rfl, rfl, -⟩ | ⟨w, rfl, -, -⟩
  · refine .bind Parse.tells_expect fun rest x hrest _ => .statementOf fun id => ?_
    have hsuffix := hrest.trans hclosing
    exact ⟨⟨rfl, ⟨hcondition.wellFormed, hbody⟩, Token.length_lt_of_taken hskip hsuffix⟩, hsuffix⟩
  · refine .bind (h.alternate (hts.suffix (hts₅.trans (hclosing.trans hmid))))
      fun rest a hrest ha => .statementOf fun id => ?_
    have hsuffix := (hrest.trans hts₅).trans hclosing
    exact ⟨⟨rfl, ⟨hcondition.wellFormed, hbody, ha⟩, Token.length_lt_of_taken hskip hsuffix⟩, hsuffix⟩

theorem loop (hskip : skip ts = t :: mid) (ht : t.terminal = .keyword .forKw) :
    Tells d (Parse.loop r) ts (Stmt.MadeProper d ts) := by
  refine .taking hskip (Token.isEnd_of_terminal ht nofun) fun u hmid _ => ?_
  refine .bind (.ident (hts.suffix hmid)) fun ts₂ key hts₂ hkey => ?_
  -- What follows the second variable is the same whether it is there or not.
  have hrest : ∀ (ts₃ : List Token) (value : Option Ident), ts₃ <:+ ts₂ →
      (∀ i ∈ value, IsName d.keywords i.name) →
      Tells d (Parse.loopRest r key value u.span) ts₃ (Stmt.MadeProper d ts) := by
    intro ts₃ value hts₃ hvalue
    refine .bind Parse.tells_expect fun ts₄ v hts₄ _ => ?_
    have hbehind := hts₄.trans (hts₃.trans hts₂)
    refine .bind (h.expressionMade (hts.suffix (hbehind.trans hmid)))
      fun ts₅ iterated hts₅ hiterated => ?_
    refine .bind Parse.tells_expect fun ts₆ w hts₆ _ => ?_
    have hinner := (hts₆.trans hts₅).trans hbehind
    exact .bind (h.blockToEnd (hts.suffix (hinner.trans hmid)) _) fun rest body hrest hbody =>
      .statementOf fun id => .of_keyword hskip ht (hrest.trans hinner)
        ⟨hkey.isName, hvalue, hiterated.wellFormed, hbody⟩ rfl fun _ _ _ => rfl
  refine .bind .accept fun ts₃ found hts₃ hfound => ?_
  rcases hfound with ⟨rfl, rfl, -⟩ | ⟨v, rfl, -, -⟩
  · exact hrest _ none hts₃ nofun
  · refine .bind (.ident (hts.suffix ((hts₃.trans hts₂).trans hmid))) fun ts₄ i hts₄ hi => ?_
    refine hrest _ (some i) (hts₄.trans hts₃) ?_
    rintro _ ⟨⟩
    exact hi.isName

/-! ## Results and expressions -/

theorem give (hskip : skip ts = t :: mid) (ht : t.terminal = .keyword .returnKw) :
    Tells d (Parse.give r) ts (Stmt.MadeProper d ts) := by
  refine .taking hskip (Token.isEnd_of_terminal ht nofun) fun u hmid _ => ?_
  refine .peek fun v hv => ?_
  rw [Token.terminal_of_bare hv, Token.terminal_peek]
  cases hstarts : Parse.startsExpression (next mid) with
  | true =>
    exact .bind (h.expressionMade (hts.suffix hmid)) fun rest value hrest hvalue => .statementOf fun id =>
      .of_keyword hskip ht hrest hvalue.wellFormed rfl fun other _ => hvalue.links other
  | false =>
    refine .statementOf fun id => .of_keyword hskip ht List.suffix_rfl trivial rfl fun other _ hother => ?_
    rcases hother with hparen | hlead
    · rw [hparen] at hstarts
      cases hstarts
    · rw [StmtForm.allows, ← hlead, hstarts]
      rfl

theorem expressionStatement : Tells d (Parse.expressionStatement r) ts (Stmt.MadeProper d ts) := by
  refine .read fun _ => .bind (h.expressionMade hts) fun rest e _ he => .statementOf fun id =>
    ⟨he.wellFormed, rfl, ?_, fun other _ => he.links other, he.shorter⟩
  by_cases hparen : next ts = .symbol .leftParen
  · exact .inl hparen
  · exact .inr (he.lead hparen).1

end Rules.Makes

/-! ## Statements -/

theorem Stmt.MadeBranch.proper {s : Stmt} (h : s.MadeBranch d ts rest) (hskip : skip ts = t :: mid)
    (ht : t.terminal = .keyword .ifKw) (hrest : rest <:+ mid) : s.MadeProper d ts rest := by
  obtain ⟨id, span, form⟩ := s
  have hisBranch : form.isBranch = true := h.isBranch
  cases form with
  | branch condition consequent alternate =>
    exact .of_keyword hskip ht hrest h.wellFormed rfl fun _ _ _ => rfl
  | _ => cases hisBranch

theorem Tells.dropFront : Tells d Parse.dropFront (t :: rest) fun rest' _ => rest' = rest := by
  rintro p _ q hp ⟨⟩
  have htokens := hp.tokens
  obtain ⟨u, others, hp', _, hothers⟩ := List.map_eq_cons_iff.mp htokens
  refine ⟨rest, ⟨hp.keywords, hp.matching, ?_⟩, List.suffix_cons _ _, rfl⟩
  simp only [hp', List.drop_one, List.tail_cons, hothers]

namespace Rules.Makes

variable (h : r.Makes d) (hts : Source d.keywords ts)

include h hts

theorem properStatement : Tells d (Parse.properStatement r) ts (Stmt.MadeProper d ts) := by
  refine .peek fun u hu => ?_
  cases hterminal : u.terminal with
  | keyword k =>
    obtain ⟨mid, hskip⟩ := Token.skip_of_peek hu (by rw [hterminal]; exact nofun)
    cases k with
    | useKw => exact .useModule hts hskip hterminal
    | exposeKw => exact h.expose hts hskip hterminal
    | taskKw => exact h.declareTask hts hskip hterminal
    | letKw => exact h.declare hts hskip hterminal (.inl rfl)
    | constKw => exact h.declare hts hskip hterminal (.inr rfl)
    | forKw => exact h.loop hts hskip hterminal
    | returnKw => exact h.give hts hskip hterminal
    | ifKw =>
      exact (h.branchMade hts hskip (Token.isEnd_of_terminal hterminal nofun)).imp fun rest s _ hs =>
        hs.1.proper hskip hterminal hs.2
    | fnKw =>
      refine .read fun v => ?_
      cases v.terminal == .name with
      | true => exact h.declareFunction hts hskip hterminal
      | false => exact h.expressionStatement hts
    | _ => exact h.expressionStatement hts
  | _ => exact h.expressionStatement hts

theorem statementMade : Tells d (Parse.statement r) ts (Stmt.Made d ts) := by
  refine .front fun u hu => ?_
  have hproper : Tells d (Parse.properStatement r) ts (Stmt.Made d ts) := by
    refine (h.properStatement hts).imp fun rest s _ hs => ?_
    have hnot : ¬s.form.isTrivia = true := by simp [hs.notTrivia]
    exact ⟨hs.wellFormed, fun _ => hs.lead, fun htrivia => absurd htrivia hnot,
      fun hblank => absurd (StmtForm.isTrivia_of_isBlankLine hblank) hnot, hs.links, hs.shorter⟩
  cases ts with
  | nil =>
    rw [Token.kind_of_bare hu]
    exact hproper
  | cons t rest =>
    have ht : u.kind = t.kind := Token.kind_of_bare hu
    have hlexeme : u.lexeme = t.lexeme := Token.lexeme_of_bare hu
    have hshorter : rest.length < (t :: rest).length := Nat.lt_succ_self _
    rw [ht, hlexeme]
    cases hkind : t.kind with
    | comment =>
      have hcomment : IsComment t.lexeme.toList := by
        have hsound := hts.sound t (.head _)
        rw [Token.Sound, hkind] at hsound
        exact hsound
      have htrivia : t.isTrivia = true := by rw [Token.isTrivia, hkind]
      refine .bind .dropFront ?_
      rintro _ _ _ rfl
      refine .statementOf fun id => ⟨hcomment,
        by rintro ⟨⟩, fun _ => Token.next_cons_of_trivia htrivia _, by rintro ⟨⟩, fun _ _ _ => rfl, hshorter⟩
    | blankLine =>
      have htrivia : t.isTrivia = true := by rw [Token.isTrivia, hkind]
      refine .bind .dropFront ?_
      rintro _ _ _ rfl
      refine .statementOf fun id => ⟨trivial,
        by rintro ⟨⟩, fun _ => Token.next_cons_of_trivia htrivia _, fun _ => ⟨t, rfl, ?_⟩, fun _ _ _ => rfl,
        hshorter⟩
      rw [Token.isBlankLine, hkind]
    | _ => exact hproper

end Rules.Makes

end

/-! ## The knot -/

theorem Rules.makes_ofDepth (d : Dialect) (depth : Nat) : (Rules.ofDepth depth).Makes d := by
  induction depth with
  | zero =>
    exact ⟨fun _ _ => .exhaust, fun _ _ => .exhaust, fun _ _ => .exhaust,
      fun _ _ => .exhaust, fun _ _ => .exhaust, fun _ _ => .exhaust,
      fun _ _ _ => .exhaust, 0, rfl⟩
  | succ depth ih =>
    refine ⟨fun _ hts => ih.expressionMade hts, fun _ hts => ih.comparisonMade hts,
      fun _ hts => ih.equalityMade hts, fun _ hts => ih.sumMade hts, fun _ hts => ih.operandMade hts,
      fun _ hts => ih.statementMade hts, fun ts hts hnext => ?_, depth + 1, rfl⟩
    obtain ⟨t, mid, hskip, ht⟩ := Token.exists_skip_of_next hnext nofun
    exact (ih.branchMade hts hskip (Token.isEnd_of_terminal ht nofun)).imp fun _ _ _ hs => hs.1

theorem Rules.Makes.program {d : Dialect} {r : Rules} (h : r.Makes d) {ts : List Token}
    (hts : Source d.keywords ts) (happart : Token.apart true ts = true) :
    Tells d (Parse.program r) ts fun _ p => p.WellFormed d := by
  refine .bind .freshId ?_
  rintro _ _ _ rfl
  refine .bind_pure (.chain (Stmt.MadeStep d [])
    (fun ts' => Token.stops [] ts' = true) fun mid read hmid => ?_) ?_
  · refine .front fun u hu => ?_
    have hstops : u.isEnd = Token.stops [] mid := by
      rw [Token.isEnd_eq, Token.terminal_of_bare hu, Token.stops, Token.head, List.contains_nil,
        Bool.or_false]
    rw [hstops]
    cases hstop : Token.stops [] mid with
    | true => exact .pure (.inl ⟨rfl, rfl, rfl⟩)
    | false =>
      exact .bind_pure (h.statement mid (hts.suffix hmid)) fun rest s _ hs =>
        .inr ⟨s, rfl, ⟨hstop, hs⟩, hs.shorter⟩
  · exact fun rest reversed _ hchain => ⟨Stmt.MadeChain.startsBlank_eq_false happart hchain,
      Stmt.MadeChain.wellFormedOf hts hchain⟩

end Trellis
