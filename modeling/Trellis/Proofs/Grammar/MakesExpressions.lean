import Trellis.Proofs.Grammar.Made

/-!
# The grammar makes well-formed expressions

One lemma for each production of expressions: if the rules make well-formed trees, so does the production.
Templates come first, since their slots are read from scripts of their own. Then come the primary
expressions, the accesses behind them, and the levels of operators.
-/

namespace Trellis

open Token (skip next Source)

theorem Expr.MadePrimary.of_lead {d : Dialect} {ts mid rest : List Token} {t : Token} {span : Span}
    {form : ExprForm} (hskip : skip ts = t :: mid) (hrest : rest <:+ mid)
    (hlead : t.terminal = form.lead) (hstrength : Layout.strength form = 6)
    (hform : form.WellFormed d) : Expr.MadePrimary d ts rest ⟨span, form⟩ :=
  ⟨hform, fun _ => ⟨(Token.next_eq_of_skip hskip).trans hlead, hstrength⟩,
    Token.length_lt_of_taken hskip hrest⟩

/-! ## Templates -/

section

variable {d : Dialect} {r : Rules} {ts : List Token}

theorem Rules.Makes.slot (h : r.Makes d) {text : Span} {source : String} {offset : Nat} :
    Tells d (Parse.slot r text source offset) ts fun rest e => rest = ts ∧
      ∀ depth, source.length + 1 < depth → ∀ span ts',
        Gives d (Parse.slot (Rules.ofDepth depth) span source offset) ts'
          (·.bare .all = e.bare .all) ts' := by
  intro p e q hp hdone
  obtain ⟨n, rfl⟩ := h.ofDepth
  obtain ⟨hfaults, u, hread, rfl⟩ := Parse.slot_done.mp hdone
  rw [Parse.wholeExpression_eq, Parse.withOwnLog_done] at hread
  -- the tokens of a slot are those of its script, wherever the text stands
  have hholds (p : Parser) (ts : List Token) (span : Span) (hp : p.Holds d ts) :
      { Parse.slotParser p (Parse.slotTokens p.keywords span source offset) with log := {} }.Holds d
        ((scan d.keywords source).tokens.map Token.bare) := by
    refine ⟨hp.keywords, hp.matching, ?_⟩
    simp only [Parse.slotParser, Parser.ofTokens, Parse.slotTokens, List.map_map, hp.keywords]
    rfl
  refine ⟨ts, hp.of_eq rfl rfl rfl, List.suffix_rfl, rfl, fun depth hdepth span ts' p' hp' => ?_⟩
  have hweight := weightOf_scan d.keywords source
  rw [← Token.weightOf_map_bare] at hweight
  obtain ⟨e', q', hagain, he⟩ := Parse.whole_again (hholds p ts text hp) hread
    (Nat.lt_of_le_of_lt hweight hdepth) (hholds p' ts' span hp') rfl rfl
  refine ⟨e', _, Parse.slot_done.mpr ⟨?_, q', ?_, rfl⟩, hp'.of_eq rfl rfl rfl, he⟩
  · rw [hp'.keywords, ← hp.keywords, hfaults]
  · rw [Parse.wholeExpression_eq, Parse.withOwnLog_done]
    exact hagain

theorem Rules.Makes.templateParts (h : r.Makes d) {text : Span}
    (segments : List Template.Segment) :
    Tells d (Parse.templateParts r text segments) ts fun rest parts => rest = ts ∧
      ∀ depth, (∀ source offset, .slot source offset ∈ segments → source.length + 1 < depth) →
        ∀ span ts', Gives d (Parse.templateParts (Rules.ofDepth depth) span segments) ts'
          (TemplatePart.bareOf · = TemplatePart.bareOf parts) ts' := by
  induction segments generalizing ts with
  | nil => exact .pure ⟨rfl, fun _ _ _ _ => .pure rfl⟩
  | cons segment others ih =>
    cases segment with
    | text s =>
      refine .bind_pure ih ?_
      rintro rest parts _ ⟨rfl, hparts⟩
      refine ⟨rfl, fun depth hdepth span ts' => ?_⟩
      have hothers := hparts depth (fun source offset hmem => hdepth _ _ (.tail _ hmem)) span ts'
      exact .bind_pure hothers fun parts' hparts' => by
        rw [TemplatePart.bareOf, TemplatePart.bareOf, hparts']
    | slot source offset =>
      refine .bind h.slot ?_
      rintro _ e _ ⟨rfl, hslot⟩
      refine .bind_pure ih ?_
      rintro rest parts _ ⟨rfl, hparts⟩
      refine ⟨rfl, fun depth hdepth span ts' => ?_⟩
      have hothers := hparts depth (fun source offset hmem => hdepth _ _ (.tail _ hmem)) span ts'
      refine .bind (hslot depth (hdepth _ _ (.head _)) span ts') fun e' he' => ?_
      exact .bind_pure hothers fun parts' hparts' => by
        rw [TemplatePart.bareOf, TemplatePart.bareOf, he', hparts']

theorem Rules.Makes.template (h : r.Makes d) {mid : List Token} {t : Token} {raw : String}
    {span : Span} (hts : Source d.keywords ts) (hskip : skip ts = t :: mid) (ht : t.kind = .text raw)
    (htemplate : Template.isTemplate raw = true) :
    Tells d (Parse.template r raw span) mid (Expr.MadePrimary d ts) := by
  unfold Parse.template
  cases hsplit : Template.split raw with
  | error fault => cases fault <;> exact .fail
  | ok segments =>
    refine .bind_pure (h.templateParts segments) ?_
    rintro _ parts _ ⟨rfl, hparts⟩
    have hreads : ∀ depth, raw.length < depth → ∀ span ts',
        Gives d (Parse.templateParts (Rules.ofDepth depth) span segments) ts'
          (TemplatePart.bareOf · = TemplatePart.bareOf parts) ts' := by
      refine fun depth hdepth => hparts depth fun source offset hslot => ?_
      have hlength := Template.length_slot hsplit hslot
      omega
    have hquotable : IsQuotable raw.toList := by
      have hsound := hts.of_skip hskip
      rw [Token.Sound, ht] at hsound
      exact hsound
    exact .of_lead hskip List.suffix_rfl (congrArg TokenKind.terminal ht) rfl
      ⟨htemplate, hquotable, segments, hsplit, hreads⟩

end

/-! ## Constants and names -/

variable {value : Literal}

theorem TokenKind.terminal_of_literal? {kind : TokenKind} (h : kind.literal? = some value) :
    kind.terminal = value.token.terminal := by
  cases kind with
  | number _ => cases h; rfl
  | text s =>
    rw [TokenKind.literal?] at h
    split at h <;> cases h
    rfl
  | keyword k => cases k <;> cases h <;> rfl
  | _ => cases h

theorem TokenKind.ne_end_of_literal? {kind : TokenKind} (h : kind.literal? = some value) :
    kind.terminal ≠ .endOfFile := by
  intro hend
  have hstarts := value.startsExpression_token
  rw [← TokenKind.terminal_of_literal? h, hend] at hstarts
  cases hstarts

theorem Literal.wellFormed_of_sound {keywords : KeywordTable} {t : Token} (ht : t.Sound keywords)
    (h : t.kind.literal? = some value) : value.WellFormed := by
  cases hkind : t.kind with
  | text s =>
    rw [hkind, TokenKind.literal?] at h
    split at h
    · cases h
    · rename_i htemplate
      cases h
      rw [Token.Sound, hkind] at ht
      exact ⟨ht, Bool.eq_false_iff.mpr htemplate⟩
  | number _ => rw [hkind] at h; cases h; trivial
  | keyword k => rw [hkind] at h; cases k <;> cases h <;> trivial
  | _ => rw [hkind] at h; cases h

variable {d : Dialect} {r : Rules} {ts mid : List Token} {t : Token}

theorem Tells.single {form : ExprForm} {P : List Token → Expr → Prop} (hskip : skip ts = t :: mid)
    (hend : t.isEnd = false) (hP : ∀ span, P mid ⟨span, form⟩) :
    Tells d (Parse.single form) ts P := by
  refine .bind_pure (.take hskip hend) ?_
  rintro _ u _ ⟨rfl, _⟩
  exact hP u.span

theorem Tells.literal (hts : Source d.keywords ts) (hskip : skip ts = t :: mid)
    (hvalue : t.kind.literal? = some value) : Tells d (Parse.single (.literal value)) ts (Expr.MadePrimary d ts) := by
  have hend : t.isEnd = false := Token.isEnd_of_kind rfl (TokenKind.ne_end_of_literal? hvalue)
  exact .single hskip hend fun span =>
    .of_lead hskip List.suffix_rfl (TokenKind.terminal_of_literal? hvalue) rfl
      (Literal.wellFormed_of_sound (hts.of_skip hskip) hvalue)

theorem Tells.name (hts : Source d.keywords ts) (hskip : skip ts = t :: mid) (ht : t.kind = .name) :
    Tells d (Parse.single (.name t.lexeme)) ts (Expr.MadePrimary d ts) := by
  have hname : IsName d.keywords t.lexeme := by
    have hsound := hts.of_skip hskip
    rw [Token.Sound, ht] at hsound
    exact hsound
  exact .single hskip (Token.isEnd_of_kind ht (by rintro ⟨⟩)) fun span =>
    .of_lead hskip List.suffix_rfl (congrArg TokenKind.terminal ht) rfl hname

/-! ## Expressions inside of others -/

namespace Rules.Makes

variable (h : r.Makes d) (hts : Source d.keywords ts)

include h hts

theorem negation (hskip : skip ts = t :: mid) (ht : t.kind = .symbol .minus) :
    Tells d (Parse.negation r) ts (Expr.MadePrimary d ts) := by
  refine .taking hskip (Token.isEnd_of_kind ht nofun) fun u hmid _ => ?_
  exact .bind_pure (h.operand _ (hts.suffix hmid)) fun rest e hrest he =>
    .of_lead hskip hrest (congrArg TokenKind.terminal ht) rfl he.wellFormed

theorem grouped (hskip : skip ts = t :: mid) (ht : t.kind = .symbol .leftParen) :
    Tells d (Parse.grouped r) ts (Expr.MadePrimary d ts) := by
  refine .taking hskip (Token.isEnd_of_kind ht nofun) fun u hmid _ => ?_
  refine .bind (h.expression _ (hts.suffix hmid)) fun behind e hbehind he => ?_
  refine .bind_pure Parse.tells_expect fun rest v hrest _ => ⟨he.wellFormed, fun hparen => ?_,
    Token.length_lt_of_taken hskip (hrest.trans hbehind)⟩
  exact absurd ((Token.next_eq_of_skip hskip).trans (congrArg TokenKind.terminal ht)) hparen

theorem separated (closer : Terminal) (what : String) :
    Tells d (Parse.separated r.expression closer what) ts fun _ es => Expr.WellFormedOf d es := by
  refine (Tells.items (fun ts' e behind => e.Made d 1 ts' behind) fun ts' hts' =>
    h.expression ts' (hts.suffix hts')).imp ?_
  rintro rest es _ ⟨last, u, hitems, -⟩
  exact Expr.wellFormedOf_iff.mpr (hitems.forall_mem fun _ _ _ he => he.wellFormed)

theorem array (hskip : skip ts = t :: mid) (ht : t.kind = .symbol .leftBracket) :
    Tells d (Parse.array r) ts (Expr.MadePrimary d ts) := by
  refine .taking hskip (Token.isEnd_of_kind ht nofun) fun u hmid _ => ?_
  exact .bind_pure (h.separated (hts.suffix hmid) _ _) fun rest es hrest hes =>
    .of_lead hskip hrest (congrArg TokenKind.terminal ht) rfl hes

theorem lambda (hskip : skip ts = t :: mid) (ht : t.kind = .keyword .fnKw) :
    Tells d (Parse.lambda r) ts (Expr.MadePrimary d ts) := by
  refine .taking hskip (Token.isEnd_of_kind ht nofun) fun u hmid _ => ?_
  have hinner := hts.suffix hmid
  refine .bind (.params hinner) fun ts₂ ps hts₂ hps => ?_
  refine .bind Parse.tells_expect fun ts₃ v hts₃ _ => ?_
  have hbehind := hts₃.trans hts₂
  exact .bind_pure (h.blockToEnd (hinner.suffix hbehind) _) fun rest body hrest hbody =>
    .of_lead hskip (hrest.trans hbehind) (congrArg TokenKind.terminal ht) rfl ⟨hps, hbody⟩

end Rules.Makes

/-! ## Objects -/

/-- What is known of the key of a property. -/
structure Parse.KeyRead (d : Dialect) (key : Ident × Bool) : Prop where
  writable : Layout.isBareKey key.1.name = true ∨ IsQuotable key.1.name.toList
  isName : key.2 = true → IsName d.keywords key.1.name

theorem Tells.propertyKey (hts : Source d.keywords ts) : Tells d Parse.propertyKey ts fun _ => Parse.KeyRead d := by
  refine .peek fun u hu => ?_
  -- A key that is a word stands for itself if it is a name.
  have hword : ∀ short : Bool, (u.terminal == .name) = short →
      Tells d (Parse.propertyName >>= fun i => Pure.pure (i, short)) ts fun _ => Parse.KeyRead d := by
    intro short hshort
    refine .bind_pure .propertyName ?_
    rintro rest ⟨_, span⟩ _ ⟨t, hskip, hisWord, rfl⟩
    have hsound := hts.of_skip hskip
    rw [Token.terminal_of_peek hskip hu] at hshort
    refine ⟨.inl (Token.isBareKey_of_isWord hsound hisWord), fun hname => ?_⟩
    have hkind : t.kind = .name := by
      rw [show short = true from hname] at hshort
      obtain ⟨kind, lexeme, span⟩ := t
      cases kind <;> first | rfl | cases hshort
    rw [Token.Sound, hkind] at hsound
    exact hsound
  have hterminal : u.terminal = u.kind.terminal := rfl
  cases hkind : u.kind with
  | text s =>
    obtain ⟨rest, hskip⟩ := Token.skip_of_peek hu (by rw [hterminal, hkind]; rintro ⟨⟩)
    refine .bind_pure (.take hskip (Token.isEnd_of_kind hkind (by rintro ⟨⟩))) ?_
    rintro _ v _ ⟨rfl, _⟩
    have hsound := hts.of_skip hskip
    rw [Token.Sound, Token.bare_kind, hkind] at hsound
    exact ⟨.inr hsound, by rintro ⟨⟩⟩
  | name => exact hword true (by rw [hterminal, hkind]; rfl)
  | _ => exact hword false (by rw [hterminal, hkind]; rfl)

namespace Rules.Makes

variable (h : r.Makes d) (hts : Source d.keywords ts)

include h hts

theorem property : Tells d (Parse.property r) ts fun _ p => Property.WellFormedOf d [p] := by
  refine .bind (.propertyKey hts) ?_
  rintro ts₁ ⟨key, canBeShort⟩ hts₁ hkey
  refine .bind .accept fun ts₂ found hts₂ hfound => ?_
  rcases hfound with ⟨rfl, rfl, -⟩ | ⟨u, rfl, -, -⟩
  · cases canBeShort with
    | false => exact .failExpected
    | true => exact .pure ⟨⟨hkey.isName rfl, rfl⟩, trivial⟩
  · exact .bind_pure (h.expression ts₂ (hts.suffix (hts₂.trans hts₁))) fun rest e _ he =>
      ⟨⟨hkey.writable, he.wellFormed⟩, trivial⟩

theorem object (hskip : skip ts = t :: mid) (ht : t.kind = .symbol .leftBrace) :
    Tells d (Parse.object r) ts (Expr.MadePrimary d ts) := by
  refine .taking hskip (Token.isEnd_of_kind ht nofun) fun u hmid _ => ?_
  refine .bind_pure (.items (fun _ p _ => Property.WellFormedOf d [p]) fun ts' hts' =>
    h.property (hts.suffix (hts'.trans hmid))) ?_
  rintro rest ps hrest ⟨last, v, hitems, -⟩
  exact .of_lead hskip hrest (congrArg TokenKind.terminal ht) rfl
    (Property.wellFormedOf_iff.mpr (hitems.forall_mem fun _ _ _ hp => hp))

end Rules.Makes

/-! ## Tasks -/

structure Continuation.Made (d : Dialect) (ts rest : List Token) (c : Continuation) : Prop where
  wellFormed : Continuation.WellFormedOf d [c]
  shorter : rest.length < ts.length

namespace Rules.Makes

variable (h : r.Makes d) (hts : Source d.keywords ts)

include h hts

theorem continuation? :
    Tells d (Parse.continuation? r) ts fun rest o =>
      (o = none ∧ rest = ts) ∨ ∃ c, o = some c ∧ c.Made d ts rest := by
  refine .bind .accept? fun ts₁ o hts₁ ho => ?_
  rcases ho with ⟨rfl, rfl, -⟩ | ⟨t, rfl, hnext, ht⟩
  · exact .pure (.inl ⟨rfl, rfl⟩)
  · have hskip := ht.skip (by rw [hnext]; exact nofun)
    have hinner := hts.suffix hts₁
    refine .bind (.params hinner) fun ts₂ ps hts₂ hps => ?_
    refine .bind Parse.tells_expect fun ts₃ v hts₃ _ => ?_
    have hbehind := hts₃.trans hts₂
    exact .bind_pure (h.blockUntil (hinner.suffix hbehind) _) fun rest body hrest hbody =>
      .inr ⟨_, rfl, ⟨hps, hbody, trivial⟩, Token.length_lt_of_taken hskip (hrest.trans hbehind)⟩

theorem continuations : Tells d (Parse.continuations r) ts fun _ cs => Continuation.WellFormedOf d cs := by
  refine .sees ?_
  cases next ts == .keyword .toKw with
  | false => exact .pure trivial
  | true =>
    refine .bind (.chain (fun ts' c behind => c.Made d ts' behind) (fun _ => True) fun ts' read hts' => ?_)
      fun last reversed _ hchain => .bind_pure Parse.tells_expect fun rest u _ _ =>
        Continuation.wellFormedOf_iff.mpr (hchain.forall_mem fun _ _ _ hc => hc.wellFormed)
    refine .bind (h.continuation? (hts.suffix hts')) fun behind o _ ho => ?_
    rcases ho with ⟨rfl, rfl⟩ | ⟨c, rfl, hc⟩
    · exact .pure (.inl ⟨rfl, rfl, trivial⟩)
    · exact .pure (.inr ⟨c, rfl, hc, hc.shorter⟩)

theorem run (hskip : skip ts = t :: mid) (ht : t.kind = .keyword .runKw) :
    Tells d (Parse.run r) ts fun rest e => e.WellFormed d ∧ rest <:+ mid ∧ ∃ call cs, e.form = .run call cs := by
  refine .taking hskip (Token.isEnd_of_kind ht nofun) fun u hmid _ => ?_
  refine .bind (h.operand _ (hts.suffix hmid)) fun behind call hbehind hcall => ?_
  cases hisCall : call.form.isCall with
  | false => exact .fail
  | true =>
    exact .bind_pure (h.continuations (hts.suffix (hbehind.trans hmid))) fun rest cs hrest hcs =>
      ⟨⟨hisCall, hcall.wellFormed, hcs⟩, hrest.trans hbehind, call, cs, rfl⟩

theorem wait (hskip : skip ts = t :: mid) (ht : t.kind = .keyword .waitKw) :
    Tells d (Parse.wait r) ts (Expr.MadePrimary d ts) := by
  refine .taking hskip (Token.isEnd_of_kind ht nofun) fun u hmid _ => ?_
  refine .sees ?_
  cases hrun : next mid == .keyword .runKw with
  | true =>
    obtain ⟨v, behind, htaken, hv⟩ := Token.exists_skip_of_next (beq_iff_eq.mp hrun) nofun
    have hkind : v.kind = .keyword .runKw := by
      obtain ⟨kind, lexeme, span⟩ := v
      cases kind <;> cases hv
      rfl
    exact .bind_pure (h.run (hts.suffix hmid) htaken hkind) fun rest e hrest he =>
      .of_lead hskip hrest (congrArg TokenKind.terminal ht) rfl he.1
  | false =>
    exact .bind_pure (h.operand _ (hts.suffix hmid)) fun rest e hrest he =>
      .of_lead hskip hrest (congrArg TokenKind.terminal ht) rfl he.wellFormed

end Rules.Makes

/-! ## Switches -/

structure Case.Made (d : Dialect) (ts rest : List Token) (c : Case) : Prop where
  wellFormed : Case.WellFormedOf d [c]
  shorter : rest.length < ts.length

namespace Rules.Makes

variable (h : r.Makes d) (hts : Source d.keywords ts)

include h hts

theorem caseRest (span : Span) (test : Option Expr) :
    Tells d (Parse.caseRest r span test) ts fun _ c => c.test = test ∧ c.body.WellFormed d := by
  refine .bind Parse.tells_expect fun ts₁ u hts₁ _ => ?_
  refine .bind (h.blockUntil (hts.suffix hts₁) _) fun mid body hmid hbody => ?_
  cases body.endsInGive with
  | true => exact .bind_pure .accept fun _ _ _ _ => ⟨rfl, hbody⟩
  | false => exact .bind_pure Parse.tells_expect fun _ _ _ _ => ⟨rfl, hbody⟩

theorem switchCase : Tells d (Parse.switchCase r) ts (Case.Made d ts) := by
  refine .bind .advance fun ts₁ u hts₁ hu => ?_
  cases hterminal : u.terminal with
  | keyword k =>
    have hskip := hu.skip (by rw [← hu.terminal, hterminal]; exact nofun)
    cases k with
    | caseKw =>
      refine .bind (h.expression ts₁ (hts.suffix hts₁)) fun ts₂ e hts₂ he => ?_
      refine (h.caseRest (hts.suffix (hts₂.trans hts₁)) u.span (some e)).imp ?_
      rintro rest ⟨span, _, body⟩ hrest ⟨rfl, hbody⟩
      exact ⟨⟨he.wellFormed, hbody, trivial⟩, Token.length_lt_of_taken hskip (hrest.trans hts₂)⟩
    | defaultKw =>
      refine (h.caseRest (hts.suffix hts₁) u.span none).imp ?_
      rintro rest ⟨span, _, body⟩ hrest ⟨rfl, hbody⟩
      exact ⟨⟨hbody, trivial⟩, Token.length_lt_of_taken hskip hrest⟩
    | _ => exact .bind (P := fun _ _ => False) .fail fun _ _ _ hf => hf.elim
  | _ => exact .bind (P := fun _ _ => False) .fail fun _ _ _ hf => hf.elim

theorem switch (hskip : skip ts = t :: mid) (ht : t.kind = .keyword .switchKw) :
    Tells d (Parse.switch r) ts (Expr.MadePrimary d ts) := by
  refine .taking hskip (Token.isEnd_of_kind ht nofun) fun u hmid _ => ?_
  refine .bind (h.expression _ (hts.suffix hmid)) fun ts₂ subject hts₂ hsubject => ?_
  refine .bind Parse.tells_expect fun ts₃ v hts₃ _ => ?_
  have hbehind := hts₃.trans hts₂
  refine .bind (.chain (fun ts' c behind => c.Made d ts' behind) (fun _ => True) fun ts' read hts' => ?_)
    fun last reversed hlast hchain => .bind_pure Parse.tells_expect fun rest w hrest _ => ?_
  · refine .sees ?_
    cases next ts' == .keyword .endKw with
    | true => exact .pure (.inl ⟨rfl, rfl, trivial⟩)
    | false =>
      exact .bind_pure (h.switchCase (hts.suffix ((hts'.trans hbehind).trans hmid))) fun behind c _ hc =>
        .inr ⟨c, rfl, hc, hc.shorter⟩
  · exact .of_lead hskip ((hrest.trans hlast).trans hbehind) (congrArg TokenKind.terminal ht) rfl
      ⟨hsubject.wellFormed, Case.wellFormedOf_iff.mpr (hchain.forall_mem fun _ _ _ hc => hc.wellFormed)⟩

/-! ## Primary expressions -/

theorem primary : Tells d (Parse.primary r) ts (Expr.MadePrimary d ts) := by
  refine .peek fun u hu => ?_
  have htaken : ∀ kind, u.kind = kind → kind.terminal ≠ .endOfFile → ∃ mid, skip ts = u.bare :: mid := by
    rintro _ rfl hne
    exact Token.skip_of_peek hu hne
  have hliteral : ∀ value, u.kind.literal? = some value →
      Tells d (Parse.single (.literal value)) ts (Expr.MadePrimary d ts) := by
    intro value hvalue
    obtain ⟨mid, hskip⟩ := htaken _ rfl (TokenKind.ne_end_of_literal? hvalue)
    exact .literal hts hskip hvalue
  cases hkind : u.kind with
  | number x => exact hliteral _ (by rw [hkind]; rfl)
  | text s =>
    obtain ⟨mid, hskip⟩ := htaken _ hkind (by rintro ⟨⟩)
    cases htemplate : Template.isTemplate s with
    | true =>
      simp only [htemplate, if_true]
      refine .taking hskip (Token.isEnd_of_kind hkind (by rintro ⟨⟩)) fun v hmid _ => ?_
      exact h.template hts hskip hkind htemplate
    | false =>
      simp only [htemplate]
      exact hliteral _ (by rw [hkind, TokenKind.literal?, htemplate]; rfl)
  | name =>
    obtain ⟨mid, hskip⟩ := htaken _ hkind (by rintro ⟨⟩)
    exact .name (t := u.bare) hts hskip hkind
  | symbol s =>
    obtain ⟨mid, hskip⟩ := htaken _ hkind (by rintro ⟨⟩)
    cases s with
    | minus => exact h.negation hts hskip hkind
    | leftParen => exact h.grouped hts hskip hkind
    | leftBrace => exact h.object hts hskip hkind
    | leftBracket => exact h.array hts hskip hkind
    | _ => exact .fail
  | keyword k =>
    obtain ⟨mid, hskip⟩ := htaken _ hkind (by rintro ⟨⟩)
    cases k with
    | fnKw => exact h.lambda hts hskip hkind
    | waitKw => exact h.wait hts hskip hkind
    | switchKw => exact h.switch hts hskip hkind
    | runKw =>
      refine (h.run hts hskip hkind).imp ?_
      rintro rest ⟨span, _⟩ _ ⟨hwellFormed, hrest, call, cs, rfl⟩
      exact .of_lead hskip hrest (congrArg TokenKind.terminal hkind) rfl hwellFormed
    | trueKw => exact hliteral _ (by rw [hkind]; rfl)
    | falseKw => exact hliteral _ (by rw [hkind]; rfl)
    | nilKw => exact hliteral _ (by rw [hkind]; rfl)
    | nanKw => exact hliteral _ (by rw [hkind]; rfl)
    | _ => exact .fail
  | _ => exact .fail

end Rules.Makes

end Trellis
