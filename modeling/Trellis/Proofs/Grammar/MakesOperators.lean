import Trellis.Proofs.Grammar.MakesExpressions

/-!
# The grammar makes well-formed operands and operators

Behind a primary expression there may be members, indices and arguments, and then operators of each level. For each
level it is shown that the production makes a well-formed tree of that level (`Expr.Made`).

In a layout, the left operand of an operator is put in parentheses if its strength falls short. That it does not,
unless the script had parentheses there, is seen from where it stopped: the operator behind it has a bond below the
strength of the operand.
-/

namespace Trellis

open Token (skip next Source)

theorem Terminal.eq_dotDot_of_bond {t : Terminal} (h : t.bond = 5) : t = .symbol .dotDot := by
  cases t with
  | symbol s => cases s <;> first | rfl | cases h
  | _ => cases h

theorem Parse.isSome_arithmetic? (t : Terminal) : (Parse.arithmetic? t).isSome = (t.bond == 4) := by
  cases t with
  | symbol s => cases s <;> rfl
  | _ => rfl

theorem Parse.isSome_comparison? (t : Terminal) : (Parse.comparison? t).isSome = (t.bond == 2) := by
  cases t with
  | symbol s => cases s <;> rfl
  | _ => rfl

theorem ExprForm.strength_of_isTarget {form : ExprForm} (h : form.isTarget = true) : Layout.strength form = 6 := by
  cases form <;> first | rfl | cases h

theorem Expr.leadOperand_of_le {e : Expr} {least : Nat} (h : least ≤ Layout.strength e.form) :
    e.leadOperand least = e.lead := by
  rw [Expr.leadOperand_eq, if_neg (Nat.not_lt.mpr h)]

/-! ## Accesses -/

/-- **A member, an index or a call that was made of an expression and the tokens behind it.** -/
structure Expr.Accessed (d : Dialect) (a : Expr) (ts rest : List Token) (e : Expr) : Prop where
  wellFormed : a.WellFormed d → e.WellFormed d
  lead : e.lead = a.leadOperand 6
  strength : Layout.strength e.form = 6
  shorter : rest.length < ts.length

/-- **What a primary expression becomes** by the accesses in the tokens behind it. -/
structure Expr.AccessedAll (d : Dialect) (a : Expr) (rest : List Token) (e : Expr) : Prop where
  wellFormed : a.WellFormed d → e.WellFormed d
  stops : (next rest).bond < 6
  lead : Layout.strength a.form = 6 → e.lead = a.lead ∧ Layout.strength e.form = 6

section

variable {d : Dialect} {r : Rules} {ts mid rest : List Token} {t : Token} {a e : Expr}

theorem Expr.AccessedAll.none (hnext : (next ts).bond < 6) : Expr.AccessedAll d a ts a :=
  ⟨id, hnext, fun hstrength => ⟨rfl, hstrength⟩⟩

theorem Expr.AccessedAll.of_accessed {e' : Expr} (h : Expr.Accessed d a ts mid e)
    (hall : Expr.AccessedAll d e rest e') : Expr.AccessedAll d a rest e' := by
  refine ⟨fun ha => hall.wellFormed (h.wellFormed ha), hall.stops, fun hstrength => ?_⟩
  rw [(hall.lead h.strength).1, h.lead, Expr.leadOperand_of_le (Nat.le_of_eq hstrength.symm)]
  exact ⟨rfl, (hall.lead h.strength).2⟩

theorem Expr.MadePrimary.operand (h : Expr.MadePrimary d ts mid a) (hrest : rest <:+ mid)
    (hall : Expr.AccessedAll d a rest e) : Expr.Made d 6 ts rest e := by
  refine ⟨hall.wellFormed h.wellFormed, fun _ => hall.stops, fun hparen => ?_,
    Nat.lt_of_le_of_lt hrest.length_le h.shorter⟩
  obtain ⟨hlead, hstrength⟩ := h.lead hparen
  obtain ⟨hlead', hstrength'⟩ := hall.lead hstrength
  exact ⟨hlead.trans hlead'.symm, fun _ => hstrength', fun _ => hstrength' ▸ hall.stops⟩

namespace Rules.Makes

variable (h : r.Makes d) (hts : Source d.keywords ts)

include h hts

theorem access? (a : Expr) :
    Tells d (Parse.access? r a) ts fun rest o =>
      (o = none ∧ rest = ts ∧ (next ts).bond < 6) ∨ ∃ e, o = some e ∧ Expr.Accessed d a ts rest e := by
  refine .peek fun u hu => ?_
  have htaken : ∀ terminal, u.terminal = terminal → terminal ≠ .endOfFile → ∃ mid, skip ts = u.bare :: mid := by
    rintro _ rfl hne
    exact Token.skip_of_peek hu hne
  split
  · rename_i hdot
    obtain ⟨mid, hskip⟩ := htaken _ hdot nofun
    refine .taking hskip (Token.isEnd_of_terminal hdot nofun) fun v hmid _ => ?_
    refine .bind_pure .propertyName ?_
    rintro rest ⟨_, span⟩ hrest ⟨w, hword, hisWord, rfl⟩
    have hkey := Token.isBareKey_of_isWord ((hts.suffix hmid).of_skip hword) hisWord
    exact .inr ⟨_, rfl, fun ha => ⟨ha, hkey⟩, rfl, rfl, Token.length_lt_of_taken hskip hrest⟩
  · rename_i hbracket
    obtain ⟨mid, hskip⟩ := htaken _ hbracket nofun
    refine .taking hskip (Token.isEnd_of_terminal hbracket nofun) fun v hmid _ => ?_
    refine .bind (h.expression _ (hts.suffix hmid)) fun behind key hbehind hkey => ?_
    exact .bind_pure Parse.tells_expect fun rest w hrest _ => .inr ⟨_, rfl, fun ha => ⟨ha, hkey.wellFormed⟩,
      rfl, rfl, Token.length_lt_of_taken hskip (hrest.trans hbehind)⟩
  · rename_i hparen
    obtain ⟨mid, hskip⟩ := htaken _ hparen nofun
    refine .taking hskip (Token.isEnd_of_terminal hparen nofun) fun v hmid _ => ?_
    exact .bind_pure (h.separated (hts.suffix hmid) _ _) fun rest es hrest hes =>
      .inr ⟨_, rfl, fun ha => ⟨ha, hes⟩, rfl, rfl, Token.length_lt_of_taken hskip hrest⟩
  · rename_i hdot hbracket hparen
    rw [Token.terminal_of_bare hu, Token.terminal_peek] at hdot hbracket hparen
    refine .pure (.inl ⟨rfl, rfl, ?_⟩)
    cases hnext : next ts with
    | symbol s => cases s <;> first | decide | contradiction
    | _ => exact Nat.zero_lt_succ _

theorem operandMade : Tells d (Parse.operand r) ts (Expr.Made d 6 ts) := by
  rw [Parse.operand_eq]
  refine Tells.bind (h.primary hts) fun mid a hmid ha => ?_
  refine (Tells.rounds (Q := fun _ a rest e => Expr.AccessedAll d a rest e) ?_ a).imp
    fun rest e hrest hall => ha.operand hrest hall
  intro ts' a' hts'
  refine .bind (h.access? (hts.suffix (hts'.trans hmid)) a') fun behind o hbehind ho => ?_
  rcases ho with ⟨rfl, rfl, hnext⟩ | ⟨e, rfl, he⟩
  · exact .pure (.inl ⟨a', rfl, .none hnext⟩)
  · exact .pure (.inr ⟨e, rfl, fun final e' _ hall => .of_accessed he hall⟩)

end Rules.Makes

/-! ## Operators -/

namespace Expr.Made

theorem loosen {k : Nat} (h : Expr.Made d (k + 1) ts rest e) (hhigh : k ≤ 5)
    (hnext : (next rest).bond ≠ k) : Expr.Made d k ts rest e := by
  refine ⟨h.wellFormed, fun hdots => ?_, fun hparen => ?_, h.shorter⟩
  · have := h.stops hdots
    omega
  · exact ⟨(h.lead hparen).1, fun hk => by omega, (h.lead hparen).2.2⟩

theorem lead_of_bond {k least : Nat} (h : Expr.Made d k ts rest e) (hbond : (next rest).bond + 1 = least)
    (hdots : least ≠ 6) (hparen : next ts ≠ .symbol .leftParen) : next ts = e.leadOperand least := by
  obtain ⟨hlead, _, hstrength⟩ := h.lead hparen
  have hlt := hstrength fun heq => by
    rw [heq] at hbond
    exact hdots hbond.symm
  rw [hlead, Expr.leadOperand_of_le (by omega)]

theorem of_left {k l : Nat} {left : Expr} {span : Span} {form : ExprForm}
    (hleft : left.Made d l ts mid) (hrest : rest <:+ mid) (hform : form.WellFormed d)
    (hlead : next ts ≠ .symbol .leftParen → next ts = form.lead)
    (hstops : next rest ≠ .symbol .dotDot → (next rest).bond < Layout.strength form)
    (hstrength : Layout.strength form ≤ k) (hk : k ≠ 6) : Expr.Made d k ts rest ⟨span, form⟩ :=
  ⟨hform, fun hdots => Nat.lt_of_lt_of_le (hstops hdots) hstrength,
    fun hparen => ⟨hlead hparen, fun heq => absurd heq hk, hstops⟩,
    Nat.lt_of_le_of_lt hrest.length_le hleft.shorter⟩

end Expr.Made

theorem Token.exists_skip_of_bond {k : Nat} (h : (next ts).bond = k + 1) :
    ∃ t mid, skip ts = t :: mid ∧ t.terminal = next ts ∧ t.isEnd = false := by
  have hne : next ts ≠ .endOfFile := by
    intro hend
    rw [hend] at h
    cases h
  obtain ⟨t, mid, hskip, ht⟩ := Token.exists_skip_of_next rfl hne
  exact ⟨t, mid, hskip, ht, Token.isEnd_of_terminal ht hne⟩

namespace Rules.Makes

variable (h : r.Makes d) (hts : Source d.keywords ts)

include h hts

theorem rangeMade : Tells d (Parse.range r) ts (Expr.Made d 5 ts) := by
  refine .bind (h.operandMade hts) fun ts₁ first hts₁ hfirst => ?_
  refine .bind .accept? fun ts₂ o hts₂ ho => ?_
  rcases ho with ⟨rfl, rfl, hnext⟩ | ⟨t, rfl, hnext, ht⟩
  · exact .pure (hfirst.loosen (by omega) fun hbond =>
      hnext (Terminal.eq_dotDot_of_bond hbond))
  · refine .bind_pure (h.operandMade (hts.suffix (hts₂.trans hts₁))) fun rest last hrest hlast => ?_
    refine .of_left hfirst (hrest.trans hts₂) ⟨hfirst.wellFormed, hlast.wellFormed⟩
      (fun hparen => ?_) (fun hdots => ?_) (Nat.le_refl 5) (by omega)
    · obtain ⟨hlead, hstrength, _⟩ := hfirst.lead hparen
      exact hlead.trans (Expr.leadOperand_of_le (Nat.le_of_eq (hstrength rfl).symm)).symm
    · have hlt : (next rest).bond < 6 := hlast.stops hdots
      have hne : (next rest).bond ≠ 5 := fun hbond => hdots (Terminal.eq_dotDot_of_bond hbond)
      show (next rest).bond < 5
      omega

theorem sumMade : Tells d (Parse.sum r) ts (Expr.Made d 4 ts) := by
  refine .bind (h.rangeMade hts) fun ts₁ left hts₁ hleft => .peek fun u hu => ?_
  have hisSome := Parse.isSome_arithmetic? (next ts₁)
  rw [Token.terminal_of_bare hu, Token.terminal_peek]
  cases hoperator : Parse.arithmetic? (next ts₁) with
  | none =>
    rw [hoperator] at hisSome
    exact .pure (hleft.loosen (by omega) (beq_eq_false_iff_ne.mp hisSome.symm))
  | some operator =>
    rw [hoperator] at hisSome
    have hbond : (next ts₁).bond = 4 := beq_iff_eq.mp hisSome.symm
    obtain ⟨t, ts₂, hskip, ht, hend⟩ := Token.exists_skip_of_bond hbond
    refine .taking hskip hend fun v hts₂ _ => ?_
    exact .bind_pure (h.sum ts₂ (hts.suffix (hts₂.trans hts₁))) fun rest right hrest hright =>
      .of_left hleft (hrest.trans hts₂) ⟨hleft.wellFormed, hright.wellFormed⟩
        (hleft.lead_of_bond (by rw [hbond]) (by omega)) hright.stops (Nat.le_refl 4) (by omega)

theorem equalMade {ts₁ ts₂ : List Token} {left : Expr} {negated : Bool} {span : Span}
    (hts₁ : ts₁ <:+ ts) (hleft : left.Made d 4 ts ts₁) (hskip : skip ts₁ = t :: ts₂)
    (ht : t.terminal = .symbol (if negated then .notEqual else .equal)) :
    Tells d (r.equality >>= fun right => Pure.pure (Expr.mk span (.equal left negated right))) ts₂
      (Expr.Made d 3 ts) := by
  have hts₂ := Token.suffix_of_skip hskip
  have hbond : (next ts₁).bond = 3 := by
    rw [Token.next_eq_of_skip hskip, ht]
    cases negated <;> rfl
  exact .bind_pure (h.equality ts₂ (hts.suffix (hts₂.trans hts₁))) fun rest right hrest hright =>
    .of_left hleft (hrest.trans hts₂) ⟨hleft.wellFormed, hright.wellFormed⟩
      (hleft.lead_of_bond (by rw [hbond]) (by omega)) hright.stops (Nat.le_refl 3) (by omega)

theorem equalityMade : Tells d (Parse.equality r) ts (Expr.Made d 3 ts) := by
  refine .bind (h.sumMade hts) fun ts₁ left hts₁ hleft => .peek fun u hu => ?_
  have htaken : ∀ s, u.terminal = .symbol s → ∃ ts₂, skip ts₁ = u.bare :: ts₂ :=
    fun s hs => Token.skip_of_peek hu (by rw [hs]; exact nofun)
  split
  · rename_i hu
    obtain ⟨ts₂, hskip⟩ := htaken _ hu
    refine .taking hskip (Token.isEnd_of_terminal hu nofun) fun v _ _ => ?_
    exact h.equalMade hts hts₁ hleft hskip hu
  · rename_i hu
    obtain ⟨ts₂, hskip⟩ := htaken _ hu
    refine .taking hskip (Token.isEnd_of_terminal hu nofun) fun v _ _ => ?_
    exact h.equalMade hts hts₁ hleft hskip hu
  · rename_i hu
    obtain ⟨ts₂, hskip⟩ := htaken _ hu
    refine .taking hskip (Token.isEnd_of_terminal hu nofun) fun v hts₂ _ => ?_
    refine .bind (h.expression ts₂ (hts.suffix (hts₂.trans hts₁))) fun rest value hrest hvalue => ?_
    cases htarget : left.form.isTarget with
    | false => exact .fail
    | true =>
      have hstrength := ExprForm.strength_of_isTarget htarget
      refine .pure (.of_left hleft (hrest.trans hts₂)
        ⟨htarget, hleft.wellFormed, hvalue.wellFormed⟩ (fun hparen => ?_)
        hvalue.stops (show 1 ≤ 3 by omega) (by omega))
      exact (hleft.lead hparen).1.trans (Expr.leadOperand_of_le (Nat.le_of_eq hstrength.symm)).symm
  · rename_i hequal hnotEqual hassign
    rw [Token.terminal_of_bare hu, Token.terminal_peek] at hequal hnotEqual hassign
    refine .pure (hleft.loosen (by omega) ?_)
    cases hnext : next ts₁ with
    | symbol s => cases s <;> first | decide | contradiction
    | _ => exact Nat.succ_ne_zero 2 |>.symm

theorem comparisonMade : Tells d (Parse.comparison r) ts (Expr.Made d 2 ts) := by
  refine .bind (h.equalityMade hts) fun ts₁ left hts₁ hleft => .peek fun u hu => ?_
  have hisSome := Parse.isSome_comparison? (next ts₁)
  rw [Token.terminal_of_bare hu, Token.terminal_peek]
  cases hoperator : Parse.comparison? (next ts₁) with
  | none =>
    rw [hoperator] at hisSome
    exact .pure (hleft.loosen (by omega) (beq_eq_false_iff_ne.mp hisSome.symm))
  | some operator =>
    rw [hoperator] at hisSome
    have hbond : (next ts₁).bond = 2 := beq_iff_eq.mp hisSome.symm
    obtain ⟨t, ts₂, hskip, ht, hend⟩ := Token.exists_skip_of_bond hbond
    refine .taking hskip hend fun v hts₂ _ => ?_
    exact .bind_pure (h.comparison ts₂ (hts.suffix (hts₂.trans hts₁))) fun rest right hrest hright =>
      .of_left hleft (hrest.trans hts₂) ⟨hleft.wellFormed, hright.wellFormed⟩
        (hleft.lead_of_bond (by rw [hbond]) (by omega)) hright.stops (Nat.le_refl 2) (by omega)

theorem expressionMade : Tells d (Parse.expression r) ts (Expr.Made d 1 ts) := by
  refine .bind (h.comparisonMade hts) fun ts₁ condition hts₁ hcondition => ?_
  refine .bind .accept? fun ts₂ o hts₂ ho => ?_
  rcases ho with ⟨rfl, rfl, hnext⟩ | ⟨t, rfl, hnext, ht⟩
  · refine .pure (hcondition.loosen (by omega) ?_)
    cases hterminal : next ts₂ with
    | symbol s => cases s <;> first | decide | contradiction
    | _ => exact Nat.zero_ne_one
  · have hinner := hts.suffix (hts₂.trans hts₁)
    refine .bind (h.expression ts₂ hinner) fun ts₃ consequent hts₃ hconsequent => ?_
    refine .bind Parse.tells_expect fun ts₄ v hts₄ _ => ?_
    exact .bind_pure (h.expression ts₄ (hinner.suffix (hts₄.trans hts₃)))
      fun rest alternate hrest halternate => .of_left hcondition (((hrest.trans hts₄).trans hts₃).trans hts₂)
        ⟨hcondition.wellFormed, hconsequent.wellFormed, halternate.wellFormed⟩
        (hcondition.lead_of_bond (by rw [hnext]; rfl) (by omega)) halternate.stops (Nat.le_refl 1) (by omega)

end Rules.Makes

end

end Trellis
