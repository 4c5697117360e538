import Trellis.Proofs.Layout.Operands

/-!
# Reading expressions back, form by form

For each form of expression there is a lemma that its tokens are read back, if those of its parts are: the
production of the form takes the tokens one by one and goes back to the rules for the parts. The forms that hold
blocks ask it of the blocks as well: the tokens of a block are read back in front of a token that ends the block,
and in front of a continuation only if the block does not end in a run (`Block.Restores`).
-/

namespace Trellis

open Token (skip next weightOf)

/-! ## Expressions without parts -/

variable {form : ExprForm}

section

variable {d : Dialect} {rest : List Token}

theorem Gives.oneToken {t : Token} (ht : t.isTrivia = false) (hend : t.isEnd = false) :
    Gives d (Parse.single form) (t :: rest) (·.bare .all = ⟨{}, form.bare .all⟩) rest :=
  .bind_pure (.take ht hend) fun _ _ => rfl

theorem Gives.paramList (names : List Ident) :
    Gives d Parse.params
      (.ofSymbol .leftParen :: (Ident.tokensOf names ++ .ofSymbol .rightParen :: rest))
      (·.map Ident.bare = names.map Ident.bare) rest := by
  refine .accept_true rfl rfl nofun ?_
  exact .listed nofun fun i _ more _ => ⟨nofun, .name i _⟩

theorem Gives.word {t : Token} (ht : t.isTrivia = false)
    (hword : (t.terminal == .name || t.kind.isKeyword) = true) :
    Gives d Parse.propertyName (t :: rest) (·.bare = ⟨t.lexeme, {}⟩) rest := by
  have hend : t.isEnd = false := by
    obtain ⟨kind, lexeme, span⟩ := t
    cases kind <;> first | rfl | cases hword
  refine .facing ht fun span => ?_
  rw [show (Token.terminal ⟨t.kind, t.lexeme, span⟩ == .name || t.kind.isKeyword) = true from hword]
  exact .bind_pure (.take ht hend) fun v hv => congrArg (Ident.mk · {}) (Token.lexeme_of_bare hv)

end

namespace ExprForm.Restores

variable {d : Dialect} {left right : Expr} {es : List Expr}

theorem literal {value : Literal} (h : value.WellFormed) : (literal value).Restores d := by
  intro b rest _
  refine .of_primary rfl rfl ?_
  cases value with
  | text s =>
    refine .facing rfl fun _ => ?_
    show Gives d (if Template.isTemplate s then _ else Parse.single _) _ _ _
    rw [h.2]
    exact .oneToken rfl rfl
  | bool value => cases value <;> exact .facing rfl fun _ => .oneToken rfl rfl
  | _ => exact .facing rfl fun _ => .oneToken rfl rfl

theorem name {word : String} : (name word).Restores d :=
  fun _ _ _ => .of_primary rfl rfl (.facing rfl fun _ => .oneToken rfl rfl)

theorem template {raw : String} {parts : List TemplatePart} (h : Template.WellFormed d raw parts) :
    (template raw parts).Restores d := by
  intro b rest _
  refine .of_primary rfl rfl fun p hp => ?_
  obtain ⟨segments, hsplit, hparts⟩ := h.reads
  -- the parts are read to a depth that is enough for the text, and the text weighs more than that
  have hweight : raw.length < p.weight := by
    rw [Parser.weight_eq, ← Token.weightOf_map_bare, hp.tokens]
    simp only [ExprForm.tokens, List.cons_append, Token.weightOf_cons, Token.weight_ofText]
    omega
  rw [← Rules.eq_of_keeps (Parse.Built.primary.keeps (Rules.ends_tied p.weight).keeps)]
  refine Gives.facing rfl (fun span => ?_) p hp
  show Gives d (if Template.isTemplate raw then _ else _) _ _ _
  rw [h.isTemplate]
  refine .bind (.take rfl rfl) fun _ _ => ?_
  rw [Parse.template, hsplit]
  exact .bind_pure (hparts _ hweight _ _) fun read hread => by rw [Expr.bare_mk, ExprForm.bare, hread]; rfl

/-! ## Lists of expressions -/

theorem listed {b : Blanks} {rest : List Token} {s : Symbol} {what : String}
    (h : ∀ e ∈ es, e.form.Restores d) (hs : s ≠ .comma) (hbond : (Terminal.symbol s).bond = 0)
    (hstarts : Parse.startsExpression (.symbol s) = false) :
    Gives d (Parse.separated Rules.tied.expression (.symbol s) what)
      (Token.listed (Expr.tokensOf d.keywords b es) ++ .ofSymbol s :: rest) (Expr.bareOf .all · = Expr.bareOf b es)
      rest := by
  simp only [Expr.tokensOf_eq, Expr.bareOf_eq]
  refine .listed hs fun e he more hmore => ⟨fun hlead => ?_, ?_⟩
  · have hfalse := e.startsExpression_lead
    rw [← Expr.next_tokens d.keywords b e more, hlead, hstarts] at hfalse
    cases hfalse
  · rcases hmore with hmore | hmore
    · exact (h e he).rule (by rw [hmore]; rfl) fun _ => by rw [hmore]; exact nofun
    · exact (h e he).rule (by rw [hmore, hbond]) fun _ => by rw [hmore]; exact nofun

theorem array (h : ∀ e ∈ es, e.form.Restores d) : (array es).Restores d := by
  intro b rest _
  refine .of_primary rfl rfl ?_
  simp only [ExprForm.tokens, List.cons_append, List.append_assoc, List.nil_append]
  refine .facing rfl fun _ => .bind (.take rfl rfl) fun _ _ => ?_
  exact .bind_pure (listed h (by rintro ⟨⟩) rfl rfl) fun read hread => by
    simp only [Expr.bare_mk, ExprForm.bare, Blanks.within_all, hread]

/-! ## Accesses -/

theorem member {receiver : Expr} {key : Ident} (h : receiver.form.Restores d)
    (hnoPrefix : receiver.form.isPrefix = false) : (member receiver key).Restores d := by
  intro b rest _
  refine .of_access rfl rfl ?_
  simp only [ExprForm.tokens, List.append_assoc, List.cons_append, List.nil_append]
  have hword : ((Token.ofWord d.keywords key.name).terminal == .name ||
      (Token.ofWord d.keywords key.name).kind.isKeyword) = true ∧
        (Token.ofWord d.keywords key.name).lexeme = key.name := by
    unfold Token.ofWord
    split <;> exact ⟨rfl, rfl⟩
  have hname : Gives d _ _ _ rest := .word (Token.isTrivia_ofWord key.name d.keywords) hword.1
  rw [hword.2] at hname
  refine (h.receiver hnoPrefix).access (by simp only [List.length_cons]; omega) fun a ha => .facing rfl fun _ => ?_
  refine .bind (.take rfl rfl) fun _ _ => .bind_pure hname fun i hi => ⟨_, rfl, ?_⟩
  simp only [Expr.bare_mk, ExprForm.bare, Expr.bareOperand_all, ha, hi]
  rfl

theorem index {receiver key : Expr} (h : receiver.form.Restores d)
    (hnoPrefix : receiver.form.isPrefix = false) (hkey : key.form.Restores d) :
    (index receiver key).Restores d := by
  intro b rest _
  refine .of_access rfl rfl ?_
  simp only [ExprForm.tokens, List.append_assoc, List.cons_append, List.nil_append]
  refine (h.receiver hnoPrefix).access (by simp; omega) fun a ha => .facing rfl fun _ => ?_
  refine .bind (.take rfl rfl) fun _ _ => .bind (hkey.rule rfl fun _ => by rintro ⟨⟩) fun k hk => ?_
  refine .bind_pure (.symbol _ _) fun _ _ => ⟨_, rfl, ?_⟩
  simp only [Expr.bare_mk, ExprForm.bare, Expr.bareOperand_all, Blanks.within_all, ha, hk]

theorem call {callee : Expr} (h : callee.form.Restores d) (hnoPrefix : callee.form.isPrefix = false)
    (hes : ∀ e ∈ es, e.form.Restores d) : (call callee es).Restores d := by
  intro b rest _
  refine .of_access rfl rfl ?_
  simp only [ExprForm.tokens, List.append_assoc, List.cons_append, List.nil_append]
  refine (h.receiver hnoPrefix).access (by simp; omega) fun a ha => .facing rfl fun _ => ?_
  refine .bind (.take rfl rfl) fun _ _ => ?_
  refine .bind_pure (listed hes (by rintro ⟨⟩) rfl rfl) fun read hread => ⟨_, rfl, ?_⟩
  simp only [Expr.bare_mk, ExprForm.bare, Expr.bareOperand_all, Blanks.within_all, ha, hread]

/-! ## Operators -/

theorem negate {operand : Expr} (h : operand.form.Restores d) : (negate operand).Restores d := by
  intro b rest hends
  have hread := h.operand (b := b) (Nat.le_refl 6) (hends.bond (.inl rfl)) hends.noTo
  refine .of_primary rfl rfl (.facing rfl fun _ => .bind (.take rfl rfl) fun _ _ => ?_)
  rw [show Rules.tied.operand = _ from Rules.tied_tier .operand]
  exact .bind_pure hread fun e he => by
    simp only [Expr.bare_mk, ExprForm.bare, Expr.bareOperand_all, he]

theorem range {first last : Expr} (hfirst : first.form.Restores d) (hlast : last.form.Restores d) :
    (range first last).Restores d := by
  intro b rest hends
  have hbond : (next rest).bond < 5 := hends.bond (.inr (by simp [Layout.strength]))
  refine .of_operator (by simp [Layout.strength]) ?_
  simp only [ExprForm.tokens, List.append_assoc, List.cons_append]
  refine .bind (hfirst.operand (Nat.le_refl 6) (show 5 < 6 by omega) fun _ => by rintro ⟨⟩) fun a ha => ?_
  refine .accept?_some rfl rfl (by rintro ⟨⟩) fun u => ?_
  refine .bind_pure (hlast.operand (Nat.le_refl 6) (by omega) hends.noTo) fun a' ha' => ?_
  simp only [Expr.bare_mk, ExprForm.bare, Expr.bareOperand_all, ha, ha']

/-- **An operator in the middle**: what stands left of it is read one level tighter, and what stands right
of it on the same level. -/
theorem binary {sign : Symbol} {k : Nat} {rule : Parse Expr} (hrule : rule = Parse.level k .tied)
    (hleft : left.form.Restores d) (hright : right.form.Restores d) (hstrength : Layout.strength form = k)
    (hk : k < 6) (hsign : (Terminal.symbol sign).bond = k)
    (htokens : ∀ b, form.tokens d.keywords b =
      left.operandTokens d.keywords b (k + 1) ++ .ofSymbol sign :: right.operandTokens d.keywords b k)
    (hruns : form.endsInRun = right.operandEndsInRun k)
    (hread : ∀ b ts behind rest,
      Gives d (Parse.level (k + 1) .tied) ts (·.bare .all = left.bareOperand b (k + 1)) (.ofSymbol sign :: behind) →
      Gives d rule behind (·.bare .all = right.bareOperand b k) rest →
      Gives d (Parse.level k .tied) ts (·.bare .all = ⟨{}, form.bare b⟩) rest) :
    form.Restores d := by
  intro b rest hends
  refine .of_operator (hstrength ▸ hk) ?_
  rw [hstrength, htokens, List.append_assoc, List.cons_append]
  refine hread b _ _ _ (hleft.operand hk ?_ fun _ => nofun)
    (hrule ▸ hright.operand (Nat.le_of_lt hk) ?_ fun hrun => ?_)
  · show (Terminal.symbol sign).bond < k + 1
    omega
  · exact hstrength ▸ hends.bond (.inr (hstrength ▸ hk))
  · exact hends.noTo (hruns ▸ hrun)

theorem arithmetic {operator : Arithmetic} (hleft : left.form.Restores d) (hright : right.form.Restores d) :
    (arithmetic left operator right).Restores d := by
  refine binary (k := 4) (Rules.tied_tier .sum) hleft hright rfl (by omega) (by cases operator <;> rfl) (fun _ => rfl) rfl
    fun b ts behind rest hone htwo => ?_
  refine .bind hone fun a ha => .facing rfl fun span => ?_
  rw [show Parse.arithmetic? (Token.terminal ⟨_, _, span⟩) = some operator by cases operator <;> rfl]
  refine .bind (.take rfl rfl) fun _ _ => .bind_pure htwo fun a' ha' => ?_
  simp only [Expr.bare_mk, ExprForm.bare, Expr.bareOperand_all, ha, ha']

theorem equal {negated : Bool} (hleft : left.form.Restores d) (hright : right.form.Restores d) :
    (equal left negated right).Restores d := by
  refine binary (k := 3) (Rules.tied_tier .equality) hleft hright rfl (by omega) (by cases negated <;> rfl) (fun _ => rfl) rfl
    fun b ts behind rest hone htwo => ?_
  refine .bind hone fun a ha => .facing rfl fun span => ?_
  cases negated <;>
  · refine .bind (.take rfl rfl) fun _ _ => .bind_pure htwo fun a' ha' => ?_
    simp only [Expr.bare_mk, ExprForm.bare, Expr.bareOperand_all, ha, ha']

theorem compare {operator : Comparison} (hleft : left.form.Restores d) (hright : right.form.Restores d) :
    (compare left operator right).Restores d := by
  refine binary (k := 2) (Rules.tied_tier .comparison) hleft hright rfl (by omega) (by cases operator <;> rfl) (fun _ => rfl) rfl
    fun b ts behind rest hone htwo => ?_
  refine .bind hone fun a ha => .facing rfl fun span => ?_
  rw [show Parse.comparison? (Token.terminal ⟨_, _, span⟩) = some operator by cases operator <;> rfl]
  refine .bind (.take rfl rfl) fun _ _ => .bind_pure htwo fun a' ha' => ?_
  simp only [Expr.bare_mk, ExprForm.bare, Expr.bareOperand_all, ha, ha']

/-- An assignment is written as the loosest expression, and read as the tightest that it can be: it ends
where any expression does. -/
theorem assign {target value : Expr} (htarget : target.form.Restores d)
    (hvalue : value.form.Restores d) (hisTarget : target.form.isTarget = true) :
    (assign target value).Restores d := by
  intro b rest hends
  have hbond : (next rest).bond < 1 := hends.bond (.inr (by simp [Layout.strength]))
  refine .of_operator (by simp [Layout.strength]) (.loosen (k := 1) (l := 3) (by omega) (by omega) ?_ hbond)
  simp only [ExprForm.tokens, List.append_assoc, List.cons_append]
  have hsum (more : List Token) : Gives d (Parse.level 4 .tied)
      (target.operandTokens d.keywords b 6 ++ .ofSymbol .assign :: more) (·.bare .all = target.bareOperand b 6)
      (.ofSymbol .assign :: more) :=
    .loosen (by omega) (Nat.le_refl 6) (htarget.operand (Nat.le_refl 6) (show 3 < 6 by omega) fun _ => by rintro ⟨⟩)
      (show 3 < 4 by omega)
  refine .bind (hsum _) fun a ha => .facing rfl fun _ => .bind (.take rfl rfl) fun _ _ => ?_
  refine .bind (hvalue.rule (by omega) hends.noTo) fun a' ha' => ?_
  have hform : a.form.isTarget = true := by
    rw [← ExprForm.isTarget_bare .all, ← Expr.bare_form, ha, Expr.bareOperand_eq, Expr.bare_form,
      ExprForm.isTarget_bare, hisTarget]
  simp only [hform, if_true]
  exact .pure (by simp only [Expr.bare_mk, ExprForm.bare, Expr.bareOperand_all, ha, ha'])

theorem conditional {condition consequent alternate : Expr} (hcondition : condition.form.Restores d)
    (hconsequent : consequent.form.Restores d) (halternate : alternate.form.Restores d) :
    (conditional condition consequent alternate).Restores d := by
  intro b rest hends
  have hbond : (next rest).bond < 1 := hends.bond (.inr (by simp [Layout.strength]))
  refine .of_operator (by simp [Layout.strength]) ?_
  simp only [ExprForm.tokens, List.append_assoc, List.cons_append]
  refine .bind (hcondition.operand (show 2 ≤ 6 by omega) (show 1 < 2 by omega) fun _ => by rintro ⟨⟩)
    fun a ha => ?_
  refine .accept?_some rfl rfl (by rintro ⟨⟩) fun u => ?_
  refine .bind (hconsequent.rule rfl fun _ => by rintro ⟨⟩) fun a' ha' => .bind (.symbol _ _) fun _ _ => ?_
  refine .bind_pure (halternate.rule (by omega) hends.noTo) fun c hc => ?_
  simp only [Expr.bare_mk, ExprForm.bare, Expr.bareOperand_all, ha, ha', hc]

end ExprForm.Restores

/-! ## Objects -/

/-- A property whose value is read back. A short one has the value that its key is the name of. -/
def Property.Restores (d : Dialect) (p : Property) : Prop :=
  if p.short then p.value.form = .name p.key else p.value.form.Restores d

theorem Token.ofKey_cases (kw : KeywordTable) (key : String) :
    (Token.ofKey kw key).kind = .text key ∨
      ((Token.ofKey kw key).terminal == .name || (Token.ofKey kw key).kind.isKeyword) = true ∧
        (Token.ofKey kw key).lexeme = key := by
  unfold Token.ofKey
  split
  · right
    unfold Token.ofWord
    split <;> exact ⟨rfl, rfl⟩
  · exact .inl rfl

section

variable {d : Dialect} {rest : List Token}

theorem Gives.propertyKey (key : String) :
    Gives d Parse.propertyKey (.ofKey d.keywords key :: rest) (·.1.name = key) rest := by
  have htrivia := Token.isTrivia_ofKey key d.keywords
  have hcases := Token.ofKey_cases d.keywords key
  generalize Token.ofKey d.keywords key = t at htrivia hcases
  refine .facing htrivia fun _ => ?_
  rcases hcases with hkind | ⟨hword, rfl⟩
  · rw [hkind]
    exact .bind_pure (.take htrivia (Token.isEnd_of_kind hkind nofun)) fun _ _ => rfl
  · have hname : Gives d _ _ _ rest := .word htrivia hword
    obtain ⟨kind, lexeme, span⟩ := t
    cases kind with
    | name => exact .bind_pure hname fun i hi => congrArg Ident.name hi
    | keyword k => exact .bind_pure hname fun i hi => congrArg Ident.name hi
    | _ => cases hword

theorem Property.Restores.reads {p : Property} (h : p.Restores d) {b : Blanks}
    (hrest : next rest = .symbol .comma ∨ next rest = .symbol .rightBrace) :
    Gives d (Parse.property .tied) (p.tokens d.keywords b ++ rest) (·.bare .all = p.bare b) rest := by
  obtain ⟨key, short, value⟩ := p
  unfold Property.Restores at h
  cases short with
  | true =>
    have hbare : Property.bare b ⟨key, true, value⟩ = ⟨key, true, ⟨{}, .name key⟩⟩ := by
      obtain ⟨span, form⟩ := value
      cases (show form = .name key from h)
      rfl
    have hname : Gives d Parse.propertyName (.ofName key :: rest) (·.bare = ⟨key, {}⟩) rest := .word rfl rfl
    have hcolon : next rest ≠ .symbol .colon := by rcases hrest with hrest | hrest <;> (rw [hrest]; exact nofun)
    have hkey : Gives d Parse.propertyKey (.ofName key :: rest) (fun k => k.1.name = key ∧ k.2 = true) rest :=
      .facing rfl fun _ => .bind_pure hname fun i hi => ⟨congrArg Ident.name hi, rfl⟩
    refine .bind hkey ?_
    rintro ⟨k, canBeShort⟩ ⟨rfl, rfl⟩
    refine .accept_false hcolon ?_
    exact .pure hbare.symm
  | false =>
    have hvalue : Gives d Rules.tied.expression (value.tokens d.keywords b ++ rest) (·.bare .all = value.bare b)
        rest := by
      rcases hrest with hrest | hrest <;>
        exact ExprForm.Restores.rule h (by rw [hrest]; rfl) fun _ => by rw [hrest]; exact nofun
    refine .bind (.propertyKey key) fun k hk => ?_
    refine .accept_true rfl rfl nofun ?_
    exact .bind_pure hvalue fun e he => by rw [Property.bare, hk, he]; rfl

theorem Property.next_tokens_ne (kw : KeywordTable) (b : Blanks) (p : Property) (rest : List Token) :
    next (p.tokens kw b ++ rest) ≠ .symbol .rightBrace := by
  obtain ⟨key, short, value⟩ := p
  cases short with
  | true => rintro ⟨⟩
  | false =>
    show next (.ofKey kw key :: _) ≠ _
    rw [Token.next_cons_of_not_trivia (Token.isTrivia_ofKey key kw)]
    rcases Token.ofKey_cases kw key with hkind | ⟨hword, _⟩
    · rw [Token.terminal, hkind]
      rintro ⟨⟩
    · intro hbrace
      cases hkind : (Token.ofKey kw key).kind <;>
        simp_all [Token.terminal, TokenKind.terminal, TokenKind.isKeyword]

theorem ExprForm.Restores.object {ps : List Property} (h : ∀ p ∈ ps, p.Restores d) :
    (ExprForm.object ps).Restores d := by
  intro b rest _
  refine .of_primary rfl rfl ?_
  simp only [ExprForm.tokens, List.cons_append, List.append_assoc, List.nil_append, Property.tokensOf_eq]
  refine .facing rfl fun _ => .bind (.take rfl rfl) fun _ _ => ?_
  refine .bind_pure (.listed (g := Property.bare b.within) (by rintro ⟨⟩) fun p hp more hmore =>
    ⟨Property.next_tokens_ne _ _ p more, (h p hp).reads hmore⟩) fun read hread => ?_
  simp only [Expr.bare_mk, ExprForm.bare, Blanks.within_all, Property.bareOf_eq, hread]

end

/-! ## Blocks -/

def Terminal.closes : Terminal → Bool
  | .keyword .endKw => true
  | .keyword .elseKw => true
  | .keyword .toKw => true
  | .keyword .breakKw => true
  | .keyword .caseKw => true
  | .keyword .defaultKw => true
  | .endOfFile => true
  | _ => false

/-- **The layout of a block can be read back**, in front of a token that ends the block. -/
def Block.Restores (d : Dialect) (block : Block) : Prop :=
  ∀ (b : Blanks) (terminators : List Terminal) (rest : List Token),
    (∀ t ∈ terminators, t.closes = true) → Token.stops terminators rest = true →
    (next rest = .keyword .toKw → block.endsInRun = false) →
    Gives d (Parse.blockUntil .tied terminators) (block.tokens d.keywords b ++ rest)
      (·.bare .all = block.bare b) rest

section

variable {d : Dialect} {block : Block} {b : Blanks} {rest : List Token}

theorem Block.Restores.toEnd (h : block.Restores d) (what : String) :
    Gives d (Parse.blockToEnd .tied what) (block.tokens d.keywords b ++ .ofKeyword .endKw :: rest)
      (·.bare .all = block.bare b) rest :=
  .bind (h b [.keyword .endKw] (.ofKeyword .endKw :: rest) (by simp [Terminal.closes]) rfl nofun)
    fun _ hb => .bind_pure (.keyword _ _) fun _ _ => hb

theorem ExprForm.Restores.lambda {params : List Ident} (h : block.Restores d) :
    (ExprForm.lambda params block).Restores d := by
  intro b rest _
  refine .of_primary rfl rfl ?_
  simp only [ExprForm.tokens, List.cons_append, List.append_assoc, List.nil_append]
  refine .facing rfl fun _ => .bind (.take rfl rfl) fun _ _ => ?_
  refine .bind (.paramList params) fun ps hps => .bind (.symbol _ _) fun _ _ => ?_
  exact .bind_pure (h.toEnd _) fun body hb => by rw [Expr.bare_mk, ExprForm.bare, hps, hb]; rfl

/-! ## Switches -/

theorem Token.next_of_stops {terminators : List Terminal} {ts : List Token}
    (hterminators : ∀ t ∈ terminators, t.closes = true) (h : Token.stops terminators ts = true) :
    Token.head ts = next ts ∧ (next ts = .endOfFile ∨ next ts ∈ terminators) := by
  have hmem : Token.head ts = .endOfFile ∨ Token.head ts ∈ terminators := by
    unfold Token.stops at h
    rw [Bool.or_eq_true, beq_iff_eq, List.contains_iff_mem] at h
    exact h
  have hcloses : (Token.head ts).closes = true := by
    rcases hmem with heq | hmem
    · rw [heq]
      rfl
    · exact hterminators _ hmem
  have hnext : Token.head ts = next ts := by
    cases ts with
    | nil => rfl
    | cons t rest =>
      rw [Token.head_cons] at hcloses ⊢
      rw [Token.next_cons_of_not_trivia]
      rw [Token.isTrivia_eq, Bool.or_eq_false_iff]
      constructor <;> cases hterminal : t.terminal <;>
        first | rfl | (rw [hterminal] at hcloses; cases hcloses)
  exact ⟨hnext, hnext ▸ hmem⟩

/-- A case whose test and whose body are read back. -/
structure Case.Restores (d : Dialect) (c : Case) : Prop where
  test : ∀ e ∈ c.test, e.form.Restores d
  body : c.body.Restores d

def Case.terminators : List Terminal :=
  [.keyword .breakKw, .keyword .caseKw, .keyword .defaultKw, .keyword .endKw]

theorem Case.closes_terminators : ∀ t ∈ Case.terminators, t.closes = true := by
  simp [Case.terminators, Terminal.closes]

/-- **A case is read back** in front of another one, or of the end of the switch. It ends in a break, unless its
body gives its result. -/
theorem Case.Restores.reads {c : Case} (h : c.Restores d)
    (hrest : Token.stops Case.terminators rest = true) (hbreak : next rest ≠ .keyword .breakKw) :
    Gives d (Parse.switchCase .tied) (c.tokens d.keywords b ++ rest) (·.bare .all = c.bare b) rest := by
  obtain ⟨span, test, body⟩ := c
  -- what follows the test of the case
  have hbehind {span : Span} {test' : Option Expr} (htest : test'.map (Expr.bare .all) = test.map (Expr.bare b)) :
      Gives d (Parse.caseRest .tied span test') (.ofSymbol .colon :: (body.caseTokens d.keywords b ++ rest))
        (·.bare .all = Case.bare b ⟨span, test, body⟩) rest := by
    have hcase {body' : Block} (hb : body'.bare .all = body.bare b) :
        Case.bare .all ⟨span, test', body'⟩ = Case.bare b ⟨span, test, body⟩ := by
      rw [Case.bare, Case.bare, htest, hb]
    have hgives {body' : Block} (hb : body'.bare .all = body.bare b) : body'.endsInGive = body.endsInGive := by
      rw [← Block.endsInGive_bare .all, hb, Block.endsInGive_bare]
    refine .bind (.symbol _ _) fun _ _ => ?_
    rw [Block.caseTokens_eq]
    cases hgive : body.endsInGive with
    | true =>
      have hto : next rest ≠ .keyword .toKw := by
        intro hto
        obtain ⟨_, hend | hmem⟩ := Token.next_of_stops Case.closes_terminators hrest
        · rw [hto] at hend
          cases hend
        · rw [hto] at hmem
          simp [Case.terminators] at hmem
      rw [if_pos rfl, List.append_nil]
      refine .bind (h.body b Case.terminators rest Case.closes_terminators hrest fun heq => absurd heq hto)
        fun body' hb => ?_
      rw [hgives hb, hgive]
      exact .accept_false hbreak (.pure (hcase hb))
    | false =>
      rw [if_neg (by decide), List.append_assoc]
      refine .bind (h.body b Case.terminators _ Case.closes_terminators rfl (by rintro ⟨⟩)) fun body' hb => ?_
      rw [hgives hb, hgive]
      exact .bind_pure (.keyword _ _) fun _ _ => hcase hb
  cases test with
  | none =>
    refine .bind (.take rfl rfl) fun u hu => ?_
    rw [Token.terminal_of_bare hu]
    exact hbehind rfl
  | some e =>
    have htokens : Case.tokens d.keywords b ⟨span, some e, body⟩ ++ rest =
        .ofKeyword .caseKw :: (e.tokens d.keywords b ++ .ofSymbol .colon ::
          (body.caseTokens d.keywords b ++ rest)) := by
      simp [Case.tokens]
    rw [htokens]
    refine .bind (.take rfl rfl) fun u hu => ?_
    rw [Token.terminal_of_bare hu]
    exact .bind ((h.test e rfl).rule rfl fun _ => by rintro ⟨⟩) fun e' he' => hbehind (congrArg some he')

theorem Case.stops_tokensOf (kw : KeywordTable) (b : Blanks) (cs : List Case) (rest : List Token) :
    Token.stops Case.terminators (Case.tokensOf kw b cs ++ .ofKeyword .endKw :: rest) = true ∧
      next (Case.tokensOf kw b cs ++ .ofKeyword .endKw :: rest) ≠ .keyword .breakKw := by
  cases cs with
  | nil => exact ⟨rfl, nofun⟩
  | cons c others =>
    obtain ⟨span, test, body⟩ := c
    cases test <;> exact ⟨rfl, nofun⟩

theorem Case.chain {cs : List Case} (h : ∀ c ∈ cs, c.Restores d) :
    Chain (fun ts c mid => next ts ≠ .keyword .endKw ∧ Gives d (Parse.switchCase .tied) ts (·.bare .all = c) mid)
      (fun ts => next ts = .keyword .endKw)
      (Case.tokensOf d.keywords b cs ++ .ofKeyword .endKw :: rest) (Case.bareOf b cs)
      (.ofKeyword .endKw :: rest) := by
  rw [Case.bareOf_eq]
  induction cs with
  | nil => exact .nil rfl
  | cons c cs ih =>
    obtain ⟨hhere, hothers⟩ := List.forall_mem_cons.mp h
    obtain ⟨hstops, hbreak⟩ := Case.stops_tokensOf d.keywords b cs rest
    rw [Case.tokensOf_cons, List.append_assoc]
    refine .cons ⟨?_, hhere.reads hstops hbreak⟩ ?_ (List.suffix_append _ _) (ih hothers)
    · obtain ⟨span, test, body⟩ := c
      cases test <;> exact nofun
    · obtain ⟨span, test, body⟩ := c
      cases test <;> simp [Case.tokens] <;> omega

theorem ExprForm.Restores.switch {subject : Expr} {cs : List Case} (h : subject.form.Restores d)
    (hcs : ∀ c ∈ cs, c.Restores d) : (ExprForm.switch subject cs).Restores d := by
  intro b rest _
  refine .of_primary rfl rfl ?_
  simp only [ExprForm.tokens, List.cons_append, List.append_assoc, List.nil_append]
  refine .facing rfl fun _ => .bind (.take rfl rfl) fun _ _ => ?_
  refine .bind (h.rule rfl fun _ => by rintro ⟨⟩) fun e he => .bind (.symbol _ _) fun _ _ => ?_
  refine .bind ((Case.chain hcs).loops (f := Case.bare .all) (fun ts' read hstop => ?_)
    (fun ts' c mid read hc => ?_) []).rounds ?_
  · refine .sees ?_
    rw [hstop, beq_self_eq_true]
    exact .pure rfl
  · refine .sees ?_
    rw [beq_eq_false_iff_ne.mpr hc.1]
    exact .bind_pure hc.2 fun c' hc' => ⟨c', rfl, hc'⟩
  · rintro _ ⟨read, rfl, hread⟩
    refine .bind_pure (.keyword _ _) fun _ _ => ?_
    rw [Expr.bare_mk, ExprForm.bare, he, Case.bareOf_eq]
    simpa [ExprForm.bare] using hread

/-! ## Tasks -/

def Continuation.terminators : List Terminal :=
  [.keyword .toKw, .keyword .endKw]

def Continuation.Step (d : Dialect) (ts : List Token) (c : Continuation) (rest : List Token) : Prop :=
  Gives d (Parse.continuation? .tied) ts (fun o => ∃ c', o = some c' ∧ c'.bare .all = c) rest

theorem Continuation.reads {c : Continuation} (h : c.body.Restores d)
    (hrest : Token.stops Continuation.terminators rest = true)
    (hto : next rest = .keyword .toKw → c.body.endsInRun = false) :
    Continuation.Step d (c.tokens d.keywords b ++ rest) (c.bare b) rest := by
  rw [Continuation.tokens_eq]
  simp only [List.cons_append, List.append_assoc]
  refine .accept?_some rfl rfl nofun fun u => ?_
  refine .bind (.paramList c.params) fun ps hps => .bind (.symbol _ _) fun _ _ => ?_
  refine .bind_pure (h b Continuation.terminators rest (by simp [Continuation.terminators, Terminal.closes])
    hrest hto) fun body hb => ⟨_, rfl, ?_⟩
  rw [Continuation.bare, hps, hb]
  rfl

theorem Continuation.stops_tokensOf (kw : KeywordTable) (b : Blanks) (cs : List Continuation)
    (rest : List Token) :
    Token.stops Continuation.terminators
      (Continuation.tokensOf kw b cs ++ .ofKeyword .endKw :: rest) = true := by
  cases cs with
  | nil => rfl
  | cons c others =>
    cases c
    rfl

theorem Continuation.chain {cs : List Continuation} (h : ∀ c ∈ cs, c.body.Restores d)
    (hruns : Continuation.runsApart cs = true) :
    Chain (Continuation.Step d) (fun ts => next ts ≠ .keyword .toKw)
      (Continuation.tokensOf d.keywords b cs ++ .ofKeyword .endKw :: rest)
      (Continuation.bareOf b cs) (.ofKeyword .endKw :: rest) := by
  rw [Continuation.bareOf_eq]
  induction cs with
  | nil => exact .nil nofun
  | cons c cs ih =>
    obtain ⟨hhere, hothers⟩ := List.forall_mem_cons.mp h
    rw [Continuation.tokensOf, List.append_assoc]
    have hto : next (Continuation.tokensOf d.keywords b cs ++ .ofKeyword .endKw :: rest)
        = .keyword .toKw → c.body.endsInRun = false := by
      cases cs with
      | nil => rintro ⟨⟩
      | cons c' cs =>
        rw [Continuation.runsApart, Bool.and_eq_true] at hruns
        exact fun _ => by simpa using hruns.1
    have hapart : Continuation.runsApart cs = true := by
      cases cs with
      | nil => rfl
      | cons c' cs => exact (Bool.and_eq_true_iff.mp hruns).2
    refine .cons (Continuation.reads hhere (Continuation.stops_tokensOf _ _ cs rest) hto) ?_
      (List.suffix_append _ _) (ih hothers hapart)
    rw [Continuation.tokens_eq]
    simp only [List.cons_append, List.length_cons, List.length_append]
    omega

theorem ExprForm.endsInRun_of_isCall (h : form.isCall = true) : form.endsInRun = false := by
  cases form <;> first | rfl | cases h

theorem ExprForm.strength_of_isCall (h : form.isCall = true) : Layout.strength form = 6 := by
  cases form <;> first | rfl | cases h

theorem ExprForm.Restores.run {call : Expr} {cs : List Continuation} (h : call.form.Restores d)
    (hisCall : call.form.isCall = true) (hcs : ∀ c ∈ cs, c.body.Restores d)
    (hruns : Continuation.runsApart cs = true) : (ExprForm.run call cs).Restores d := by
  intro b rest hends
  have hbond : (next rest).bond < 6 := hends.bond (.inl rfl)
  have hstrength := ExprForm.strength_of_isCall hisCall
  have hrun : Gives d (Parse.run .tied) ((ExprForm.run call cs).tokens d.keywords b ++ rest)
      (·.bare .all = ⟨{}, (ExprForm.run call cs).bare b⟩) rest := by
    rw [ExprForm.tokens_run]
    simp only [List.cons_append, List.append_assoc]
    refine .bind (.take rfl rfl) fun _ _ => ?_
    -- the call is read as an operand, and the continuations behind it
    have hcall {more : List Token} (hmore : (next more).bond < 6)
        (hbehind : Gives d (Parse.continuations .tied) more (Continuation.bareOf .all · = Continuation.bareOf b cs)
          rest) (span : Span) : Gives d (do
            let call ← Rules.tied.operand
            if call.form.isCall then return ⟨span, .run call (← Parse.continuations .tied)⟩
            else Parse.fail .notRunnable call.span : Parse Expr) (call.tokens d.keywords b ++ more)
          (·.bare .all = ⟨{}, (ExprForm.run call cs).bare b⟩) rest := by
      have hread : Gives d (Parse.level 6 .tied) (call.tokens d.keywords b ++ more) (·.bare .all = call.bare b)
          more := by
        refine h.level (by omega) hmore fun hrun => ?_
        rw [Expr.endsInRun_eq, ExprForm.endsInRun_of_isCall hisCall] at hrun
        cases hrun
      rw [show Rules.tied.operand = _ from Rules.tied_tier .operand]
      refine .bind hread fun e he => ?_
      have hform : e.form.isCall = true := by
        rw [← ExprForm.isCall_bare .all, ← Expr.bare_form, he, Expr.bare_form, ExprForm.isCall_bare, hisCall]
      simp only [hform, if_true]
      exact .bind_pure hbehind fun read hread => by
        rw [Expr.bare_mk, ExprForm.bare, he, hread]
        rfl
    cases cs with
    | nil =>
      -- nothing may follow that would be taken for a continuation of this run
      refine hcall hbond (.sees ?_) _
      rw [beq_eq_false_iff_ne.mpr (hends.noTo rfl)]
      exact .pure rfl
    | cons c cs =>
      simp only [List.isEmpty_cons, Bool.false_eq_true, if_false, List.append_assoc, List.cons_append,
        List.nil_append]
      have hnext : next (Continuation.tokensOf d.keywords b (c :: cs) ++ .ofKeyword .endKw :: rest)
          = .keyword .toKw := by
        cases c
        rfl
      refine hcall (by rw [hnext]; decide) (.sees ?_) _
      rw [hnext, beq_self_eq_true]
      refine .bind ((Continuation.chain hcs hruns).loops (f := Continuation.bare .all) (fun ts' read hstop => ?_)
        (fun ts' c' mid read hc => ?_) []).rounds ?_
      · have hnone : Gives d (Parse.continuation? .tied) ts' (· = none) ts' :=
          .accept?_none hstop (.pure rfl)
        refine .bind hnone ?_
        rintro _ rfl
        exact .pure rfl
      · refine .bind hc ?_
        rintro _ ⟨c', rfl, hc'⟩
        exact .pure ⟨c', rfl, hc'⟩
      · rintro _ ⟨read, rfl, hread⟩
        refine .bind_pure (.keyword _ _) fun _ _ => ?_
        rw [Continuation.bareOf_eq]
        simpa using hread
  refine ⟨fun _ => .of_primary ?_, fun hlt => absurd hlt (by simp [Layout.strength]), fun _ => hrun⟩
  rw [ExprForm.tokens_run] at hrun ⊢
  exact .facing rfl fun _ => hrun

theorem ExprForm.Restores.wait {awaited : Expr} (h : awaited.form.Restores d)
    (hlead : Layout.strength awaited.form = 6 → awaited.lead = .keyword .runKw →
      awaited.form.isRun = true) : (ExprForm.wait awaited).Restores d := by
  intro b rest hends
  have hbond : (next rest).bond < 6 := hends.bond (.inl rfl)
  have hread := h.operand (b := b) (Nat.le_refl 6) hbond hends.noTo
  refine .of_primary rfl rfl (.facing rfl fun _ => .bind (.take rfl rfl) fun _ _ => .sees ?_)
  have hwait {x : Parse Expr} {span : Span}
      (hx : Gives d x (awaited.operandTokens d.keywords b 6 ++ rest) (·.bare .all = awaited.bareOperand b 6) rest) :
      Gives d (x >>= fun e => Pure.pure (Expr.mk span (.wait e))) (awaited.operandTokens d.keywords b 6 ++ rest)
        (·.bare .all = ⟨{}, (ExprForm.wait awaited).bare b⟩) rest :=
    .bind_pure hx fun e he => by simp only [Expr.bare_mk, ExprForm.bare, Expr.bareOperand_all, he]
  cases hnext : next (awaited.operandTokens d.keywords b 6 ++ rest) == .keyword .runKw with
  | false =>
    refine hwait ?_
    rw [show Rules.tied.operand = _ from Rules.tied_tier .operand]
    exact hread
  | true =>
    refine hwait ?_
    rw [beq_iff_eq] at hnext
    by_cases hweak : Layout.strength awaited.form < 6
    · rw [Expr.operandTokens_eq, decide_eq_true hweak] at hnext
      cases hnext
    · rw [Expr.operandTokens_of_strong hweak, Expr.next_tokens] at hnext
      have hstrength : Layout.strength awaited.form = 6 := by
        have := awaited.form.strength_le
        omega
      have hto : awaited.form.endsInRun = true → next rest ≠ .keyword .toKw := by
        intro hrun
        refine hends.noTo ?_
        rw [ExprForm.endsInRun, Expr.operandEndsInRun_eq, decide_eq_false hweak, hrun]
        rfl
      have hrun := (h b rest ⟨fun _ => by omega, hto⟩).runs (hlead hstrength hnext)
      rw [Expr.operandTokens_of_strong hweak, Expr.tokens_eq, Expr.bareOperand_of_strong hweak]
      cases awaited
      exact hrun

end

end Trellis
