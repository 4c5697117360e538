import Trellis.Proofs.Layout.Expressions

/-!
# Reading statements back, form by form

For each form of statement there is a lemma that its tokens are read back, if those of its parts are and if
the statement may be followed by the next token. A list of statements is then read back up to a token that
ends its block (`Stmt.chain`). What a statement in the list is followed by is the lead of the others, which
is allowed in a well-formed list, or what ends the block, which is always allowed
(`StmtForm.allows_of_closes`).
-/

namespace Trellis

open Token (skip next)

structure StmtForm.Restored (d : Dialect) (form : StmtForm) (b : Blanks) (rest : List Token) : Prop where
  statement : Gives d Rules.tied.statement (form.tokens d.keywords b ++ rest)
    (·.bare .all = ⟨0, {}, form.bare b⟩) rest
  /-- A branch is read as such, behind the keyword for another one. -/
  branch : form.isBranch = true →
    Gives d Rules.tied.branch (form.tokens d.keywords b ++ rest) (·.bare .all = ⟨0, {}, form.bare b⟩) rest

/-- What may stand behind the tokens of a statement. -/
structure StmtForm.EndsAt (form : StmtForm) (rest : List Token) : Prop where
  allows : form.allows (next rest) = true
  noTo : form.endsInRun = true → next rest ≠ .keyword .toKw

def StmtForm.Restores (d : Dialect) (form : StmtForm) : Prop :=
  ∀ b rest, form.EndsAt rest → form.Restored d b rest

def Alternate.Restores (d : Dialect) : Alternate → Prop
  | .block b => b.Restores d
  | .branch s => s.form.isBranch = true ∧ s.form.Restores d

theorem StmtForm.skip_tokens (kw : KeywordTable) (b : Blanks) {form : StmtForm}
    (h : form.isTrivia = false) (more : List Token) :
    skip (form.tokens kw b ++ more) = form.tokens kw b ++ more := by
  obtain ⟨t, rest, htokens, ht⟩ := form.exists_tokens kw b
  rw [htokens, List.cons_append, Token.skip_cons_of_not_trivia]
  rw [Token.isTrivia_eq, ht, ← StmtForm.isTrivia_eq, h]

section

variable {d : Dialect} {form wanted : StmtForm} {b : Blanks} {ts rest : List Token}

theorem Gives.ofForm {span : Span} (h : form.bare .all = wanted) :
    Gives d (Parse.statementOf form span) ts (·.bare .all = ⟨0, {}, wanted⟩) ts := by
  subst h
  exact .bind_pure .freshId fun _ _ => rfl

theorem StmtForm.Restored.statement_proper (htrivia : form.isTrivia = false)
    (h : Gives d (Parse.properStatement .tied) (form.tokens d.keywords b ++ rest)
      (·.bare .all = ⟨0, {}, form.bare b⟩) rest) :
    Gives d Rules.tied.statement (form.tokens d.keywords b ++ rest) (·.bare .all = ⟨0, {}, form.bare b⟩) rest := by
  rw [Rules.tied_statement]
  refine .front fun u hu => ?_
  obtain ⟨hcomment, hblank⟩ := Token.head_of_skip (form.skip_tokens d.keywords b htrivia rest)
  have hterminal : u.kind.terminal = Token.head (form.tokens d.keywords b ++ rest) := Token.terminal_of_bare hu
  split
  · rename_i hkind
    rw [hkind] at hterminal
    exact absurd hterminal.symm hcomment
  · rename_i hkind
    rw [hkind] at hterminal
    exact absurd hterminal.symm hblank
  · exact h

theorem StmtForm.Restored.of_proper (htrivia : form.isTrivia = false) (hbranch : form.isBranch = false)
    (h : Gives d (Parse.properStatement .tied) (form.tokens d.keywords b ++ rest)
      (·.bare .all = ⟨0, {}, form.bare b⟩) rest) : form.Restored d b rest :=
  ⟨statement_proper htrivia h, fun h => absurd h (by simp [hbranch])⟩

end

section

variable {d : Dialect} {rest : List Token} {block : Block} {terminators : List Terminal} {body : List Stmt}
  {t : Terminal} {name : Ident}

/-! ## Modules -/

theorem Pick.reads (p : Pick) (hrest : next rest ≠ .keyword .asKw) :
    Gives d Parse.pick (p.tokens ++ rest) (·.bare = p.bare) rest := by
  obtain ⟨name, called⟩ := p
  refine .bind (.name name _) fun i hi => ?_
  cases called with
  | none =>
    refine .accept_false hrest ?_
    exact .pure (by rw [Pick.bare, hi]; rfl)
  | some other =>
    refine .accept_true rfl rfl nofun ?_
    exact .bind_pure (.name other _) fun j hj => by rw [Pick.bare, hi, Option.map_some, hj]; rfl

theorem Pick.readsOf (picks : List Pick) (hrest : next rest ≠ .keyword .pickKw) :
    Gives d Parse.picks (Pick.tokensOf picks ++ rest) (·.map Pick.bare = picks.map Pick.bare)
      rest := by
  cases picks with
  | nil =>
    refine .accept_false hrest ?_
    exact .pure rfl
  | cons p others =>
    have htokens : Pick.tokensOf (p :: others) ++ rest = .ofKeyword .pickKw ::
        .ofSymbol .leftParen :: (Token.listed ((p :: others).map Pick.tokens) ++
          .ofSymbol .rightParen :: rest) := by
      simp [Pick.tokensOf]
    rw [htokens]
    refine .accept_true rfl rfl (by rintro ⟨⟩) ?_
    refine .bind (.symbol _ _) fun _ _ => .listed (by rintro ⟨⟩) fun q _ more hmore => ⟨(by rintro ⟨⟩), q.reads ?_⟩
    rcases hmore with hmore | hmore <;> (rw [hmore]; rintro ⟨⟩)

theorem StmtForm.Restores.useModule {source : String} {called : Option Ident} {picks : List Pick} :
    (StmtForm.useModule source called picks).Restores d := by
  intro b rest hends
  have hallows := hends.allows
  rw [StmtForm.allows, Bool.and_eq_true, bne_iff_ne, bne_iff_ne] at hallows
  refine .of_proper rfl rfl ?_
  simp only [StmtForm.tokens, List.cons_append, List.append_assoc]
  refine .facing rfl fun _ => .bind (.take rfl rfl) fun _ _ => .facing rfl fun _ => ?_
  refine .bind (.take rfl rfl) fun _ _ => ?_
  have hpicks {c : Option Ident} (hc : c.map Ident.bare = called.map Ident.bare) {span : Span} :
      Gives d (Parse.picks >>= fun picked => Parse.statementOf (.useModule source c picked) span)
        (Pick.tokensOf picks ++ rest) (·.bare .all = ⟨0, {}, (StmtForm.useModule source called picks).bare b⟩) rest :=
    .bind (Pick.readsOf picks hallows.2) fun picked hpicked =>
      .ofForm (by rw [StmtForm.bare, hc, hpicked]; rfl)
  cases called with
  | none =>
    have hnext : next (Pick.tokensOf picks ++ rest) ≠ .keyword .asKw := by
      cases picks with
      | nil => exact hallows.1
      | cons _ _ => rintro ⟨⟩
    refine .accept_false hnext ?_
    exact hpicks rfl
  | some other =>
    refine .accept_true rfl rfl (by rintro ⟨⟩) ?_
    exact .bind (.name other _) fun j hj => hpicks (c := some j) (congrArg some hj)

/-! ## Declarations -/

theorem StmtForm.Restores.expose {declaration : Stmt} (h : declaration.form.Restores d)
    (hdeclares : declaration.form.declaredName?.isSome = true) :
    (StmtForm.expose declaration).Restores d := by
  intro b rest hends
  obtain ⟨i, span, form⟩ := declaration
  refine .of_proper rfl rfl (.facing rfl fun _ => .bind (.take rfl rfl) fun _ _ => ?_)
  refine .bind (h b rest ⟨hends.allows, hends.noTo⟩).statement fun s hs => ?_
  have hform : s.form.declaredName?.isSome = true := by
    rw [← StmtForm.isSome_declaredName?_bare .all, ← Stmt.bare_form, hs, StmtForm.isSome_declaredName?_bare,
      hdeclares]
  simp only [hform, if_true]
  exact .ofForm (by rw [StmtForm.bare, hs]; rfl)

theorem Block.Restores.function (h : block.Restores d) (name : Ident)
    (params : List Ident) (b : Blanks) :
    Gives d (Parse.function .tied) (.ofKeyword .fnKw :: .ofName name.name :: .ofSymbol .leftParen ::
        (Ident.tokensOf params ++ .ofSymbol .rightParen :: .ofSymbol .colon ::
          (block.tokens d.keywords b ++ .ofKeyword .endKw :: rest)))
      (fun f => f.1.bare = name.bare ∧ f.2.1.map Ident.bare = params.map Ident.bare ∧
        f.2.2.bare .all = block.bare b) rest := by
  refine .bind (.take rfl rfl) fun _ _ => .bind (.name name _) fun i hi => ?_
  refine .bind (.paramList params) fun ps hps => .bind (.symbol _ _) fun _ _ => ?_
  exact .bind_pure (h.toEnd _) fun body hb => ⟨hi, hps, hb⟩

theorem StmtForm.Restores.declareFunction {params : List Ident} (h : block.Restores d) :
    (StmtForm.declareFunction name params block).Restores d := by
  intro b rest _
  refine .of_proper rfl rfl ?_
  simp only [StmtForm.tokens, List.cons_append, List.append_assoc, List.nil_append]
  refine .facing rfl fun _ => ?_
  -- a name behind the keyword tells the declaration from a function without one
  refine .peekSecond (Token.skip_cons_of_not_trivia rfl _) fun v hv => ?_
  rw [hv, Token.next_cons_of_not_trivia rfl, show ((Token.ofName name.name).terminal == .name) = true from rfl]
  refine .read fun _ => .bind (h.function name params b) ?_
  rintro ⟨i, ps, body⟩ ⟨hi, hps, hb⟩
  exact .ofForm (by rw [StmtForm.bare, hi, hps, hb]; rfl)

theorem StmtForm.Restores.declareTask {params : List Ident} (h : block.Restores d) :
    (StmtForm.declareTask name params block).Restores d := by
  intro b rest _
  refine .of_proper rfl rfl ?_
  simp only [StmtForm.tokens, List.cons_append, List.append_assoc, List.nil_append]
  refine .facing rfl fun _ => .bind (.take rfl rfl) fun _ _ => .sees ?_
  rw [Token.next_cons_of_not_trivia rfl, show ((Token.ofKeyword .fnKw).terminal == .keyword .fnKw) = true from rfl]
  refine .bind (h.function name params b) ?_
  rintro ⟨i, ps, body⟩ ⟨hi, hps, hb⟩
  exact .ofForm (by rw [StmtForm.bare, hi, hps, hb]; rfl)

theorem StmtForm.Restores.declare {constant : Bool} {value : Expr} (h : value.form.Restores d) :
    (StmtForm.declare name constant value).Restores d := by
  intro b rest hends
  refine .of_proper rfl rfl ?_
  have hdeclare : Gives d (Parse.declare .tied) ((StmtForm.declare name constant value).tokens d.keywords b ++ rest)
      (·.bare .all = ⟨0, {}, (StmtForm.declare name constant value).bare b⟩) rest := by
    refine .bind (.take rfl rfl) fun u hu => .bind (.name name _) fun i hi => ?_
    refine .bind (.symbol _ _) fun _ _ => ?_
    refine .bind (h.expression (beq_iff_eq.mp hends.allows) hends.noTo) fun e he => .ofForm ?_
    rw [StmtForm.bare, hi, he, Token.terminal_of_bare hu]
    cases constant <;> rfl
  cases constant <;> exact .facing rfl fun _ => hdeclare

/-! ## Results and expressions -/

theorem StmtForm.Restores.give {value : Expr} (h : value.form.Restores d) :
    (StmtForm.give (some value)).Restores d := by
  intro b rest hends
  have hstarts : Parse.startsExpression (next (value.tokens d.keywords b ++ rest)) = true := by
    rw [Expr.next_tokens]
    exact value.startsExpression_lead
  refine .of_proper rfl rfl ?_
  simp only [StmtForm.tokens, List.cons_append]
  refine .facing rfl fun _ => .bind (.take rfl rfl) fun _ _ => .peek fun u hu => ?_
  rw [Token.terminal_of_bare hu, Token.terminal_peek, hstarts]
  exact .bind (h.expression (beq_iff_eq.mp hends.allows) hends.noTo) fun e he =>
    .ofForm (by rw [StmtForm.bare, he]; rfl)

theorem StmtForm.Restores.giveNothing : (StmtForm.give none).Restores d := by
  intro b rest hends
  have hstarts : Parse.startsExpression (next rest) = false := by
    simpa [StmtForm.allows] using hends.allows
  refine .of_proper rfl rfl ?_
  simp only [StmtForm.tokens, List.cons_append, List.nil_append]
  refine .facing rfl fun _ => .bind (.take rfl rfl) fun _ _ => .peek fun u hu => ?_
  rw [Token.terminal_of_bare hu, Token.terminal_peek, hstarts]
  exact .ofForm rfl

theorem StmtForm.Restores.expression {e : Expr} (h : e.form.Restores d) : (StmtForm.expression e).Restores d := by
  intro b rest hends
  have hread : Gives d (Parse.expressionStatement .tied) ((StmtForm.expression e).tokens d.keywords b ++ rest)
      (·.bare .all = ⟨0, {}, (StmtForm.expression e).bare b⟩) rest :=
    .read fun _ => .bind (h.expression (beq_iff_eq.mp hends.allows) hends.noTo) fun _ he =>
      .ofForm (congrArg StmtForm.expression he)
  obtain ⟨t, others, htokens, ht, hfn⟩ := e.opens d.keywords b
  have hstarts : Parse.startsExpression t.terminal = true := ht ▸ e.startsExpression_lead
  have hskip : skip ((StmtForm.expression e).tokens d.keywords b ++ rest) = t :: (others ++ rest) := by
    rw [StmtForm.skip_tokens d.keywords b rfl, StmtForm.tokens, htokens, List.cons_append]
  refine .of_proper rfl rfl (.peek fun u hu => ?_)
  rw [Token.terminal_of_peek hskip hu]
  -- a function without a name has a parenthesis behind the keyword
  split
  case h_6 heq =>
    obtain ⟨behind, rfl⟩ := hfn (ht ▸ heq)
    refine .peekSecond hskip fun v hv => ?_
    rw [hv]
    exact hread
  case h_10 => exact hread
  all_goals
    rename_i heq
    rw [heq] at hstarts
    cases hstarts

/-! ## Branches and loops -/

def Parse.branchTerminators : List Terminal :=
  [.keyword .endKw, .keyword .elseKw]

theorem Alternate.Restores.reads {a : Alternate} (h : a.Restores d) (b : Blanks)
    (rest : List Token) :
    ∃ ts, a.tokens d.keywords b ++ rest = .ofKeyword .elseKw :: ts ∧
      Gives d (Parse.alternate .tied) ts (·.bare .all = a.bare b) rest := by
  cases a with
  | block block =>
    refine ⟨.ofSymbol .colon :: (block.tokens d.keywords b ++ .ofKeyword .endKw :: rest), by
      simp [Alternate.tokens], .sees ?_⟩
    rw [Token.next_cons_of_not_trivia rfl]
    refine .accept_true rfl rfl nofun ?_
    exact .bind_pure (Block.Restores.toEnd h _) fun body hb => congrArg Alternate.block hb
  | branch s =>
    obtain ⟨hbranch, hrestores⟩ := h
    obtain ⟨i, span, form⟩ := s
    have hends : form.EndsAt rest ∧ next (form.tokens d.keywords b ++ rest) = .keyword .ifKw := by
      cases form with
      | branch _ _ alternate => cases alternate <;> exact ⟨⟨rfl, nofun⟩, rfl⟩
      | _ => cases hbranch
    refine ⟨form.tokens d.keywords b ++ rest, rfl, .sees ?_⟩
    rw [hends.2, beq_self_eq_true]
    exact .bind_pure ((hrestores b rest hends.1).branch hbranch) fun s hs => congrArg Alternate.branch hs

theorem StmtForm.Restores.branch {condition : Expr} {consequent : Block} {other : Option Alternate}
    (h : condition.form.Restores d) (hbody : consequent.Restores d)
    (hother : ∀ a ∈ other, a.Restores d) :
    (StmtForm.branch condition consequent other).Restores d := by
  intro b rest _
  have hconsequent (k : Keyword) (more : List Token) (hk : k = .endKw ∨ k = .elseKw) :
      Gives d (Parse.blockUntil .tied Parse.branchTerminators)
        (consequent.tokens d.keywords b ++ .ofKeyword k :: more)
        (·.bare .all = consequent.bare b) (.ofKeyword k :: more) := by
    refine hbody b _ _ (by simp [Parse.branchTerminators, Terminal.closes]) ?_ ?_
    · rcases hk with rfl | rfl <;> rfl
    · rcases hk with rfl | rfl <;> rintro ⟨⟩
  have hbranch : Gives d (Parse.branch .tied)
      ((StmtForm.branch condition consequent other).tokens d.keywords b ++ rest)
      (·.bare .all = ⟨0, {}, (StmtForm.branch condition consequent other).bare b⟩) rest := by
    cases other with
    | none =>
      simp only [StmtForm.tokens, List.cons_append, List.append_assoc, List.nil_append]
      refine .bind (.take rfl rfl) fun _ _ => .bind (h.expression rfl fun _ => by rintro ⟨⟩) fun e he => ?_
      refine .bind (.symbol _ _) fun _ _ => .bind (hconsequent _ _ (.inl rfl)) fun body hb => ?_
      refine .accept_false (by rintro ⟨⟩) ?_
      exact .bind (.keyword _ _) fun _ _ => .ofForm (by rw [StmtForm.bare, he, hb]; rfl)
    | some a =>
      obtain ⟨ts, htokens, hread⟩ := (hother a rfl).reads b rest
      simp only [StmtForm.tokens, List.cons_append, List.append_assoc, htokens]
      refine .bind (.take rfl rfl) fun _ _ => .bind (h.expression rfl fun _ => by rintro ⟨⟩) fun e he => ?_
      refine .bind (.symbol _ _) fun _ _ => .bind (hconsequent _ _ (.inr rfl)) fun body hb => ?_
      refine .accept_true rfl rfl (by rintro ⟨⟩) ?_
      exact .bind hread fun a' ha' => .ofForm (by rw [StmtForm.bare, he, hb, ha']; rfl)
  have hbare : (StmtForm.branch condition consequent other).isTrivia = false := rfl
  have hnext := StmtForm.next_tokens d.keywords b hbare rest
  refine ⟨StmtForm.Restored.statement_proper rfl (.peek fun u hu => ?_), fun _ p hp => ?_⟩
  · rw [Token.terminal_of_bare hu, Token.terminal_peek, hnext]
    exact hbranch
  · rw [Rules.tied_branch (hp.next.trans hnext)]
    exact hbranch p hp

theorem StmtForm.Restores.loop {key : Ident} {value : Option Ident} {iterated : Expr} (h : iterated.form.Restores d)
    (hbody : block.Restores d) : (StmtForm.loop key value iterated block).Restores d := by
  intro b rest _
  refine .of_proper rfl rfl ?_
  simp only [StmtForm.tokens, List.cons_append, List.append_assoc, List.nil_append]
  refine .facing rfl fun _ => .bind (.take rfl rfl) fun _ _ => ?_
  refine .bind (.name key _) fun k hk => ?_
  -- what follows the variables
  have hbehind {v : Option Ident} (hv : v.map Ident.bare = value.map Ident.bare) {span : Span} :
      Gives d (Parse.loopRest .tied k v span) (.ofKeyword .inKw :: (iterated.tokens d.keywords b ++ .ofSymbol .colon ::
        (block.tokens d.keywords b ++ .ofKeyword .endKw :: rest)))
      (·.bare .all = ⟨0, {}, (StmtForm.loop key value iterated block).bare b⟩) rest := by
    refine .bind (.keyword _ _) fun _ _ => .bind (h.expression rfl fun _ => by rintro ⟨⟩) fun e he => ?_
    refine .bind (.symbol _ _) fun _ _ => .bind (hbody.toEnd _) fun body hb => .ofForm ?_
    rw [StmtForm.bare, hk, hv, he, hb]
    rfl
  cases value with
  | none =>
    refine .accept_false (by rintro ⟨⟩) ?_
    exact hbehind rfl
  | some v =>
    refine .accept_true rfl rfl (by rintro ⟨⟩) ?_
    exact .bind (.name v _) fun j hj => hbehind (v := some j) (congrArg some hj)

/-! ## Comments and blank lines -/

theorem Gives.dropFront {t : Token} : Gives d Parse.dropFront (t :: rest) (fun _ => True) rest := by
  intro p hp
  obtain ⟨u, others, hp', _, hothers⟩ := List.map_eq_cons_iff.mp hp.tokens
  exact ⟨(), _, rfl, ⟨hp.keywords, hp.matching, by simp only [hp', List.drop_one, List.tail_cons, hothers]⟩, trivial⟩

theorem StmtForm.Restores.comment {text : String} : (StmtForm.comment text).Restores d := by
  refine fun _ _ _ => ⟨?_, nofun⟩
  rw [Rules.tied_statement]
  refine .front fun u hu => ?_
  rw [Token.kind_of_bare hu, Token.lexeme_of_bare hu]
  exact .bind .dropFront fun _ _ => .ofForm rfl

theorem StmtForm.Restores.blankLine : StmtForm.blankLine.Restores d := by
  refine fun _ _ _ => ⟨?_, nofun⟩
  rw [Rules.tied_statement]
  refine .front fun u hu => ?_
  rw [Token.kind_of_bare hu]
  exact .bind .dropFront fun _ _ => .ofForm rfl

/-! ## Lists of statements -/

theorem StmtForm.closes_lead (form : StmtForm) : form.lead.closes = false := by
  cases form with
  | expression e =>
    have hstarts := e.startsExpression_lead
    rw [StmtForm.lead]
    cases hlead : e.lead with
    | keyword k => cases k <;> first | rfl | (rw [hlead] at hstarts; cases hstarts)
    | endOfFile =>
      rw [hlead] at hstarts
      cases hstarts
    | _ => rfl
  | declare _ constant _ => cases constant <;> rfl
  | _ => rfl

theorem Stmt.closes_leadOf (h : body.all (·.form.isTrivia) = false) : (Stmt.leadOf body).closes = false := by
  induction body with
  | nil => cases h
  | cons s rest ih =>
    rw [Stmt.leadOf]
    cases htrivia : s.form.isTrivia with
    | true =>
      rw [List.all_cons, htrivia, Bool.true_and] at h
      exact ih h
    | false => exact s.form.closes_lead

theorem Terminal.closed_of_closes (h : t.closes = true) :
    (t != .keyword .asKw && t != .keyword .pickKw) = true ∧ (t.bond == 0) = true ∧
      (!Parse.startsExpression t) = true := by
  cases t with
  | keyword k => cases k <;> first | exact ⟨rfl, rfl, rfl⟩ | cases h
  | endOfFile => exact ⟨rfl, rfl, rfl⟩
  | _ => cases h

mutual

theorem Stmt.allows_of_closes (h : t.closes = true) : (s : Stmt) → s.allows t = true
  | ⟨_, _, form⟩ => form.allows_of_closes h

theorem StmtForm.allows_of_closes (h : t.closes = true) : (form : StmtForm) → form.allows t = true
  | .expose declaration => declaration.allows_of_closes h
  | .useModule _ _ _ => Terminal.closed_of_closes h |>.1
  | .declare _ _ _ => Terminal.closed_of_closes h |>.2.1
  | .give none => Terminal.closed_of_closes h |>.2.2
  | .give (some _) => Terminal.closed_of_closes h |>.2.1
  | .expression _ => Terminal.closed_of_closes h |>.2.1
  | .declareTask _ _ _ => rfl
  | .declareFunction _ _ _ => rfl
  | .branch _ _ _ => rfl
  | .loop _ _ _ _ => rfl
  | .comment _ => rfl
  | .blankLine => rfl

end

/-- What ends a block may follow the last of its statements, and the lead of the others may follow each of
them. -/
theorem Stmt.endsAt {s : Stmt} {others : List Stmt} {b : Blanks} (kw : KeywordTable)
    (hallows : s.allows (Stmt.leadOf others) = true) (hcloses : (next rest).closes = true)
    (hrun : next rest = .keyword .toKw → Stmt.endsInRunOf (s :: others) = false) :
    s.form.EndsAt (Stmt.tokensOf kw b others ++ rest) := by
  cases htrivia : others.all (·.form.isTrivia) with
  | true =>
    refine ⟨?_, fun hends hto => ?_⟩
    · rw [Stmt.next_tokensOf_of_trivia kw b htrivia]
      exact s.form.allows_of_closes hcloses
    · rw [Stmt.next_tokensOf_of_trivia kw b htrivia] at hto
      have hfalse := hrun hto
      rw [Stmt.endsInRunOf, htrivia, Stmt.endsInRun_eq, hends] at hfalse
      cases hfalse
  | false =>
    refine ⟨?_, fun _ hto => ?_⟩
    · rw [Stmt.next_tokensOf kw b htrivia, ← Stmt.allows_eq, hallows]
    · rw [Stmt.next_tokensOf kw b htrivia] at hto
      have hfalse := Stmt.closes_leadOf htrivia
      rw [hto] at hfalse
      cases hfalse

theorem StmtForm.stops_tokens (kw : KeywordTable) (b : Blanks) (form : StmtForm)
    (hterminators : ∀ t ∈ terminators, t.closes = true) :
    Token.stops terminators (form.tokens kw b ++ rest) = false := by
  obtain ⟨t, others, htokens, ht⟩ := form.exists_tokens kw b
  rw [htokens, List.cons_append, Token.stops, Token.head_cons, ht, Bool.or_eq_false_iff]
  have hlead := form.closes_lead
  refine ⟨?_, ?_⟩
  · rw [beq_eq_false_iff_ne]
    intro heq
    rw [heq] at hlead
    cases hlead
  · rw [Bool.eq_false_iff]
    intro hmem
    rw [hterminators _ (List.contains_iff_mem.mp hmem)] at hlead
    cases hlead

theorem Stmt.chain {b : Blanks}
    (h : ∀ s ∈ body, s.form.Restores d) (hbody : Stmt.WellFormedOf d body)
    (hterminators : ∀ t ∈ terminators, t.closes = true) (hstops : Token.stops terminators rest = true)
    (hrun : next rest = .keyword .toKw → Stmt.endsInRunOf body = false) :
    Chain (fun ts s mid => Token.stops terminators ts = false ∧ Gives d Rules.tied.statement ts (·.bare .all = s) mid)
      (fun ts => Token.stops terminators ts = true)
      (Stmt.tokensOf d.keywords b body ++ rest) (Stmt.bareOf b body) rest := by
  have hcloses : (next rest).closes = true := by
    obtain ⟨_, hend | hmem⟩ := Token.next_of_stops hterminators hstops
    · rw [hend]
      rfl
    · exact hterminators _ hmem
  induction body with
  | nil => exact .nil hstops
  | cons s others ih =>
    obtain ⟨hhere, hothers⟩ := List.forall_mem_cons.mp h
    obtain ⟨_, hallows, _, hrest⟩ := hbody
    have hrunOthers : next rest = .keyword .toKw → Stmt.endsInRunOf others = false := by
      intro hto
      have hfalse := hrun hto
      rw [Stmt.endsInRunOf, Bool.or_eq_false_iff] at hfalse
      exact hfalse.2
    have htail := ih hothers hrest hrunOthers
    have hread := (hhere b _ (Stmt.endsAt (b := b) d.keywords hallows hcloses hrun)).statement
    obtain ⟨i, span, form⟩ := s
    rw [Stmt.tokensOf_cons, Stmt.bareOf]
    -- A blank line that is not kept leaves no token behind and no statement.
    by_cases hdropped : (form.isBlankLine && !b.keeps) = true
    · rw [if_pos hdropped, if_pos hdropped]
      exact htail
    · rw [if_neg hdropped, if_neg hdropped, List.append_assoc]
      refine .cons ⟨form.stops_tokens d.keywords b hterminators, hread⟩ ?_
        (List.suffix_append _ _) htail
      obtain ⟨t, behind, htokens, _⟩ := form.exists_tokens d.keywords b
      rw [Stmt.tokens, htokens]
      simp only [List.cons_append, List.length_cons, List.length_append]
      omega

theorem Stmt.rounds {ts : List Token}
    {round : List Stmt → Parse (Parse.Round (List Stmt) (List Stmt))}
    (hround : ∀ read, round read = do
      let front ← Action.read Parser.front
      if front.isEnd || terminators.contains front.terminal then return .stop read
      return .again ((← Rules.tied.statement) :: read))
    (hchain : Chain (fun ts s mid => Token.stops terminators ts = false ∧
        Gives d Rules.tied.statement ts (·.bare .all = s) mid)
      (fun ts => Token.stops terminators ts = true) ts body rest) :
    Gives d (Parse.rounds round []) ts (fun all => all.reverse.map (Stmt.bare .all) = body) rest := by
  have hfront {ts' : List Token} {u : Token} (hu : u.bare = ts'.head?.getD .endOfFile) :
      (u.isEnd || terminators.contains u.terminal) = Token.stops terminators ts' := by
    rw [Token.isEnd_eq, Token.terminal_of_bare hu, Token.stops, Token.head]
  refine (hchain.loops (f := Stmt.bare .all) (fun ts' read hstop => ?_) (fun ts' s mid read hs => ?_)
    []).rounds.imp ?_
  · rw [hround]
    refine .front fun u hu => ?_
    rw [hfront hu, hstop]
    exact .pure rfl
  · rw [hround]
    refine .front fun u hu => ?_
    rw [hfront hu, hs.1]
    exact .bind_pure hs.2 fun s' hs' => ⟨s', rfl, hs'⟩
  · rintro _ ⟨read, rfl, hread⟩
    simpa using hread

theorem Block.Restores.of_statements (h : ∀ s ∈ block.body, s.form.Restores d)
    (hbody : Stmt.WellFormedOf d block.body) : block.Restores d := by
  intro b terminators rest hterminators hstops hrun
  obtain ⟨i, span, body⟩ := block
  refine .bind .freshId fun _ _ => .read fun _ => ?_
  refine .bind_pure (Stmt.rounds (fun _ => rfl) (Stmt.chain (b := b) h hbody hterminators hstops hrun))
    fun all hall => ?_
  rw [Block.bare, Stmt.bareOf_all, hall]
  rfl

end

end Trellis
