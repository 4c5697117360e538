import Mathlib.Data.List.Forall2
import Trellis.Proofs.Grammar.Ends
import Trellis.Proofs.Script.Core

/-!
# Readings with and without comments and blank lines

Comments and blank lines are statements where a statement is read, and are skipped everywhere else. Two lists of
tokens that differ in them only are therefore read alike, with one exception: a comment right behind the keyword of
what is exposed is taken for the declaration, and the reading fails.

So one list *serves for* another one (`Token.Serves`) if the two have the same tokens of the grammar and the second
has no gap behind `expose` that the first does not have. What is read from the first list is then read from the
second. The second reading goes back to the rules that are tied without a depth (`Rules.tied`), so the depth of the
first one carries the induction (`Rules.serves_ofDepth`).

Everywhere but in a list of statements the two readings go on token by token (`Parse.Pace.serves`). There, each
comes past its own comments and blank lines (`Parse.Serves.statements`, `Parse.Serves.expose`).
-/

namespace Trellis

/-! ## Tokens -/

namespace Token

def isExpose (t : Token) : Bool :=
  t.terminal == .keyword .exposeKw

def startsTrivia : List Token → Bool
  | [] => false
  | t :: _ => t.isTrivia

/-- **The tokens of the grammar**, each with whether a comment or a blank line stands directly behind it. -/
def gist : List Token → List (Token × Bool)
  | [] => []
  | t :: ts => if t.isTrivia then gist ts else (t, startsTrivia ts) :: gist ts

/-- **The second list of tokens serves for the first**: it has the same tokens of the grammar, and no gap
behind `expose` that the first one does not have. -/
def Serves (ts ts' : List Token) : Prop :=
  List.Forall₂ (fun x x' => x'.1 = x.1 ∧ (x.1.isExpose = true → x'.2 = true → x.2 = true)) (gist ts) (gist ts')

variable {t : Token} {ts ts' rest : List Token}

theorem gist_cons_of_trivia (h : t.isTrivia = true) (ts : List Token) : gist (t :: ts) = gist ts := by
  rw [gist, if_pos h]

theorem gist_cons_of_not_trivia (h : t.isTrivia = false) (ts : List Token) :
    gist (t :: ts) = (t, startsTrivia ts) :: gist ts := by
  rw [gist, h]
  rfl

@[simp] theorem gist_skip (ts : List Token) : gist (skip ts) = gist ts := by
  induction ts with
  | nil => rfl
  | cons t ts ih =>
    cases ht : t.isTrivia with
    | true => rw [skip_cons_of_trivia ht, gist_cons_of_trivia ht, ih]
    | false => rw [skip_cons_of_not_trivia ht]

theorem serves_iff_skip : Serves (skip ts) (skip ts') ↔ Serves ts ts' := by
  rw [Serves, gist_skip, gist_skip, Serves]

theorem Serves.refl (ts : List Token) : Serves ts ts :=
  List.forall₂_same.mpr fun _ _ => ⟨rfl, fun _ h => h⟩

theorem Serves.cases (h : Serves ts ts') :
    (skip ts = [] ∧ skip ts' = []) ∨
      ∃ t rest rest', skip ts = t :: rest ∧ skip ts' = t :: rest' ∧ Serves rest rest' ∧
        (t.isExpose = true → startsTrivia rest' = true → startsTrivia rest = true) := by
  rw [← serves_iff_skip] at h
  cases hskip : skip ts with
  | nil =>
    rw [hskip] at h
    cases hskip' : skip ts' with
    | nil => exact .inl ⟨rfl, rfl⟩
    | cons t' rest' =>
      rw [hskip', Serves, gist_cons_of_not_trivia (not_trivia_of_skip hskip')] at h
      cases h
  | cons t rest =>
    rw [hskip, Serves, gist_cons_of_not_trivia (not_trivia_of_skip hskip)] at h
    cases hskip' : skip ts' with
    | nil =>
      rw [hskip'] at h
      cases h
    | cons t' rest' =>
      rw [hskip', gist_cons_of_not_trivia (not_trivia_of_skip hskip')] at h
      obtain ⟨⟨ht, hgap⟩, hrest⟩ := List.forall₂_cons.mp h
      cases ht
      exact .inr ⟨t, rest, rest', rfl, rfl, hrest, hgap⟩

end Token

/-! ## Parsers -/

/-- **The second parser serves for the first**: it has tokens that do, and is otherwise the same, except for
the identities that it gives. -/
structure Parser.Serves (p p' : Parser) : Prop where
  tokens : Token.Serves p.tokens p'.tokens
  endSpan : p'.endSpan = p.endSpan
  keywords : p'.keywords = p.keywords
  matching : p'.matching = p.matching
  lastSpan : p'.lastSpan = p.lastSpan

namespace Parser.Serves

variable {p p' : Parser}

theorem endMark (h : p.Serves p') : p'.endMark = p.endMark := by
  rw [Parser.endMark, h.endSpan, Parser.endMark]

theorem peek (h : p.Serves p') : p'.peek = p.peek := by
  rw [Parser.peek_eq, Parser.peek_eq, h.endMark]
  rcases h.tokens.cases with ⟨hskip, hskip'⟩ | ⟨t, rest, rest', hskip, hskip', -, -⟩
  · rw [hskip, hskip']
  · rw [hskip, hskip']
    rfl

theorem peekSecond (h : p.Serves p') : p'.peekSecond = p.peekSecond := by
  rw [Parser.peekSecond_eq, Parser.peekSecond_eq, h.endMark]
  rcases h.tokens.cases with ⟨hskip, hskip'⟩ | ⟨t, rest, rest', hskip, hskip', hrest, -⟩
  · rw [hskip, hskip']
  · rw [hskip, hskip', List.tail_cons, List.tail_cons]
    rcases hrest.cases with ⟨hnil, hnil'⟩ | ⟨u, others, others', hnext, hnext', -, -⟩
    · rw [hnil, hnil']
    · rw [hnext, hnext']
      rfl

theorem advance (h : p.Serves p') :
    ∃ t q q', Parse.advance p = .done t q ∧ Parse.advance p' = .done t q' ∧ q.Serves q' := by
  rcases h.tokens.cases with ⟨hskip, hskip'⟩ | ⟨t, rest, rest', hskip, hskip', hrest, -⟩
  · refine ⟨_, _, _, Parse.advance_of_nil hskip, h.endMark ▸ Parse.advance_of_nil hskip', ?_⟩
    exact { h with tokens := .refl [], lastSpan := h.endSpan }
  · cases hend : t.isEnd with
    | true =>
      refine ⟨_, _, _, Parse.advance_of_isEnd hskip hend, h.endMark ▸ Parse.advance_of_isEnd hskip' hend, ?_⟩
      refine { h with tokens := ?_, lastSpan := h.endSpan }
      have htokens := Token.serves_iff_skip.mpr h.tokens
      rw [hskip, hskip'] at htokens
      exact htokens
    | false =>
      exact ⟨_, _, _, Parse.advance_of_not_isEnd hskip hend, Parse.advance_of_not_isEnd hskip' hend,
        { h with tokens := hrest, lastSpan := rfl }⟩

end Parser.Serves

/-! ## The kinship of cores -/

def Kin.core (place : Span → Span) : Kin where
  token _ := True
  span := Eq
  ident := Eq
  id _ _ := True
  expr e e' := e'.core place = e.core place
  block b b' := b'.core place = b.core place
  stmt s s' := s'.core place = s.core place

theorem Kin.meets_core (place : Span → Span) : (Kin.core place).Meets (.core place) (.core place) :=
  ⟨fun h => h ▸ rfl, fun h => h ▸ rfl, fun h => h, fun h => h, fun h => h⟩

def Kinship.core : Kinship where
  toKin := .core id
  word _ h _ := h ▸ rfl
  ofForm hspan h := by
    show Expr.core id _ = Expr.core id _
    rw [Expr.core, Expr.core, ExprForm.core_eq, ExprForm.core_eq, (Kin.meets_core id).form h, hspan]
  ofStmt _ hspan h := by
    show Stmt.core id _ = Stmt.core id _
    rw [Stmt.core, Stmt.core, StmtForm.core_eq, StmtForm.core_eq, (Kin.meets_core id).stmtForm h, hspan]
  expr_span := by
    rintro ⟨span, form⟩ ⟨span', form'⟩ h
    exact (congrArg Expr.span h).symm
  isCall := Expr.isCall_of_core
  isTarget := Expr.isTarget_of_core
  endsInGive := Block.endsInGive_of_core

/-- **A reading and one that serves for it.** Nothing is asked where the first one is not done. -/
def Parse.Pace.serves : Pace .core where
  abreast _ p p' := p.Serves p'
  stopped o _ := o.IsUndone
  weaken h := h
  peek h := .of_eq h.peek fun _ => rfl
  second h := by rw [h.peekSecond]
  token _ := trivial
  advance h _ := by
    obtain ⟨t, q, q', hread, hread', hq⟩ := h.advance
    exact ⟨t, q, t, q', hread, hread', ⟨rfl, rfl⟩, hq, fun _ => hq⟩
  limit h := by
    rw [h.matching]
    exact ⟨Nat.le_refl _, .inl rfl⟩
  freshId h := ⟨trivial, { h with }⟩
  fail _ _ _ _ _ _ _ := .failed
  bind h y _ := h.bind y
  bounded := .inl fun _ => .exhausted

/-! ## Statements one behind the other -/

/-- **What the rules read, the tied rules read as well.** A comment or a blank line at the front is a statement
of its own, so statements are compared where neither reading has one there. -/
structure Rules.Serves (r : Rules) : Prop where
  tier : ∀ t m, Parse.Keeps .serves m true .fresh (Kin.core id).expr (fun _ => .taken) (r.tier t) (tied.tier t)
  branch : ∀ m, Parse.Keeps .serves m true (.facing (·.terminal = .keyword .ifKw))
    (fun s s' => (Kin.core id).stmt s s' ∧ s.form.isBranch = true) (fun _ => .taken) r.branch tied.branch
  proper : ∀ p p' s q, p.Serves p' → p.front.isTrivia = false → p'.front.isTrivia = false →
    r.statement p = .done s q → ∃ s' q', tied.statement p' = .done s' q' ∧ s'.core id = s.core id ∧ q.Serves q'
  trivia : ∀ p s q, p.front.isTrivia = true → r.statement p = .done s q →
    s.form.isTrivia = true ∧ q = Parse.pastTrivia p

theorem Token.isTrivia_triviaForm (t : Token) : t.triviaForm.isTrivia = true := by
  rw [Token.triviaForm]
  split <;> rfl

def Token.closes (terminators : List Terminal) (front : Token) : Bool :=
  front.isEnd || terminators.contains front.terminal

variable {terminators : List Terminal}

theorem Token.closes_of_isTrivia {front : Token}
    (hts : terminators.all (fun t => t != .comment && t != .blankLine) = true) (h : front.isTrivia = true) :
    front.closes terminators = false := by
  rw [Token.closes, Bool.or_eq_false_iff]
  rw [Token.isTrivia_eq, Bool.or_eq_true_iff, beq_iff_eq, beq_iff_eq] at h
  refine ⟨?_, ?_⟩
  · rw [Token.isEnd_eq, beq_eq_false_iff_ne]
    rcases h with h | h <;> rw [h] <;> exact nofun
  · rw [List.contains_eq_any_beq, List.any_eq_false]
    intro t ht hterminal
    have hne := List.all_eq_true.mp hts t ht
    rw [Bool.and_eq_true, bne_iff_ne, bne_iff_ne] at hne
    rw [beq_iff_eq] at hterminal
    rcases h with h | h
    · exact hne.1 (hterminal.symm.trans h)
    · exact hne.2 (hterminal.symm.trans h)

namespace Parse

variable {terminators : List Terminal} {p : Parser} {reversed : List Stmt}

theorem blockRound_of_closes (h : p.front.closes terminators = true) (r : Rules) :
    blockRound r terminators reversed p = .done (.stop reversed) p := by
  show (if p.front.closes terminators = true then _ else _ : Parse _) p = _
  rw [if_pos h]
  rfl

theorem blockRound_of_not_closes (h : p.front.closes terminators = false) (r : Rules) :
    blockRound r terminators reversed p = (do return Round.again ((← r.statement) :: reversed)) p := by
  show (if p.front.closes terminators = true then _ else _ : Parse _) p = _
  rw [if_neg (by rw [h]; exact Bool.false_ne_true)]

theorem rounds_eq {α β : Type} {round : α → Parse (Round α β)}
    (h : ∀ a p b q, round a p = .done (.again b) q → q.tokens.length < p.tokens.length) (a : α) :
    rounds round a = (do
      match ← round a with
      | .again b => rounds round b
      | .stop b => return b) := by
  -- a bound that is not met does not matter
  have hbound {γ δ : Type} (bound : List γ) (bound' : List δ) (a : α) {p : Parser}
      (hlt : p.tokens.length < bound.length) (hlt' : p.tokens.length < bound'.length) :
      repeatRound round bound a p = repeatRound round bound' a p := by
    induction bound generalizing bound' a p with
    | nil => exact absurd hlt (Nat.not_lt_zero _)
    | cons _ bound ih =>
      cases bound' with
      | nil => exact absurd hlt' (Nat.not_lt_zero _)
      | cons _ bound' =>
        rw [repeatRound, repeatRound, Action.bind_apply, Action.bind_apply]
        cases hround : round a p with
        | done ended q =>
          cases ended with
          | again b =>
            have hlength := h a p b q hround
            exact ih bound' b (Nat.lt_of_lt_of_le hlength (Nat.le_of_lt_succ hlt))
              (Nat.lt_of_lt_of_le hlength (Nat.le_of_lt_succ hlt'))
          | stop b => rfl
        | failed fault q => rfl
        | exhausted => rfl
  funext p
  rw [rounds, repeatRound, Action.bind_apply, Action.bind_apply]
  cases hround : round a p with
  | done ended q =>
    cases ended with
    | again b => exact hbound _ _ b (h a p b q hround) (Nat.lt_succ_self _)
    | stop b => rfl
  | failed fault q => rfl
  | exhausted => rfl

def statements (terminators : List Terminal) : List Stmt → Parse (List Stmt) :=
  rounds (blockRound .tied terminators)

theorem length_of_blockRound (terminators : List Terminal) (reversed : List Stmt) (p : Parser) (read : List Stmt)
    (q : Parser) (hround : blockRound .tied terminators reversed p = .done (.again read) q) :
    q.tokens.length < p.tokens.length := by
  cases hcloses : p.front.closes terminators with
  | true =>
    rw [blockRound_of_closes hcloses] at hround
    cases hround
  | false =>
    rw [blockRound_of_not_closes hcloses] at hround
    obtain ⟨s, u, hread, hended⟩ := Action.done_bind hround
    cases hended
    exact Rules.length_of_tied_statement hread

theorem statements_of_closes (h : p.front.closes terminators = true) :
    statements terminators reversed p = .done reversed p := by
  rw [statements, rounds_eq (length_of_blockRound terminators), Action.bind_apply, blockRound_of_closes h]
  rfl

theorem statements_of_done (h : p.front.closes terminators = false) {s : Stmt} {q : Parser}
    (hread : Rules.tied.statement p = .done s q) :
    statements terminators reversed p = statements terminators (s :: reversed) q := by
  rw [statements, rounds_eq (length_of_blockRound terminators), Action.bind_apply, blockRound_of_not_closes h,
    Action.bind_apply, hread]
  rfl

theorem statements_skip (hts : terminators.all (fun t => t != .comment && t != .blankLine) = true)
    (p : Parser) (reversed : List Stmt) :
    ∃ read nextId, Stmt.coreOf id read = Stmt.coreOf id reversed ∧
      statements terminators reversed p =
        statements terminators read { p with tokens := Token.skip p.tokens, nextId } := by
  obtain ⟨tokens, endSpan, keywords, matching, log, nextId, lastSpan⟩ := p
  induction tokens generalizing reversed nextId with
  | nil => exact ⟨reversed, nextId, rfl, rfl⟩
  | cons t tokens ih =>
    cases ht : t.isTrivia with
    | false =>
      rw [Token.skip_cons_of_not_trivia ht]
      exact ⟨reversed, nextId, rfl, rfl⟩
    | true =>
      let p : Parser := ⟨t :: tokens, endSpan, keywords, matching, log, nextId, lastSpan⟩
      have hfront : p.front.isTrivia = true := ht
      have hread := statement_of_trivia hfront .tied
      rw [← Rules.tied_statement] at hread
      rw [statements_of_done (Token.closes_of_isTrivia hts hfront) hread, Token.skip_cons_of_trivia ht]
      obtain ⟨read, nextId', hcore, hgoes⟩ := ih (⟨nextId, t.span, t.triviaForm⟩ :: reversed) (nextId + 1)
      refine ⟨read, nextId', ?_, hgoes⟩
      rw [hcore, Stmt.coreOf_cons, if_pos (Token.isTrivia_triviaForm t)]

end Parse

namespace Parse.Serves

variable {r : Rules}

theorem pastTrivia {p p' : Parser} (hp : p.Serves p') (h : p.front.isTrivia = true) :
    (Parse.pastTrivia p).Serves p' := by
  refine { hp with tokens := ?_ }
  have htokens := hp.tokens
  rw [Parse.tokens_of_trivia h, Token.Serves, Token.gist_cons_of_trivia h] at htokens
  exact htokens

theorem front_eq_peek {p : Parser} (h : p.front.isTrivia = false) : p.front = p.peek := by
  rw [Parser.peek_eq]
  cases htokens : p.tokens with
  | nil => rw [Parser.front, htokens, Token.skip_nil]
  | cons t rest =>
    rw [Parser.front, htokens] at h
    have ht : t.isTrivia = false := h
    rw [Parser.front, htokens, Token.skip_cons_of_not_trivia ht]

theorem isTrivia_front_skip (p : Parser) (nextId : NodeId) :
    ({ p with tokens := Token.skip p.tokens, nextId } : Parser).front.isTrivia = false := by
  cases hskip : Token.skip p.tokens with
  | nil => rfl
  | cons t rest => exact Token.not_trivia_of_skip hskip

/-- **Statements up to the end of a block.** Comments and blank lines at the front of the first reading are
statements to which none need correspond; those of the second are read before its next statement. -/
theorem statements (h : r.Serves)
    (hts : terminators.all (fun t => t != .comment && t != .blankLine) = true)
    {reversed reversed' : List Stmt} (hreversed : Stmt.coreOf id reversed' = Stmt.coreOf id reversed)
    {p p' u : Parser} {body : List Stmt} (hp : p.Serves p')
    (hdone : Parse.rounds (Parse.blockRound r terminators) reversed p = .done body u) :
    ∃ body' u', Parse.statements terminators reversed' p' = .done body' u' ∧
      Stmt.coreOf id body' = Stmt.coreOf id body ∧ u.Serves u' := by
  unfold Parse.rounds at hdone
  generalize p.endMark :: p.tokens = bound at hdone
  induction bound generalizing reversed reversed' p p' with
  | nil => cases hdone
  | cons _ bound ih =>
    obtain ⟨ended, q, hround, hgoes⟩ := Action.done_bind hdone
    cases htrivia : p.front.isTrivia with
    | true =>
      rw [Parse.blockRound_of_not_closes (Token.closes_of_isTrivia hts htrivia)] at hround
      obtain ⟨s, q, hread, hended⟩ := Action.done_bind hround
      obtain ⟨hs, rfl⟩ := h.trivia p s q htrivia hread
      cases hended
      refine ih ?_ (pastTrivia hp htrivia) hgoes
      rw [hreversed, Stmt.coreOf_cons, if_pos hs]
    | false =>
      obtain ⟨read, nextId, hread, hskip⟩ := Parse.statements_skip hts p' reversed'
      rw [hskip]
      have hfront' := isTrivia_front_skip p' nextId
      have hp' : p.Serves { p' with tokens := Token.skip p'.tokens, nextId } := by
        refine { hp with tokens := ?_ }
        rw [Token.Serves, Token.gist_skip]
        exact hp.tokens
      generalize ({ p' with tokens := Token.skip p'.tokens, nextId } : Parser) = p'' at hfront' hp' ⊢
      have hfront : p''.front = p.front := by
        rw [front_eq_peek hfront', hp'.peek, front_eq_peek htrivia]
      cases hcloses : p.front.closes terminators with
      | true =>
        rw [Parse.blockRound_of_closes hcloses] at hround
        cases hround
        cases hgoes
        exact ⟨read, p'', Parse.statements_of_closes (hfront ▸ hcloses), hread.trans hreversed, hp'⟩
      | false =>
        rw [Parse.blockRound_of_not_closes hcloses] at hround
        obtain ⟨s, q, hstatement, hended⟩ := Action.done_bind hround
        obtain ⟨s', q', hstatement', hs, hq⟩ := h.proper p p'' s q hp' htrivia hfront' hstatement
        cases hended
        rw [Parse.statements_of_done (hfront ▸ hcloses) hstatement']
        refine ih ?_ hq hgoes
        rw [Stmt.coreOf_cons, Stmt.coreOf_cons, Stmt.isTrivia_of_core hs, hs, hread, hreversed]

theorem blockUntil (h : r.Serves) (hts : terminators.all (fun t => t != .comment && t != .blankLine) = true)
    {p p' q : Parser} {b : Block} (hp : p.Serves p') (hdone : Parse.blockUntil r terminators p = .done b q) :
    ∃ b' q', Parse.blockUntil .tied terminators p' = .done b' q' ∧ b'.core id = b.core id ∧ q.Serves q' := by
  rw [Parse.blockUntil_eq] at hdone ⊢
  obtain ⟨_, _, hfresh, hspan⟩ := Action.done_bind hdone
  cases hfresh
  obtain ⟨_, _, hlast, hrounds⟩ := Action.done_bind hspan
  cases hlast
  obtain ⟨body, u, hbody, hended⟩ := Action.done_bind hrounds
  cases hended
  have hfresh : Parser.Serves { p with nextId := p.nextId + 1 } { p' with nextId := p'.nextId + 1 } := { hp with }
  obtain ⟨body', u', hbody', hcore, hu⟩ := statements h hts rfl hfresh hbody
  refine ⟨⟨p'.nextId, p'.lastSpan, body'.reverse⟩, u', ?_, ?_, hu⟩
  · show (Parse.statements terminators [] >>= _) _ = _
    rw [Action.bind_apply, hbody']
    rfl
  · rw [Block.core, Block.core, Stmt.coreOf_reverse, Stmt.coreOf_reverse, hcore]
    exact congrArg (Block.mk _ · _) hp.lastSpan

theorem declaredName?_of_isTrivia {form : StmtForm} (h : form.isTrivia = true) : form.declaredName? = none := by
  cases form with
  | comment text => rfl
  | blankLine => rfl
  | _ => cases h

/-- **What is exposed is read right behind the keyword.** A comment or a blank line there is no declaration, so
the first reading had none there, and then the second has none either. -/
theorem expose (h : r.Serves) {p p' : Parser} {s : Stmt} {q : Parser} (hp : p.Serves p')
    (hexpose : p.peek.terminal = .keyword .exposeKw) (hdone : Parse.expose r p = .done s q) :
    ∃ s' q', Parse.expose .tied p' = .done s' q' ∧ s'.core id = s.core id ∧ q.Serves q' := by
  rcases hp.tokens.cases with ⟨hskip, -⟩ | ⟨t, rest, rest', hskip, hskip', hrest, hgap⟩
  · rw [Parser.peek_eq, hskip] at hexpose
    cases hexpose
  rw [Parser.peek_of_skip hskip] at hexpose
  have hend := Token.isEnd_of_terminal hexpose (by rintro ⟨⟩)
  obtain ⟨token, u, hadvance, hinner⟩ := Action.done_bind hdone
  rw [Parse.advance_of_not_isEnd hskip hend] at hadvance
  cases hadvance
  obtain ⟨inner, w, hstatement, hexposed⟩ := Action.done_bind hinner
  -- the keyword is behind both readings
  have hu : Parser.Serves { p with tokens := rest, lastSpan := t.span }
      { p' with tokens := rest', lastSpan := t.span } :=
    { hp with tokens := hrest, lastSpan := rfl }
  have hfront (p : Parser) (ts : List Token) (span : Span) :
      ({ p with tokens := ts, lastSpan := span } : Parser).front.isTrivia = Token.startsTrivia ts := by
    cases ts <;> rfl
  cases htrivia : Token.startsTrivia rest with
  | true =>
    obtain ⟨hform, -⟩ := h.trivia _ inner w ((hfront p rest t.span).trans htrivia) hstatement
    rw [declaredName?_of_isTrivia hform] at hexposed
    cases hexposed
  | false =>
    have htrivia' : Token.startsTrivia rest' = false := by
      cases hstarts : Token.startsTrivia rest' with
      | false => rfl
      | true => exact absurd (hgap (beq_iff_eq.mpr hexpose) hstarts) (by rw [htrivia]; exact Bool.false_ne_true)
    obtain ⟨inner', w', hstatement', hinner', hw⟩ := h.proper _ _ inner w hu
      ((hfront p rest t.span).trans htrivia) ((hfront p' rest' t.span).trans htrivia') hstatement
    rw [show Parse.expose .tied p' = (do
      let inner ← Rules.tied.statement
      if inner.form.declaredName?.isSome then Parse.statementOf (.expose inner) t.span
      else Parse.fail .notExposable inner.span) { p' with tokens := rest', lastSpan := t.span } by
        rw [Parse.expose, Action.bind_apply, Parse.advance_of_not_isEnd hskip' hend]]
    rw [Action.bind_apply, hstatement']
    simp only [Stmt.isSome_declaredName?_of_core hinner']
    cases hdeclares : inner.form.declaredName?.isSome with
    | true =>
      rw [hdeclares] at hexposed
      cases hexposed
      refine ⟨_, _, rfl, ?_, { hw with }⟩
      rw [Stmt.core, Stmt.core, StmtForm.core, StmtForm.core, hinner']
    | false =>
      rw [hdeclares] at hexposed
      cases hexposed

theorem program (h : r.Serves) {p p' q : Parser} {program : Program} (hp : p.Serves p')
    (hdone : Parse.program r p = .done program q) :
    ∃ program' q', Parse.program .tied p' = .done program' q' ∧ program'.core id = program.core id := by
  rw [Parse.program_eq] at hdone ⊢
  obtain ⟨_, _, hfresh, hrounds⟩ := Action.done_bind hdone
  cases hfresh
  obtain ⟨body, u, hbody, hended⟩ := Action.done_bind hrounds
  cases hended
  have hfresh : Parser.Serves { p with nextId := p.nextId + 1 } { p' with nextId := p'.nextId + 1 } := { hp with }
  obtain ⟨body', u', hbody', hcore, -⟩ := statements h rfl rfl hfresh hbody
  refine ⟨⟨p'.nextId, body'.reverse⟩, u', ?_, ?_⟩
  · show (Parse.statements [] [] >>= _) _ = _
    rw [Action.bind_apply, hbody']
    rfl
  · rw [Program.core, Program.core, Stmt.coreOf_reverse, Stmt.coreOf_reverse, hcore]

end Parse.Serves

/-! ## The rules -/

namespace Rules

variable {r : Rules}

theorem keeps_of_done {α : Type} {s : Parse.Stage} {R : α → α → Prop} {b : α → Parse.Stage} {x x' : Parse α} {m : Nat}
    {light : Bool} (h : ∀ p p' a q, p.Serves p' → s.Within m p p' → x p = .done a q →
      ∃ a' q', x' p' = .done a' q' ∧ R a a' ∧ q.Serves q' ∧ (b a).Within m q q') :
    Parse.Keeps .serves m light s R b x x' := by
  intro k p p' _ hp hs
  cases hread : x p with
  | done a q =>
    obtain ⟨a', q', hread', ha, hq, hwithin⟩ := h p p' a q hp hs hread
    exact .inl ⟨a, q, a', q', rfl, hread', ha, hq, fun _ => hq, hwithin⟩
  | failed fault q => exact .inr .failed
  | exhausted => exact .inr .exhausted

theorem Serves.keeps (h : r.Serves) : r.Keeps .serves .tied where
  tier := h.tier
  branch := h.branch
  slot m t span' raw segments source offset _ hspan _ _ _ := by
    cases hspan
    refine .slot (fun _ => rfl) (h.tier .expression) (fun hp => hp.keywords) (fun hp => ?_)
      (fun hp _ => { hp with }) fun {p p' o o'} _ h => ?_
    · exact { tokens := .refl _, endSpan := rfl, keywords := hp.keywords, matching := hp.matching, lastSpan := rfl }
    · cases o with
      | done e q => exact absurd rfl (h e q)
      | failed fault q => exact .failed
      | exhausted => exact .exhausted
  block m terminators hts := keeps_of_done fun p p' b q hp hs hdone => by
    obtain ⟨b', q', hdone', hb, hq⟩ := Parse.Serves.blockUntil h hts hp hdone
    obtain ⟨_, hwithin⟩ := within_of_tied (f := fun r => Parse.blockUntil r terminators)
      (fun n m => (ends_tied n).keeps.block m hts) (Nat.le_refl _) hdone'
    exact ⟨b', q', hdone', hb, hq, Nat.le_trans hwithin hs⟩
  expose m := keeps_of_done fun p p' s q hp hs hdone => by
    obtain ⟨s', q', hdone', hs', hq⟩ := Parse.Serves.expose h hp hs.2 hdone
    obtain ⟨_, hwithin⟩ := within_of_tied (f := Parse.expose) (fun n => (ends_tied n).keeps.expose)
      ⟨Nat.le_refl _, (congrArg Token.terminal hp.peek).trans hs.2⟩ hdone'
    exact ⟨s', q', hdone', hs', hq, Nat.lt_of_lt_of_le hwithin hs.1⟩

theorem serves_ofDepth (depth : Nat) : (ofDepth depth).Serves := by
  induction depth with
  | zero =>
    have hnever {α : Type} {s : Parse.Stage} {R : α → α → Prop} {b : α → Parse.Stage} {x' : Parse α} (m : Nat) :
        Parse.Keeps .serves m true s R b Action.exhaust x' := fun _ _ _ _ _ _ => .inr .exhausted
    exact ⟨fun t => by cases t <;> exact hnever, hnever, fun _ _ _ _ _ _ _ h => (nomatch h),
      fun _ _ _ _ h => (nomatch h)⟩
  | succ depth ih =>
    refine ⟨fun t => ?_, fun m k p p' hk hp hs => ?_, ?_, ?_⟩
    · rw [tied_tier, tier_ofDepth]
      exact (Parse.Built.tier t).keeps ih.keeps
    · rw [tied_branch ((congrArg Token.terminal (Parser.Serves.peek hp)).trans hs.2)]
      exact Parse.Built.branch.keeps ih.keeps m k p p' hk hp hs
    · intro p p' s q hp hfront hfront' hdone
      rw [tied_statement, Parse.statement_of_not_trivia hfront']
      rw [show (ofDepth (depth + 1)).statement p = Parse.statement (ofDepth depth) p from rfl,
        Parse.statement_of_not_trivia hfront] at hdone
      rcases Parse.Built.properStatement.keeps ih.keeps _ true p p'
          (fun _ : true = true ∨ Parse.Stage.fresh = .taken => rfl) hp (Nat.le_refl _) with
        ⟨_, _, s', q', hread, hread', hs, hq, -⟩ | hstopped
      · rw [hdone] at hread
        cases hread
        exact ⟨s', q', hread', hs, hq⟩
      · exact absurd hdone (hstopped s q)
    · intro p s q hfront hdone
      rw [show (ofDepth (depth + 1)).statement p = Parse.statement (ofDepth depth) p from rfl,
        Parse.statement_of_trivia hfront] at hdone
      cases hdone
      exact ⟨Token.isTrivia_triviaForm _, rfl⟩

end Rules

end Trellis
