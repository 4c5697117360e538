import Trellis.Proofs.Grammar.Kinship

/-!
# What productions are built of

The grammar is compared with itself many times over: with rules of another depth, on other tokens, or starting
with other identities. How a production is put together is the same each time, so that is told once. Two actions
are *built alike* (`Parse.Built`), the one with some rules and the other one with others, if they are made of the
same pieces in the same order. Whatever is kept by every piece is then kept by every production, by an induction on
how it is built.

It is noted how far an action has come (`Stage`), since a production takes a token before it goes back to a rule, and
what the values of the two actions have to do with each other, according to a kinship. A production of which some
part starts anew behind a token may go back to the rules right from its start. Blocks, slots of templates and what
is exposed are pieces as they stand.
-/

namespace Trellis

/-- Is it a token that the grammar can take? The mark of the end stays where it is, and no production takes an
ampersand. -/
def Terminal.isPlain (t : Terminal) : Bool :=
  t != .endOfFile && t != .symbol .ampersand

theorem Token.isEnd_of_isPlain {t : Token} (h : t.terminal.isPlain = true) : t.isEnd = false := by
  rw [Token.isEnd_eq]
  rw [Terminal.isPlain, Bool.and_eq_true, bne_iff_ne] at h
  exact beq_eq_false_iff_ne.mpr h.1

theorem Terminal.ne_of_isPlain {t : Terminal} (h : t.isPlain = true) : t ≠ .symbol .ampersand := by
  rintro rfl
  cases h

/-- Does the wording of a cause end in the name of the end? -/
def Cause.namesEnd (cause : Cause) : Bool :=
  "end of file".toList.isSuffixOf cause.message.toList

theorem Cause.namesEnd_of_append {cause : Cause} {front back : String} {c : Char} (h : cause.message = front ++ back)
    (hback : back.toList.getLast? = some c) (hc : c ≠ 'e') : cause.namesEnd = false := by
  rw [namesEnd, h, String.toList_append, Bool.eq_false_iff]
  intro hsuffix
  obtain ⟨_, heq⟩ := List.isSuffixOf_iff_suffix.mp hsuffix
  have hlast := congrArg List.getLast? heq
  rw [List.getLast?_append_of_ne_nil _ (by decide), List.getLast?_append, hback] at hlast
  exact hc (Option.some.inj hlast).symm

theorem Cause.namesEnd_scan (fault : ScanFault) : (Cause.scan fault).namesEnd = false := by
  cases fault with
  | unterminatedComment => rfl
  | unterminatedText => rfl
  | _ => exact namesEnd_of_append (show _ = _ ++ "'" from rfl) rfl (by decide)

/-- The rules that read expressions. -/
inductive Rules.Tier where
  | expression
  | comparison
  | equality
  | sum
  | operand

def Rules.tier (r : Rules) : Tier → Parse Expr
  | .expression => r.expression
  | .comparison => r.comparison
  | .equality => r.equality
  | .sum => r.sum
  | .operand => r.operand

def Parse.tier (r : Rules) : Rules.Tier → Parse Expr
  | .expression => Parse.expression r
  | .comparison => Parse.comparison r
  | .equality => Parse.equality r
  | .sum => Parse.sum r
  | .operand => Parse.operand r

inductive Parse.Stage where
  | fresh
  /-- No token was taken, and this is known of the next one. -/
  | facing (Q : Token → Prop)
  | taken
  /-- A token was taken, or only a comment or a blank line was passed. -/
  | passed

/-- How far a round of a repetition has come: if it asks for another one, it has taken a token. -/
def Parse.Stage.ofRound {α β : Type} : Parse.Round α β → Stage
  | .again _ => .taken
  | .stop _ => .fresh

def Parse.Stage.found : Bool → Stage
  | true => .taken
  | false => .fresh

/-- The ends of two rounds are of a kind. -/
inductive Parse.Round.Akin {α β : Type} (R : α → α → Prop) (Q : β → β → Prop) :
    Parse.Round α β → Parse.Round α β → Prop
  | again {a a' : α} (h : R a a') : Akin R Q (.again a) (.again a')
  | stop {b b' : β} (h : Q b b') : Akin R Q (.stop b) (.stop b')

/-- Two tokens are the same up to their places. -/
structure Kin.Placed (K : Kin) (t t' : Token) : Prop where
  spans : K.span t.span t'.span
  same : t' = { t with span := t'.span }

/-- The wording of a cause does not end in the name of the end, unless it names a token there. -/
def Kin.Names (K : Kin) (cause : Cause) : Prop :=
  cause.namesEnd = false ∨ ∃ t front, K.token t ∧ cause.message = front ++ t.describe

/-- Two tokens are the same up to their places, and the first one is of the given kind. -/
inductive Kin.Tokens (K : Kin) (Q : Token → Prop) (t : Token) : Token → Prop
  | mk {span' : Span} (span : K.span t.span span') (token : K.token t) (holds : Q t) :
      Tokens K Q t { t with span := span' }

/-- Two words are the same up to their places. -/
inductive Kin.Words (K : Kin) : Ident → Ident → Prop
  | mk {name : String} {span span' : Span} (hspan : K.span span span')
      (h : K.ident ⟨name, span⟩ ⟨name, span'⟩) : Words K ⟨name, span⟩ ⟨name, span'⟩

/-- Two keys of properties are the same up to their places. One that can stand for its own value is a name. -/
inductive Kin.Keys (K : Kin) : Ident × Bool → Ident × Bool → Prop
  | mk {name : String} {span span' : Span} {short : Bool} (hspan : K.span span span')
      (h : short = true → K.ident ⟨name, span⟩ ⟨name, span'⟩) : Keys K (⟨name, span⟩, short) (⟨name, span'⟩, short)

/-- **Two actions are built alike**, where the first one goes back to some rules and the second one to others. The
flag tells if a token was taken before, and the stages how far the actions have come before and behind. -/
inductive Parse.Built (K : Kinship) (r r' : Rules) : Bool → Stage → {α : Type} → (α → α → Prop) →
    (α → Stage) → Parse α → Parse α → Prop
  | pure {R : α → α → Prop} {b : α → Stage} (h : R a a') (hb : b a = .fresh ∨ b a = s) :
      Built K r r' light s R b (Pure.pure a) (Pure.pure a')
  | bind {y y' : α → Parse β} (hx : Built K r r' light s R b x x')
      (hy : ∀ a a', R a a' → Built K r r' light (b a) Q c (y a) (y' a')) :
      Built K r r' light s Q c (x >>= y) (x' >>= y')
  /-- Forget how far an action has come. -/
  | anew {b : α → Stage} (h : Built K r r' light' .fresh R c x x') (hlight : light' = true → light = true ∨ s = .taken)
      (hb : ∀ a, b a = .fresh ∨ b a = c a ∨ b a = .taken ∧ s = .taken) : Built K r r' light s R b x x'
  | imp {Q : α → α → Prop} (h : Built K r r' light s R b x x') (himp : ∀ a a', R a a' → Q a a') :
      Built K r r' light s Q b x x'
  /-- Forget something of the token that was looked at. -/
  | face {P : Token → Prop} (h : Built K r r' light (.facing Q) R b x x') (hQ : ∀ t, P t → Q t) :
      Built K r r' light (.facing P) R b x x'
  | rule (t : Rules.Tier) (h : light = true ∨ s = .taken) :
      Built K r r' light s K.expr (fun _ => .taken) (r.tier t) (r'.tier t)
  | ruleBranch (h : light = true) :
      Built K r r' light (.facing (·.terminal = .keyword .ifKw))
        (fun s s' => K.stmt s s' ∧ s.form.isBranch = true) (fun _ => .taken) r.branch r'.branch
  | look {y y' : Token → Parse α} (h : ∀ t span', K.token t → K.span t.span span' →
        Built K r r' light (.facing (· = t)) R b (y t) (y' { t with span := span' })) :
      Built K r r' light .fresh R b (Action.read Parser.peek >>= y) (Action.read Parser.peek >>= y')
  /-- Take the place of the next token. -/
  | place {y y' : Token → Parse α}
      (h : ∀ t t' : Token, K.span t.span t'.span → Built K r r' light s R b (y t) (y' t')) :
      Built K r r' light s R b (Action.read Parser.peek >>= y) (Action.read Parser.peek >>= y')
  /-- Look for a name behind the next token. -/
  | second {y y' : Token → Parse α}
      (h : ∀ t t' : Token, (t'.terminal == .name) = (t.terminal == .name) → Built K r r' light s R b (y t) (y' t')) :
      Built K r r' light s R b (Action.read Parser.peekSecond >>= y) (Action.read Parser.peekSecond >>= y')
  | sees {t : Terminal} {y y' : Bool → Parse α} (ht : t.isPlain = true)
      (hyes : Built K r r' light (.facing (·.terminal = t)) R b (y true) (y' true))
      (hno : Built K r r' light .fresh R b (y false) (y' false)) :
      Built K r r' light .fresh R b (Parse.sees t >>= y) (Parse.sees t >>= y')
  | advance {Q : Token → Prop} (hQ : ∀ t, Q t → t.terminal.isPlain = true) :
      Built K r r' light (.facing Q) (K.Tokens Q) (fun _ => .taken) Parse.advance Parse.advance
  /-- Take the next token and refuse it if it is not of the given kinds. -/
  | oneOf {y y' : Token → Parse α} (kinds : List Terminal) (hkinds : kinds.all Terminal.isPlain = true) (what : String)
      (h : ∀ t t', K.Tokens (fun t => kinds.contains t.terminal = true) t t' → Built K r r' light .taken R b (y t) (y' t'))
      (hfail : ∀ t : Token, kinds.contains t.terminal = false → y t = Parse.fail (.expected what t.describe) t.span ∧
        y' t = Parse.fail (.expected what t.describe) t.span) :
      Built K r r' light .fresh R b (Parse.advance >>= y) (Parse.advance >>= y')
  | expect {t : Terminal} (ht : t.isPlain = true) (what : String) :
      Built K r r' light s (K.Tokens (·.terminal = t)) (fun _ => .taken) (Parse.expect t what)
        (Parse.expect t what)
  | failExpected (what : String) : Built K r r' light s R b (Parse.failExpected what) (Parse.failExpected what)
  | fail (cause : Cause) (hcause : cause.namesEnd = false) (h : K.span span span') :
      Built K r r' light .taken R b (Parse.fail cause span) (Parse.fail cause span')
  /-- Refuse the token that was looked at. -/
  | refuse {t : Token} (h : K.span t.span span') :
      Built K r r' light (.facing (· = t)) R b (Parse.fail (.unexpected t.describe) t.span)
        (Parse.fail (.unexpected t.describe) span')
  | freshId : Built K r r' light s K.id (fun _ => s) Parse.freshId Parse.freshId
  | rounds {R : α → α → Prop} {round round' : α → Parse (Parse.Round α β)}
      (h : ∀ a a', R a a' → Built K r r' light .fresh (Parse.Round.Akin R Q) Stage.ofRound (round a) (round' a'))
      (ha : R a a') : Built K r r' light .fresh Q (fun _ => .fresh) (Parse.rounds round a) (Parse.rounds round' a')
  /-- A slot of the text that was taken. -/
  | slot (ht : K.token t) (hspan : K.span t.span span') (hkind : t.kind = .text raw)
      (hsplit : Template.split raw = .ok segments) (hslot : .slot source offset ∈ segments) :
      Built K r r' light .taken K.expr (fun _ => .taken) (Parse.slot r t.span source offset)
        (Parse.slot r' span' source offset)
  | block {terminators : List Terminal} (h : light = true)
      (hts : terminators.all (fun t => t != .comment && t != .blankLine) = true) :
      Built K r r' light .fresh K.block (fun _ => .fresh) (Parse.blockUntil r terminators)
        (Parse.blockUntil r' terminators)
  | expose :
      Built K r r' light (.facing (·.terminal = .keyword .exposeKw)) K.stmt (fun _ => .taken) (Parse.expose r)
        (Parse.expose r')

section

variable {K : Kin} {Q : Token → Prop} {t t' : Token}

theorem Kin.Placed.of_eq (h : t' = t) (hspan : ∀ s, K.span s s) : K.Placed t t' := by
  subst h
  exact ⟨hspan _, rfl⟩

theorem Kin.Placed.kind (h : K.Placed t t') : t'.kind = t.kind := by
  rw [h.same]

theorem Kin.Placed.terminal (h : K.Placed t t') : t'.terminal = t.terminal :=
  congrArg TokenKind.terminal h.kind

theorem Kin.Tokens.spans (h : K.Tokens Q t t') :
    K.span t.span t'.span := by
  obtain ⟨hspan, -, -⟩ := h
  exact hspan

theorem Kin.Tokens.holds (h : K.Tokens Q t t') : Q t := by
  obtain ⟨-, -, hQ⟩ := h
  exact hQ

theorem Kinship.words {K : Kinship} (h : K.Tokens Q t t')
    (hword : t.terminal = .name ∨ t.kind.isKeyword = true) :
    K.Words ⟨t.lexeme, t.span⟩ ⟨t'.lexeme, t'.span⟩ := by
  obtain ⟨hspan, htoken, -⟩ := h
  exact ⟨hspan, K.word htoken hspan hword⟩

theorem Kin.Words.ident {i i' : Ident} (h : K.Words i i') : K.ident i i' := by
  obtain ⟨-, h⟩ := h
  exact h

end

namespace Parse.Built

/-- A production is built alike, where it goes back to some rules, and has taken a token at its end. -/
abbrev Takes (K : Kinship) (r r' : Rules) (light : Bool) (s : Stage) {α : Type} (R : α → α → Prop)
    (x : Rules → Parse α) : Prop :=
  Built K r r' light s R (fun _ => .taken) (x r) (x r')

variable {K : Kinship} {r r' : Rules} {light : Bool} {s : Stage} {Q : Token → Prop}

section

variable {α β : Type} {R : α → α → Prop} {Q : β → β → Prop} {b c : α → Stage} {d : β → Stage}
  {x x' : Parse α} {y y' : α → Parse β}

theorem bind_same (hx : Built K r r' light s Eq b x x')
    (hy : ∀ a, Built K r r' light (b a) Q d (y a) (y' a)) : Built K r r' light s Q d (x >>= y) (x' >>= y') :=
  bind hx fun a _ h => h ▸ hy a

theorem behind (h : Built K r r' true .fresh R c x x') : Built K r r' light .taken R (fun _ => .taken) x x' :=
  anew h (fun _ => .inr rfl) fun _ => .inr (.inr ⟨rfl, rfl⟩)

theorem forget (h : Built K r r' light .fresh R c x x') : Built K r r' light s R c x x' :=
  anew h .inl fun _ => .inr (.inl rfl)

theorem value {a a' : α} (h : R a a') : Built K r r' light s R (fun _ => s) (Pure.pure a) (Pure.pure a') :=
  pure h (.inr rfl)

theorem given {a a' : α} (h : R a a') : Built K r r' light s R (fun _ => .fresh) (Pure.pure a) (Pure.pure a') :=
  pure h (.inl rfl)

theorem accept? {t : Terminal} (ht : t.isPlain = true) :
    Built K r r' light .fresh (Option.Rel (K.Tokens (·.terminal = t))) (fun token => .found token.isSome)
      (Parse.accept? t) (Parse.accept? t) := by
  refine sees ht ?_ (pure .none (.inl rfl))
  exact bind (advance fun _ h => h ▸ ht) fun _ _ h => pure (.some h) (.inr rfl)

theorem accept {t : Terminal} (ht : t.isPlain = true) :
    Built K r r' light .fresh Eq Stage.found (Parse.accept t) (Parse.accept t) := by
  refine bind (accept? ht) fun token token' h => pure ?_ (.inr rfl)
  cases h <;> rfl

theorem separated {item item' : Parse α} {closer : Terminal} (hcloser : closer.isPlain = true) (what : String)
    (h : Built K r r' true .fresh R (fun _ => .taken) item item') :
    Built K r r' true .fresh (List.Forall₂ R) (fun _ => .taken) (Parse.separated item closer what)
      (Parse.separated item' closer what) := by
  rw [separated_eq, separated_eq]
  refine bind (rounds (R := List.Forall₂ R) (Q := List.Forall₂ R) (fun as as' has => ?_) .nil) fun as as' has =>
    bind (expect hcloser what) fun _ _ _ => value (List.rel_reverse has)
  refine sees hcloser (pure (.stop has) (.inl rfl)) (bind h fun a a' ha => bind_same (behind (accept rfl)) fun comma => ?_)
  cases comma with
  | true => exact pure (.again (.cons ha has)) (.inr rfl)
  | false => exact pure (.stop (.cons ha has)) (.inl rfl)

end

theorem plain {t : Token} (h : t.terminal.isPlain = true) (u : Token) (hu : u = t) : u.terminal.isPlain = true :=
  hu ▸ h

/-! ## Names and blocks -/

theorem ident (what : String) :
    Built K r r' light s K.ident (fun _ => .taken) (Parse.ident what) (Parse.ident what) :=
  bind (expect rfl what) fun _ _ h => value (K.words h (.inl h.holds)).ident

theorem propertyName : Built K r r' light .fresh K.Words (fun _ => .taken) Parse.propertyName Parse.propertyName := by
  refine look fun t span' _ _ => ?_
  obtain ⟨kind, lexeme, span⟩ := t
  cases kind with
  | name =>
    refine bind (advance (plain rfl)) fun _ _ h => value (K.words h (.inl ?_))
    rw [h.holds]
    rfl
  | keyword k =>
    refine bind (advance (plain rfl)) fun _ _ h => value (K.words h (.inr ?_))
    rw [h.holds]
    rfl
  | _ => exact failExpected _

theorem params : Built K r r' true .fresh (List.Forall₂ K.ident) (fun _ => .fresh) Parse.params Parse.params := by
  refine bind_same (accept rfl) fun opened => ?_
  cases opened with
  | true => exact imp (anew (separated rfl _ (ident _)) .inl fun _ => .inl rfl) fun _ _ h => h
  | false => exact given .nil

theorem statementOf {form form' : StmtForm} {span span' : Span} (hspan : K.span span span')
    (h : form.Akin K.toKin form') :
    Built K r r' light s K.stmt (fun _ => s) (Parse.statementOf form span) (Parse.statementOf form' span') :=
  bind freshId fun _ _ hid => value (K.ofStmt hid hspan h)

theorem blockToEnd (what : String) : Takes K r r' true .fresh K.block (Parse.blockToEnd · what) :=
  bind (block rfl rfl) fun _ _ hb => bind (expect rfl what) fun _ _ _ => value hb

/-! ## Templates -/

section

variable {t : Token} {span' : Span} {raw : String} {segments : List Template.Segment}

theorem templateParts (ht : K.token t) (hspan : K.span t.span span') (hkind : t.kind = .text raw)
    (hsplit : Template.split raw = .ok segments) (rest : List Template.Segment) (hrest : rest ⊆ segments) :
    Built K r r' light .taken (List.Forall₂ (TemplatePart.Akin K.toKin)) (fun _ => .taken)
      (Parse.templateParts r t.span rest) (Parse.templateParts r' span' rest) := by
  induction rest with
  | nil => exact value .nil
  | cons segment others ih =>
    obtain ⟨hsegment, hothers⟩ := List.cons_subset.mp hrest
    cases segment with
    | text s => exact bind (ih hothers) fun _ _ h => value (.cons (.text s) h)
    | slot source offset =>
      exact bind (slot ht hspan hkind hsplit hsegment) fun _ _ he => bind (ih hothers) fun _ _ h =>
        value (.cons (.slot he) h)

theorem template (ht : K.token t) (hspan : K.span t.span span') (hkind : t.kind = .text raw)
    (hraw : Template.isTemplate raw = true) :
    Built K r r' light .taken K.expr (fun _ => .taken) (Parse.template r raw t.span)
      (Parse.template r' raw span') := by
  unfold Parse.template
  cases hsplit : Template.split raw with
  | error fault => cases fault <;> exact fail _ rfl hspan
  | ok segments =>
    exact bind (templateParts ht hspan hkind hsplit segments (List.Subset.refl _)) fun _ _ h =>
      value (K.ofForm hspan (.template hraw h))

end

/-! ## Primary expressions -/

theorem propertyKey : Built K r r' light .fresh K.Keys (fun _ => .taken) Parse.propertyKey Parse.propertyKey := by
  have hword (short : Bool) : Built K r r' light .fresh K.Keys (fun _ => .taken)
      (Parse.propertyName >>= fun i => Pure.pure (i, short))
      (Parse.propertyName >>= fun i => Pure.pure (i, short)) := by
    refine bind propertyName fun i i' h => value ?_
    obtain ⟨hspan, h⟩ := h
    exact ⟨hspan, fun _ => h⟩
  refine look fun t span' _ _ => ?_
  obtain ⟨kind, lexeme, span⟩ := t
  cases kind with
  | text s => exact bind (advance (plain rfl)) fun _ _ h => value ⟨h.spans, nofun⟩
  | _ => exact forget (hword _)

theorem property : Takes K r r' true .fresh (Property.Akin K.toKin) Parse.property := by
  refine bind propertyKey fun key key' hkey => behind (c := fun _ => .fresh) (bind_same (accept rfl) fun colon => ?_)
  obtain ⟨hspan, hname⟩ := hkey
  cases colon with
  | true => exact bind (rule .expression (.inr rfl)) fun _ _ he => given ⟨he, nofun⟩
  | false =>
    rename_i short
    cases short with
    | true => exact given ⟨K.ofForm hspan (.name (hname rfl)), fun _ => rfl⟩
    | false => exact failExpected _

section

variable {Q : Token → Prop} (hQ : ∀ t, Q t → t.terminal.isPlain = true)

include hQ

theorem object : Takes K r r' light (.facing Q) K.expr Parse.object :=
  bind (advance hQ) fun _ _ ht => bind (behind (separated rfl _ property)) fun _ _ h =>
    value (K.ofForm ht.spans (.object h))

theorem array : Takes K r r' light (.facing Q) K.expr Parse.array :=
  bind (advance hQ) fun _ _ ht => bind (behind (separated rfl _ (rule .expression (.inl rfl)))) fun _ _ h =>
    value (K.ofForm ht.spans (.array h))

theorem lambda : Takes K r r' light (.facing Q) K.expr Parse.lambda :=
  bind (advance hQ) fun _ _ ht => bind (behind params) fun _ _ hps => bind (expect rfl _) fun _ _ _ =>
    bind (behind (blockToEnd _)) fun _ _ hb => value (K.ofForm ht.spans (.lambda hps hb))

end

theorem continuation? :
    Built K r r' true .fresh (Option.Rel (Continuation.Akin K.toKin)) (fun c => .found c.isSome)
      (Parse.continuation? r) (Parse.continuation? r') := by
  refine bind (accept? rfl) fun found found' hfound => ?_
  cases hfound with
  | none => exact pure .none (.inl rfl)
  | some ht =>
    exact bind (behind params) fun _ _ hps => bind (expect rfl _) fun _ _ _ =>
      bind (behind (block rfl rfl)) fun _ _ hb => pure (.some ⟨ht.spans, hps, hb⟩) (.inr rfl)

theorem continuations :
    Built K r r' true .fresh (List.Forall₂ (Continuation.Akin K.toKin)) (fun _ => .fresh)
      (Parse.continuations r) (Parse.continuations r') := by
  refine sees rfl (forget ?_) (given .nil)
  refine bind (rounds (R := List.Forall₂ (Continuation.Akin K.toKin)) (Q := List.Forall₂ (Continuation.Akin K.toKin))
    (fun cs cs' hcs => ?_) .nil) fun _ _ hcs => bind (expect rfl _) fun _ _ _ => given (List.rel_reverse hcs)
  refine bind continuation? fun next next' hnext => ?_
  cases hnext with
  | none => exact pure (.stop hcs) (.inl rfl)
  | some hc => exact pure (.again (.cons hc hcs)) (.inr rfl)

section

variable {Q : Token → Prop} (hQ : ∀ t, Q t → t.terminal.isPlain = true)

include hQ

theorem run : Takes K r r' light (.facing Q) K.expr Parse.run := by
  refine bind (advance hQ) fun _ _ ht => bind (rule .operand (.inr rfl)) fun call call' hcall => ?_
  rw [K.isCall hcall]
  cases isCall : call.form.isCall with
  | true => exact bind (behind continuations) fun _ _ hcs => value (K.ofForm ht.spans (.run isCall hcall hcs))
  | false => exact fail _ rfl (K.expr_span hcall)

theorem wait : Takes K r r' light (.facing Q) K.expr Parse.wait := by
  refine bind (advance hQ) fun _ _ ht => behind (c := fun _ => .fresh) (sees rfl ?_ ?_)
  · exact bind (run fun _ h => h ▸ rfl) fun _ _ he => given (K.ofForm ht.spans (.wait he))
  · exact bind (rule .operand (.inl rfl)) fun _ _ he => given (K.ofForm ht.spans (.wait he))

end

theorem caseRest {span span' : Span} (hspan : K.span span span') {test test' : Option Expr}
    (htest : Option.Rel K.expr test test') :
    Built K r r' light .taken (Case.Akin K.toKin) (fun _ => .taken) (Parse.caseRest r span test)
      (Parse.caseRest r' span' test') := by
  refine bind (expect rfl _) fun _ _ _ => bind (behind (block rfl rfl)) fun body body' hbody => ?_
  rw [K.endsInGive hbody]
  cases body.endsInGive with
  | true => exact bind (behind (accept rfl)) fun _ _ _ => value ⟨hspan, htest, hbody⟩
  | false => exact bind (expect rfl _) fun _ _ _ => value ⟨hspan, htest, hbody⟩

theorem switchCase : Takes K r r' light .fresh (Case.Akin K.toKin) Parse.switchCase := by
  refine oneOf [.keyword .caseKw, .keyword .defaultKw] rfl "'case' or 'default'" (fun t t' ht => ?_) fun t ht => ?_
  · obtain ⟨hspan, -, hkind⟩ := ht
    obtain ⟨kind, lexeme, span⟩ := t
    cases kind with
    | keyword k =>
      cases k with
      | caseKw => exact bind (rule .expression (.inr rfl)) fun _ _ he => caseRest hspan (.some he)
      | defaultKw => exact caseRest hspan .none
      | _ => cases hkind
    | _ => cases hkind
  · obtain ⟨kind, lexeme, span⟩ := t
    cases kind with
    | keyword k => cases k <;> first | exact ⟨rfl, rfl⟩ | cases ht
    | _ => exact ⟨rfl, rfl⟩

theorem switch (hQ : ∀ t, Q t → t.terminal.isPlain = true) : Takes K r r' light (.facing Q) K.expr Parse.switch := by
  refine bind (advance hQ) fun _ _ ht => bind (rule .expression (.inr rfl)) fun _ _ he => bind (expect rfl _)
    fun _ _ _ => bind (behind (rounds (R := List.Forall₂ (Case.Akin K.toKin)) (Q := List.Forall₂ (Case.Akin K.toKin))
      (fun cs cs' hcs => ?_) .nil)) fun _ _ hcs => bind (expect rfl _) fun _ _ _ =>
        value (K.ofForm ht.spans (.switch he (List.rel_reverse hcs)))
  refine sees rfl (pure (.stop hcs) (.inl rfl)) (bind switchCase fun _ _ hc => ?_)
  exact pure (.again (.cons hc hcs)) (.inr rfl)

theorem literal (hQ : ∀ t, Q t → t.terminal.isPlain = true) (value : Literal) :
    Built K r r' light (.facing Q) K.expr (fun _ => .taken) (Parse.single (.literal value))
      (Parse.single (.literal value)) :=
  bind (advance hQ) fun _ _ ht => Built.value (K.ofForm ht.spans (.literal value))

theorem primary : Takes K r r' light .fresh K.expr Parse.primary := by
  refine look fun t span' ht hspan => ?_
  obtain ⟨kind, lexeme, span⟩ := t
  cases kind with
  | number x => exact literal (plain rfl) _
  | text value =>
    simp only
    cases hraw : Template.isTemplate value with
    | true => exact bind (advance (plain rfl)) fun _ _ _ => template ht hspan rfl hraw
    | false => exact literal (plain rfl) _
  | name =>
    refine bind (advance (plain rfl)) fun u u' hu => value (K.ofForm hu.spans (.name ?_))
    have hwords := K.words hu (.inl (by rw [hu.holds]; rfl))
    obtain ⟨-, -, rfl⟩ := hu
    exact hwords.ident
  | symbol symbol =>
    cases symbol with
    | minus =>
      exact bind (advance (plain rfl)) fun _ _ hu => bind (rule .operand (.inr rfl)) fun _ _ he =>
        value (K.ofForm hu.spans (.negate he))
    | leftParen =>
      exact bind (advance (plain rfl)) fun _ _ _ => bind (rule .expression (.inr rfl)) fun _ _ he =>
        bind (expect rfl _) fun _ _ _ => value he
    | leftBrace => exact object (plain rfl)
    | leftBracket => exact array (plain rfl)
    | _ => exact refuse hspan
  | keyword k =>
    cases k with
    | trueKw => exact literal (plain rfl) _
    | falseKw => exact literal (plain rfl) _
    | nilKw => exact literal (plain rfl) _
    | nanKw => exact literal (plain rfl) _
    | fnKw => exact lambda (plain rfl)
    | runKw => exact run (plain rfl)
    | waitKw => exact wait (plain rfl)
    | switchKw => exact switch (plain rfl)
    | _ => exact refuse hspan
  | _ => exact refuse hspan

/-! ## Operands and operators -/

theorem access? {e e' : Expr} (he : K.expr e e') :
    Built K r r' true .fresh (Option.Rel K.expr) (fun found => .found found.isSome) (Parse.access? r e)
      (Parse.access? r' e') := by
  refine look fun t span' _ _ => ?_
  obtain ⟨kind, lexeme, span⟩ := t
  cases kind with
  | symbol symbol =>
    cases symbol with
    | dot =>
      exact bind (advance (plain rfl)) fun _ _ ht => bind (behind propertyName) fun _ _ hkey =>
        pure (.some (K.ofForm ht.spans (.member he hkey.ident))) (.inr rfl)
    | leftBracket =>
      exact bind (advance (plain rfl)) fun _ _ ht => bind (rule .expression (.inl rfl)) fun _ _ hkey =>
        bind (expect rfl _) fun _ _ _ => pure (.some (K.ofForm ht.spans (.index he hkey))) (.inr rfl)
    | leftParen =>
      exact bind (advance (plain rfl)) fun _ _ ht => bind (behind (separated rfl _ (rule .expression (.inl rfl))))
        fun _ _ hes => pure (.some (K.ofForm ht.spans (.call he hes))) (.inr rfl)
    | _ => exact pure .none (.inl rfl)
  | _ => exact pure .none (.inl rfl)

theorem operand : Takes K r r' light .fresh K.expr Parse.operand := by
  rw [Takes, operand_eq, operand_eq]
  refine bind primary fun _ _ hfirst => behind (rounds (R := K.expr) (fun e e' he => ?_) hfirst)
  refine bind (access? he) fun next next' hnext => ?_
  cases hnext with
  | none => exact pure (.stop he) (.inl rfl)
  | some h => exact pure (.again h) (.inr rfl)

theorem range : Takes K r r' light .fresh K.expr Parse.range := by
  refine bind operand fun _ _ hfirst => behind (c := fun _ => .fresh) (bind (accept? rfl) fun dots dots' hdots => ?_)
  cases hdots with
  | none => exact given hfirst
  | some ht => exact bind (behind operand) fun _ _ hlast => given (K.ofForm ht.spans (.range hfirst hlast))

theorem isPlain_of_arithmetic? {t : Terminal} {operator : Arithmetic} (h : Parse.arithmetic? t = some operator) :
    t.isPlain = true := by
  cases t with
  | symbol symbol => cases symbol <;> first | rfl | cases h
  | _ => cases h

theorem isPlain_of_comparison? {t : Terminal} {operator : Comparison} (h : Parse.comparison? t = some operator) :
    t.isPlain = true := by
  cases t with
  | symbol symbol => cases symbol <;> first | rfl | cases h
  | _ => cases h

theorem sum : Takes K r r' light .fresh K.expr Parse.sum := by
  refine bind range fun _ _ hleft => behind (c := fun _ => .fresh) (look fun t span' _ _ => ?_)
  have hsame : ({ t with span := span' } : Token).terminal = t.terminal := rfl
  rw [hsame]
  cases hoperator : Parse.arithmetic? t.terminal with
  | none => exact given hleft
  | some operator =>
    exact bind (advance fun _ h => h ▸ isPlain_of_arithmetic? hoperator) fun _ _ ht =>
      bind (rule .sum (.inr rfl)) fun _ _ hright => given (K.ofForm ht.spans (.arithmetic operator hleft hright))

theorem equality : Takes K r r' light .fresh K.expr Parse.equality := by
  refine bind sum fun left left' hleft => behind (c := fun _ => .fresh) (look fun t span' _ _ => ?_)
  obtain ⟨kind, lexeme, span⟩ := t
  cases kind with
  | symbol symbol =>
    cases symbol with
    | equal =>
      exact bind (advance (plain rfl)) fun _ _ ht => bind (rule .equality (.inr rfl)) fun _ _ hright =>
        given (K.ofForm ht.spans (.equal false hleft hright))
    | notEqual =>
      exact bind (advance (plain rfl)) fun _ _ ht => bind (rule .equality (.inr rfl)) fun _ _ hright =>
        given (K.ofForm ht.spans (.equal true hleft hright))
    | assign =>
      refine bind (advance (plain rfl)) fun _ _ ht => bind (rule .expression (.inr rfl)) fun _ _ hvalue => ?_
      rw [K.isTarget hleft]
      cases isTarget : left.form.isTarget with
      | true => exact given (K.ofForm ht.spans (.assign isTarget hleft hvalue))
      | false => exact fail _ rfl ht.spans
    | _ => exact given hleft
  | _ => exact given hleft

theorem comparison : Takes K r r' light .fresh K.expr Parse.comparison := by
  refine bind equality fun _ _ hleft => behind (c := fun _ => .fresh) (look fun t span' _ _ => ?_)
  have hsame : ({ t with span := span' } : Token).terminal = t.terminal := rfl
  rw [hsame]
  cases hoperator : Parse.comparison? t.terminal with
  | none => exact given hleft
  | some operator =>
    exact bind (advance fun _ h => h ▸ isPlain_of_comparison? hoperator) fun _ _ ht =>
      bind (rule .comparison (.inr rfl)) fun _ _ hright => given (K.ofForm ht.spans (.compare operator hleft hright))

theorem expression : Takes K r r' light .fresh K.expr Parse.expression := by
  refine bind comparison fun _ _ hcondition => behind (c := fun _ => .fresh)
    (bind (accept? rfl) fun question question' hquestion => ?_)
  cases hquestion with
  | none => exact given hcondition
  | some ht =>
    exact bind (rule .expression (.inl rfl)) fun _ _ hconsequent => bind (expect rfl _) fun _ _ _ =>
      bind (rule .expression (.inl rfl)) fun _ _ halternate =>
        given (K.ofForm ht.spans (.conditional hcondition hconsequent halternate))

theorem tier (t : Rules.Tier) : Takes K r r' light .fresh K.expr (Parse.tier · t) :=
  match t with
  | .expression => expression
  | .comparison => comparison
  | .equality => equality
  | .sum => sum
  | .operand => operand

/-! ## Statements -/

theorem pick : Built K r r' true .fresh (Pick.Akin K.toKin) (fun _ => .taken) Parse.pick Parse.pick := by
  refine bind (ident _) fun _ _ hname => behind (c := fun _ => .fresh) (bind_same (accept rfl) fun called => ?_)
  cases called with
  | true => exact bind (ident _) fun _ _ hcalled => given ⟨hname, .some hcalled⟩
  | false => exact given ⟨hname, .none⟩

theorem picks :
    Built K r r' true .fresh (List.Forall₂ (Pick.Akin K.toKin)) (fun _ => .fresh) Parse.picks Parse.picks := by
  refine bind_same (accept rfl) fun starts => ?_
  cases starts with
  | true =>
    exact bind (expect rfl _) fun _ _ _ => anew (separated rfl _ pick) (fun h => .inl h) fun _ => .inl rfl
  | false => exact given .nil

section

variable {Q : Token → Prop} (hQ : ∀ t, Q t → t.terminal.isPlain = true)

include hQ

theorem useModule : Built K r r' light (.facing Q) K.stmt (fun _ => .taken) Parse.useModule Parse.useModule := by
  refine bind (advance hQ) fun _ _ ht => behind (c := fun _ => .taken) (look fun next span' _ _ => ?_)
  obtain ⟨kind, lexeme, span⟩ := next
  cases kind with
  | text source =>
    refine bind (advance (plain rfl)) fun _ _ _ => bind_same (behind (accept rfl)) fun called => ?_
    cases called with
    | true =>
      exact bind (ident _) fun _ _ hname => bind (value (.some hname)) fun _ _ hcalled =>
        bind (behind picks) fun _ _ hpicks => statementOf ht.spans (.useModule source hcalled hpicks)
    | false =>
      exact bind (value .none) fun _ _ hcalled => bind (behind picks) fun _ _ hpicks =>
        statementOf ht.spans (.useModule source hcalled hpicks)
  | _ => exact failExpected _

theorem function :
    Takes K r r' light (.facing Q) (fun parts parts' => K.ident parts.1 parts'.1 ∧
      List.Forall₂ K.ident parts.2.1 parts'.2.1 ∧ K.block parts.2.2 parts'.2.2) Parse.function :=
  bind (advance hQ) fun _ _ _ => bind (ident _) fun _ _ hname => bind (behind params) fun _ _ hps =>
    bind (expect rfl _) fun _ _ _ => bind (behind (blockToEnd _)) fun _ _ hb => value ⟨hname, hps, hb⟩

theorem declareTask : Takes K r r' light (.facing Q) K.stmt Parse.declareTask := by
  refine bind (advance hQ) fun _ _ ht => behind (c := fun _ => .taken) (sees rfl ?_ (failExpected _))
  exact bind (function fun _ h => h ▸ rfl) fun _ _ h => statementOf ht.spans (.declareTask h.1 h.2.1 h.2.2)

theorem declareFunction : Takes K r r' light (.facing Q) K.stmt Parse.declareFunction :=
  place fun _ _ hspan => bind (function hQ) fun _ _ h => statementOf hspan (.declareFunction h.1 h.2.1 h.2.2)

theorem declare : Takes K r r' light (.facing Q) K.stmt Parse.declare := by
  refine bind (advance hQ) fun _ _ ht => bind (ident _) fun _ _ hname => bind (expect rfl _) fun _ _ _ =>
    bind (behind expression) fun _ _ he => ?_
  obtain ⟨hspan, -, -⟩ := ht
  exact statementOf hspan (.declare _ hname he)

end

theorem alternate :
    Built K r r' true .fresh (Alternate.Akin K.toKin) (fun _ => .fresh) (Parse.alternate r)
      (Parse.alternate r') := by
  refine sees rfl ?_ ?_
  · exact bind (ruleBranch rfl) fun _ _ h => given (.branch h.1 h.2)
  · exact bind (anew (accept rfl) .inl fun _ => .inl rfl) fun _ _ _ => bind (blockToEnd _) fun _ _ hb =>
      given (.block hb)

theorem branch :
    Takes K r r' light (.facing (·.terminal = .keyword .ifKw))
      (fun s s' => K.stmt s s' ∧ s.form.isBranch = true) Parse.branch := by
  refine bind (advance fun _ h => h ▸ rfl) fun _ _ ht => bind (behind expression) fun _ _ he =>
    bind (expect rfl _) fun _ _ _ => bind (behind (block rfl rfl)) fun _ _ hb =>
      bind_same (behind (accept rfl)) fun other => ?_
  cases other with
  | true =>
    exact bind (behind alternate) fun _ _ ha => bind freshId fun _ _ hid =>
      value ⟨K.ofStmt hid ht.spans (.branch he hb (.some ha)), rfl⟩
  | false =>
    exact bind (expect rfl _) fun _ _ _ => bind freshId fun _ _ hid =>
      value ⟨K.ofStmt hid ht.spans (.branch he hb .none), rfl⟩

theorem loop (hQ : ∀ t, Q t → t.terminal.isPlain = true) : Takes K r r' light (.facing Q) K.stmt Parse.loop := by
  refine bind (advance hQ) fun token token' ht => bind (ident _) fun key key' hkey =>
    bind_same (behind (accept rfl)) fun comma => ?_
  have hrest (value value' : Option Ident) (hvalue : Option.Rel K.ident value value') :
      Built K r r' light .taken K.stmt (fun _ => .taken) (Parse.loopRest r key value token.span)
        (Parse.loopRest r' key' value' token'.span) :=
    bind (expect rfl _) fun _ _ _ => bind (behind expression) fun _ _ he => bind (expect rfl _) fun _ _ _ =>
      bind (behind (blockToEnd _)) fun _ _ hb => statementOf ht.spans (.loop hkey hvalue he hb)
  cases comma with
  | true => exact bind (ident _) fun _ _ hname => bind (value (.some hname)) hrest
  | false => exact bind (value .none) hrest

theorem give (hQ : ∀ t, Q t → t.terminal.isPlain = true) : Takes K r r' light (.facing Q) K.stmt Parse.give := by
  refine bind (advance hQ) fun _ _ ht => behind (c := fun _ => .fresh) (look fun next span' _ _ => ?_)
  show Built K r r' _ _ _ _ (if Parse.startsExpression next.terminal then _ else _)
    (if Parse.startsExpression next.terminal then _ else _)
  cases Parse.startsExpression next.terminal with
  | true =>
    exact bind (forget expression) fun _ _ he => anew (statementOf ht.spans (.give (.some he))) .inl
      fun _ => .inl rfl
  | false => exact anew (statementOf ht.spans (.give .none)) .inl fun _ => .inl rfl

theorem expressionStatement : Takes K r r' light .fresh K.stmt Parse.expressionStatement :=
  place fun _ _ hspan => bind expression fun _ _ he => statementOf hspan (.expression he)

theorem properStatement : Takes K r r' light .fresh K.stmt Parse.properStatement := by
  refine look fun t span' _ _ => ?_
  obtain ⟨kind, lexeme, span⟩ := t
  cases kind with
  | keyword k =>
    cases k with
    | useKw => exact useModule (plain rfl)
    | exposeKw => exact face expose fun _ h => h ▸ rfl
    | taskKw => exact declareTask (plain rfl)
    | letKw => exact declare (plain rfl)
    | constKw => exact declare (plain rfl)
    | fnKw =>
      refine second fun next next' hnext => ?_
      rw [hnext]
      cases next.terminal == .name with
      | true => exact declareFunction (plain rfl)
      | false => exact forget expressionStatement
    | ifKw => exact face (imp branch fun _ _ h => h.1) fun _ h => h ▸ rfl
    | forKw => exact loop (plain rfl)
    | returnKw => exact give (plain rfl)
    | _ => exact forget expressionStatement
  | _ => exact forget expressionStatement

end Parse.Built

end Trellis
