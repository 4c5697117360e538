import Trellis.Proofs.Grammar.Actions
import Trellis.Proofs.Script.Nodes

/-!
# What a reading gathers

Something is counted of a tree that also shows along its reading: the identities in it are given out one behind the
other, and the comments in it are taken from the tokens. A *tally* (`Parse.Tally`) says what is counted of trees, and
when an action *gathers* it: what is counted of its value are the items that it held at its start and those that
came up while it was run. A second action, which depends on an index, is run beside the first one.

What is asked of a tally is that actions can be put in a row, that looking at tokens and taking them adds nothing,
and what a new identity, a statement and a slot of a template add. Then all productions gather what is counted of
their trees if the rules do that they go back to (`Tally.properStatement`).
-/

namespace Trellis

def ExprForm.isTemplate : ExprForm → Bool
  | template _ _ => true
  | _ => false

structure Parse.Tally (ι : Type) where
  /-- What the action depends on that is run beside another one. -/
  Index : Type
  Gathers : {α : Type} → List ι → (α → List ι) → Parse α → (Index → Parse α) → Prop
  own : NodeId → List ι
  node : Node → List ι
  /-- What is counted of an expression in a slot. -/
  slotted : Expr → List ι
  node_expr : ∀ {span : Span} {form : ExprForm}, form.isTemplate = false →
    node (.expr ⟨span, form⟩) = form.parts.flatMap node
  node_template : ∀ (span : Span) (raw : String) (parts : List TemplatePart),
    node (.expr ⟨span, .template raw parts⟩) = parts.flatMap fun
      | .text _ => []
      | .slot e => slotted e
  node_block : ∀ (id : NodeId) (span : Span) (body : List Stmt),
    node (.block ⟨id, span, body⟩) = own id ++ body.flatMap fun s => node (.stmt s)
  pure : ∀ {α : Type} {held : List ι} {f : α → List ι} {a : α}, f a = held →
    Gathers held f (Pure.pure a) fun _ => Pure.pure a
  bind : ∀ {α β : Type} {held : List ι} {f : α → List ι} {g : β → List ι} {x : Parse α} {x' : Index → Parse α}
    {y : α → Parse β} {y' : Index → α → Parse β}, Gathers held f x x' →
    (∀ a, Gathers (f a) g (y a) (y' · a)) → Gathers held g (x >>= y) fun n => x' n >>= y' n
  /-- The same action, while more is held. -/
  after : ∀ {α : Type} {f : α → List ι} {x : Parse α} {x' : Index → Parse α}, Gathers [] f x x' →
    ∀ held, Gathers held (fun a => held ++ f a) x x'
  failWith : ∀ {α : Type} {held : List ι} {f : α → List ι} {x' : Index → Parse α} (fault : Fault),
    Gathers held f (Parse.failWith fault) x'
  exhaust : ∀ {α : Type} {held : List ι} {f : α → List ι} {x' : Index → Parse α},
    Gathers held f Action.exhaust x'
  /-- Look at something that does not depend on the log. -/
  read : ∀ {α : Type} {g : Parser → α} (held : List ι), (∀ p log, g { p with log } = g p) →
    Gathers held (fun _ => held) (Action.read g) fun _ => Action.read g
  advance : ∀ held, Gathers held (fun _ => held) Parse.advance fun _ => Parse.advance
  freshId : Gathers [] own Parse.freshId fun _ => Parse.freshId
  /-- A statement gets its identity behind its parts. -/
  statementOf : ∀ {held : List ι} {form : StmtForm} (span : Span), form.isTrivia = false →
    form.parts.flatMap node = held →
    Gathers held (fun s => node (.stmt s)) (Parse.statementOf form span) fun _ => Parse.statementOf form span
  slot : ∀ {r : Rules} {r' : Index → Rules} (text : Span) (source : String) (offset : Nat),
    Gathers [] (fun e => node (.expr e)) (Parse.whole r.expression) (fun n => Parse.whole (r' n).expression) →
    Gathers [] slotted (Parse.slot r text source offset) fun n => Parse.slot (r' n) text source offset

namespace Parse.Tally

variable {ι : Type} (T : Tally ι)

def expr (e : Expr) : List ι := T.node (.expr e)

def block (b : Block) : List ι := T.node (.block b)

def stmt (s : Stmt) : List ι := T.node (.stmt s)

variable {T}

@[simp] theorem node_expr_eq (e : Expr) : T.node (.expr e) = T.expr e := rfl

@[simp] theorem node_block_eq (b : Block) : T.node (.block b) = T.block b := rfl

@[simp] theorem node_stmt_eq (s : Stmt) : T.node (.stmt s) = T.stmt s := rfl

@[simp] theorem block_mk (id : NodeId) (span : Span) (body : List Stmt) :
    T.block ⟨id, span, body⟩ = T.own id ++ body.flatMap T.stmt :=
  T.node_block id span body

attribute [local simp] ExprForm.parts StmtForm.parts TemplatePart.parts Case.parts Alternate.parts

variable {α β : Type} {held : List ι} {f : α → List ι} {g : β → List ι} {r : Rules} {r' : T.Index → Rules}

/-- A production gathers what is counted of its trees, where it goes back to some rules. -/
abbrev Reads (T : Tally ι) (r : Rules) (r' : T.Index → Rules) (f : α → List ι) (x : Rules → Parse α) : Prop :=
  T.Gathers [] f (x r) fun n => x (r' n)

def IsPlain (T : Tally ι) (x : Parse α) : Prop :=
  ∀ held, T.Gathers held (fun _ => held) x fun _ => x

theorem plain {x : Parse α} {y : α → Parse β} {y' : T.Index → α → Parse β} (hx : T.IsPlain x)
    (hy : ∀ a, T.Gathers held g (y a) (y' · a)) : T.Gathers held g (x >>= y) fun n => x >>= y' n :=
  T.bind (hx held) hy

theorem look {h : Parser → α} {y : α → Parse β} {y' : T.Index → α → Parse β}
    (hlog : ∀ p log, h { p with log } = h p) (hy : ∀ a, T.Gathers held g (y a) (y' · a)) :
    T.Gathers held g (Action.read h >>= y) fun n => Action.read h >>= y' n :=
  T.bind (T.read held hlog) hy

theorem made {span : Span} {form : ExprForm} (h : form.isTemplate = false)
    (hparts : form.parts.flatMap T.node = held) :
    T.Gathers held T.expr (Pure.pure ⟨span, form⟩) fun _ => Pure.pure ⟨span, form⟩ :=
  T.pure ((T.node_expr h).trans hparts)

theorem stated {form : StmtForm} {span : Span} (h : form.isTrivia = false)
    (hparts : form.parts.flatMap T.node = held) :
    T.Gathers held T.stmt (Parse.statementOf form span) fun _ => Parse.statementOf form span :=
  T.statementOf span h hparts

theorem fail {x' : T.Index → Parse α} {cause : Cause} {span : Span} : T.Gathers held f (Parse.fail cause span) x' :=
  T.failWith _

theorem failExpected {what : String} : T.Gathers held f (Parse.failExpected what) fun _ => Parse.failExpected what :=
  look (fun _ _ => rfl) fun _ => fail

/-! ## Tokens and repetitions -/

theorem IsPlain.pure (a : α) : T.IsPlain (Pure.pure a : Parse α) := fun _ => T.pure rfl

theorem sees (t : Terminal) : T.IsPlain (Parse.sees t) := fun held => T.read held fun _ _ => rfl

theorem accept? (t : Terminal) : T.IsPlain (Parse.accept? t) := by
  refine fun held => plain (sees t) fun found => ?_
  cases found with
  | true => exact plain T.advance fun _ => T.pure rfl
  | false => exact T.pure rfl

theorem accept (t : Terminal) : T.IsPlain (Parse.accept t) :=
  fun _ => plain (accept? t) fun _ => T.pure rfl

theorem seek (t : Terminal) (what : String) (limit : Nat) : T.IsPlain (Parse.seek t what limit) := by
  intro held
  induction limit with
  | zero =>
    refine plain (sees t) fun found => ?_
    cases found with
    | true => exact T.advance held
    | false => exact failExpected
  | succ limit ih =>
    refine plain (sees t) fun found => ?_
    cases found with
    | true => exact T.advance held
    | false =>
      refine plain (sees _) fun atEnd => ?_
      cases atEnd with
      | true => exact failExpected
      | false => exact plain T.advance fun _ => ih

theorem expect (t : Terminal) (what : String) : T.IsPlain (Parse.expect t what) := by
  refine fun held => look (fun _ _ => rfl) fun matching => ?_
  cases matching with
  | strict => exact seek t what 0 held
  | lenient limit => exact seek t what limit held

def ofRound (f : α → List ι) (g : β → List ι) : Round α β → List ι
  | .again a => f a
  | .stop b => g b

theorem rounds {round : α → Parse (Round α β)} {round' : T.Index → α → Parse (Round α β)}
    (h : ∀ a, T.Gathers (f a) (ofRound f g) (round a) (round' · a)) (a : α) :
    T.Gathers (f a) g (Parse.rounds round a) fun n => Parse.rounds (round' n) a := by
  have hrepeat {γ : Type} (bound : List γ) (a : α) : T.Gathers (f a) g (Parse.repeatRound round bound a)
      fun n => Parse.repeatRound (round' n) bound a := by
    induction bound generalizing a with
    | nil => exact T.exhaust
    | cons _ bound ih =>
      refine T.bind (h a) fun ended => ?_
      cases ended with
      | again a => exact ih a
      | stop b => exact T.pure rfl
  -- the bound is looked up in the parser
  exact look (h := fun p => p.endMark :: p.tokens) (fun _ _ => rfl) fun bound => hrepeat bound a

theorem gathered {round : List α → Parse (Round (List α) (List α))}
    {round' : T.Index → List α → Parse (Round (List α) (List α))} (held : List ι)
    (h : ∀ reversed, T.Gathers (held ++ reversed.reverse.flatMap f)
      (ofRound (fun reversed => held ++ reversed.reverse.flatMap f)
        fun reversed => held ++ reversed.reverse.flatMap f) (round reversed) (round' · reversed)) :
    T.Gathers held (fun reversed => held ++ reversed.reverse.flatMap f) (Parse.rounds round [])
      fun n => Parse.rounds (round' n) [] := by
  have gather := rounds h []
  rw [show held ++ ([] : List α).reverse.flatMap f = held from List.append_nil held] at gather
  exact gather

theorem separated {item : Parse α} {item' : T.Index → Parse α} (h : T.Gathers [] f item item') (closer : Terminal)
    (what : String) :
    T.Gathers [] (fun as => as.flatMap f) (Parse.separated item closer what)
      fun n => Parse.separated (item' n) closer what := by
  refine T.bind (gathered (f := f) [] fun reversed => ?_) fun items => plain (expect _ _) fun _ => T.pure rfl
  refine plain (sees closer) fun closed => ?_
  cases closed with
  | true => exact T.pure rfl
  | false =>
    refine T.bind (T.after h _) fun a => plain (accept _) fun comma => ?_
    cases comma <;> exact T.pure (by simp [ofRound])

theorem IsPlain.separated {item : Parse α} (h : T.IsPlain item) (closer : Terminal) (what : String) :
    T.IsPlain (Parse.separated item closer what) := by
  intro held
  have hitems := T.after (Tally.separated (h []) closer what) held
  rwa [show (fun as : List α => held ++ as.flatMap fun _ => []) = fun _ => held from
    funext fun as => by simp] at hitems

/-! ## Names -/

theorem ident (what : String) : T.IsPlain (Parse.ident what) :=
  fun _ => plain (expect _ _) fun _ => T.pure rfl

theorem propertyName : T.IsPlain Parse.propertyName := by
  refine fun held => look (fun _ _ => rfl) fun token => ?_
  cases token.terminal == .name || token.kind.isKeyword with
  | true => exact plain T.advance fun _ => T.pure rfl
  | false => exact failExpected

theorem params : T.IsPlain Parse.params := by
  refine fun held => plain (accept _) fun found => ?_
  cases found with
  | true => exact IsPlain.separated (ident _) _ _ held
  | false => exact T.pure rfl

theorem propertyKey : T.IsPlain Parse.propertyKey := by
  refine fun held => look (fun _ _ => rfl) fun token => ?_
  cases token.kind with
  | text s => exact plain T.advance fun _ => T.pure rfl
  | _ => exact plain propertyName fun _ => T.pure rfl

theorem pick : T.IsPlain Parse.pick := by
  refine fun held => plain (ident _) fun name => plain (accept _) fun found => ?_
  cases found with
  | true => exact plain (ident _) fun _ => T.pure rfl
  | false => exact T.pure rfl

theorem picks : T.IsPlain Parse.picks := by
  refine fun held => plain (accept _) fun found => ?_
  cases found with
  | true => exact plain (expect _ _) fun _ => IsPlain.separated pick _ _ held
  | false => exact T.pure rfl

structure OfRules (T : Tally ι) (r : Rules) (r' : T.Index → Rules) : Prop where
  expression : T.Reads r r' T.expr (·.expression)
  comparison : T.Reads r r' T.expr (·.comparison)
  equality : T.Reads r r' T.expr (·.equality)
  sum : T.Reads r r' T.expr (·.sum)
  operand : T.Reads r r' T.expr (·.operand)
  statement : T.Reads r r' T.stmt (·.statement)
  branch : T.Reads r r' T.stmt (·.branch)

section

variable (h : T.OfRules r r')

include h

/-! ## Blocks -/

theorem blockRound (terminators : List Terminal) (held : List ι) (reversed : List Stmt) :
    T.Gathers (held ++ reversed.reverse.flatMap T.stmt)
      (ofRound (fun reversed => held ++ reversed.reverse.flatMap T.stmt)
        fun reversed => held ++ reversed.reverse.flatMap T.stmt)
      (Parse.blockRound r terminators reversed) fun n => Parse.blockRound (r' n) terminators reversed := by
  refine look (fun _ _ => rfl) fun front => ?_
  cases front.isEnd || terminators.contains front.terminal with
  | true => exact T.pure rfl
  | false => exact T.bind (T.after h.statement _) fun _ => T.pure (by simp [ofRound])

theorem blockUntil (terminators : List Terminal) : T.Reads r r' T.block (Parse.blockUntil · terminators) :=
  T.bind T.freshId fun id => look (fun _ _ => rfl) fun _ =>
    T.bind (gathered (T.own id) (blockRound h terminators (T.own id))) fun _ => T.pure (by simp)

theorem blockToEnd (what : String) : T.Reads r r' T.block (Parse.blockToEnd · what) :=
  T.bind (blockUntil h _) fun _ => plain (expect _ _) fun _ => T.pure rfl

theorem program : T.Reads r r' (fun p => T.own p.id ++ p.body.flatMap T.stmt) Parse.program := by
  simp only [Reads, program_eq]
  exact T.bind T.freshId fun id => T.bind (gathered (T.own id) (blockRound h [] (T.own id))) fun _ => T.pure rfl

/-! ## Templates -/

theorem whole : T.Reads r r' T.expr fun r => Parse.whole r.expression :=
  T.bind h.expression fun _ => plain (expect _ _) fun _ => T.pure rfl

def part (T : Tally ι) : TemplatePart → List ι
  | .text _ => []
  | .slot e => T.slotted e

theorem templateParts (text : Span) (segments : List Template.Segment) :
    T.Reads r r' (fun parts => parts.flatMap T.part) (Parse.templateParts · text segments) := by
  induction segments with
  | nil => exact T.pure rfl
  | cons segment others ih =>
    cases segment with
    | text s => exact T.bind ih fun _ => T.pure (by simp [part])
    | slot source offset =>
      exact T.bind (T.slot _ _ _ (whole h)) fun e => T.bind (T.after ih _) fun _ => T.pure (by simp [part])

theorem template (raw : String) (span : Span) : T.Reads r r' T.expr (Parse.template · raw span) := by
  unfold Parse.template
  cases Template.split raw with
  | error fault => cases fault <;> exact fail
  | ok segments =>
    exact T.bind (templateParts h span segments) fun parts => T.pure (T.node_template span raw parts)

/-! ## Primary expressions -/

theorem property : T.Reads r r' (fun p : Property => T.expr p.value) Parse.property := by
  refine plain propertyKey fun (key, canBeShort) => plain (accept _) fun colon => ?_
  cases colon with
  | true => exact T.bind h.expression fun _ => T.pure rfl
  | false =>
    cases canBeShort with
    | true => exact T.pure (T.node_expr rfl)
    | false => exact failExpected

theorem object : T.Reads r r' T.expr Parse.object :=
  plain T.advance fun _ => T.bind (separated (property h) _ _) fun _ => made rfl (by simp [List.flatMap_map])

theorem array : T.Reads r r' T.expr Parse.array :=
  plain T.advance fun _ => T.bind (separated h.expression _ _) fun _ => made rfl (by simp [List.flatMap_map])

theorem lambda : T.Reads r r' T.expr Parse.lambda :=
  plain T.advance fun _ => plain params fun _ => plain (expect _ _) fun _ => T.bind (blockToEnd h _) fun _ =>
    made rfl (by simp)

theorem continuation? (held : List ι) :
    T.Gathers held (fun c => held ++ c.toList.flatMap fun c => T.block c.body) (Parse.continuation? r)
      fun n => Parse.continuation? (r' n) := by
  refine plain (accept? _) fun found => ?_
  cases found with
  | none => exact T.pure (by simp)
  | some token =>
    exact plain params fun _ => plain (expect _ _) fun _ => T.bind (T.after (blockUntil h _) held) fun _ =>
      T.pure (by simp)

theorem continuations : T.Reads r r' (fun cs => cs.flatMap fun c => T.block c.body) Parse.continuations := by
  refine plain (sees _) fun found => ?_
  cases found with
  | false => exact T.pure rfl
  | true =>
    refine T.bind (gathered (f := fun c : Continuation => T.block c.body) [] fun reversed => ?_) fun reversed =>
      plain (expect _ _) fun _ => T.pure rfl
    refine T.bind (continuation? h _) fun next => ?_
    cases next <;> exact T.pure (by simp [ofRound])

theorem run : T.Reads r r' T.expr Parse.run := by
  refine plain T.advance fun token => T.bind h.operand fun call => ?_
  cases call.form.isCall with
  | true => exact T.bind (T.after (continuations h) _) fun _ => made rfl (by simp [List.flatMap_map])
  | false => exact fail

theorem wait : T.Reads r r' T.expr Parse.wait := by
  refine plain T.advance fun token => plain (sees _) fun runs => ?_
  cases runs with
  | true => exact T.bind (run h) fun _ => made rfl (by simp)
  | false => exact T.bind h.operand fun _ => made rfl (by simp)

theorem caseRest (span : Span) (test : Option Expr) :
    T.Gathers (test.toList.flatMap T.expr) (fun c => c.parts.flatMap T.node) (Parse.caseRest r span test)
      fun n => Parse.caseRest (r' n) span test := by
  refine plain (expect _ _) fun _ => T.bind (T.after (blockUntil h _) _) fun body => ?_
  have hparts : (Case.mk span test body).parts.flatMap T.node = test.toList.flatMap T.expr ++ T.block body := by
    cases test <;> simp
  cases body.endsInGive with
  | true => exact plain (accept _) fun _ => T.pure hparts
  | false => exact plain (expect _ _) fun _ => T.pure hparts

theorem switchCase : T.Reads r r' (fun c => c.parts.flatMap T.node) Parse.switchCase := by
  refine plain T.advance fun token => ?_
  cases token.terminal with
  | keyword k =>
    cases k with
    | caseKw =>
      refine T.bind h.expression fun e => ?_
      have rest := caseRest h token.span (some e)
      rw [Option.toList_some, List.flatMap_singleton] at rest
      exact rest
    | defaultKw => exact caseRest h token.span none
    | _ => exact fail
  | _ => exact fail

theorem switch : T.Reads r r' T.expr Parse.switch := by
  refine plain T.advance fun token => T.bind h.expression fun subject => plain (expect _ _) fun _ => ?_
  refine T.bind (gathered (f := fun c : Case => c.parts.flatMap T.node) (T.expr subject) fun reversed => ?_)
    fun reversed => plain (expect _ _) fun _ => made rfl (by simp [List.flatMap_assoc])
  refine plain (sees _) fun ended => ?_
  cases ended with
  | true => exact T.pure rfl
  | false => exact T.bind (T.after (switchCase h) _) fun _ => T.pure (by simp [ofRound])

omit h in
theorem single {form : ExprForm} (hform : form.isTemplate = false) (hparts : form.parts = []) :
    T.Gathers [] T.expr (Parse.single form) fun _ => Parse.single form :=
  plain T.advance fun _ => made hform (by rw [hparts]; rfl)

theorem grouped : T.Reads r r' T.expr Parse.grouped :=
  plain T.advance fun _ => T.bind h.expression fun _ => plain (expect _ _) fun _ => T.pure rfl

theorem negation : T.Reads r r' T.expr Parse.negation :=
  plain T.advance fun _ => T.bind h.operand fun _ => made rfl (by simp)

theorem primary : T.Reads r r' T.expr Parse.primary := by
  refine look (fun _ _ => rfl) fun token => ?_
  cases token.kind with
  | number x => exact single rfl rfl
  | text s =>
    dsimp only
    cases Template.isTemplate s with
    | true => exact plain T.advance fun _ => template h s token.span
    | false => exact single rfl rfl
  | name => exact single rfl rfl
  | symbol s =>
    cases s with
    | minus => exact negation h
    | leftParen => exact grouped h
    | leftBrace => exact object h
    | leftBracket => exact array h
    | _ => exact fail
  | keyword k =>
    cases k with
    | trueKw => exact single rfl rfl
    | falseKw => exact single rfl rfl
    | nilKw => exact single rfl rfl
    | nanKw => exact single rfl rfl
    | fnKw => exact lambda h
    | runKw => exact run h
    | waitKw => exact wait h
    | switchKw => exact switch h
    | _ => exact fail
  | _ => exact fail

/-! ## Operands and operators -/

theorem access? (e : Expr) :
    T.Gathers (T.expr e) (fun found => T.expr (found.getD e)) (Parse.access? r e) fun n => Parse.access? (r' n) e := by
  have hmade {span : Span} {form : ExprForm} (hform : form.isTemplate = false) {held : List ι}
      (hparts : form.parts.flatMap T.node = held) : T.Gathers held (fun found => T.expr (found.getD e))
        (Pure.pure (some ⟨span, form⟩)) fun _ => Pure.pure (some ⟨span, form⟩) :=
    T.pure ((T.node_expr hform).trans hparts)
  refine look (fun _ _ => rfl) fun token => ?_
  cases token.terminal with
  | symbol s =>
    cases s with
    | dot => exact plain T.advance fun _ => plain propertyName fun _ => hmade rfl (by simp)
    | leftBracket =>
      exact plain T.advance fun _ => T.bind (T.after h.expression _) fun _ => plain (expect _ _) fun _ =>
        hmade rfl (by simp)
    | leftParen =>
      exact plain T.advance fun _ => T.bind (T.after (separated h.expression _ _) _) fun _ =>
        hmade rfl (by simp [List.flatMap_map])
    | _ => exact T.pure rfl
  | _ => exact T.pure rfl

theorem operand : T.Reads r r' T.expr Parse.operand := by
  refine T.bind (primary h) fun first => rounds (f := T.expr) (fun e => ?_) first
  refine T.bind (access? h e) fun found => ?_
  cases found <;> exact T.pure rfl

theorem range : T.Reads r r' T.expr Parse.range := by
  refine T.bind (operand h) fun first => plain (accept? _) fun found => ?_
  cases found with
  | none => exact T.pure rfl
  | some dots => exact T.bind (T.after (operand h) _) fun _ => made rfl (by simp)

theorem sum : T.Reads r r' T.expr Parse.sum := by
  refine T.bind (range h) fun left => look (fun _ _ => rfl) fun token => ?_
  cases Parse.arithmetic? token.terminal with
  | none => exact T.pure rfl
  | some operator => exact plain T.advance fun _ => T.bind (T.after h.sum _) fun _ => made rfl (by simp)

theorem equality : T.Reads r r' T.expr Parse.equality := by
  refine T.bind (sum h) fun left => look (fun _ _ => rfl) fun token => ?_
  cases token.terminal with
  | symbol s =>
    cases s with
    | equal => exact plain T.advance fun _ => T.bind (T.after h.equality _) fun _ => made rfl (by simp)
    | notEqual => exact plain T.advance fun _ => T.bind (T.after h.equality _) fun _ => made rfl (by simp)
    | assign =>
      refine plain T.advance fun _ => T.bind (T.after h.expression _) fun value => ?_
      cases left.form.isTarget with
      | true => exact made rfl (by simp)
      | false => exact fail
    | _ => exact T.pure rfl
  | _ => exact T.pure rfl

theorem comparison : T.Reads r r' T.expr Parse.comparison := by
  refine T.bind (equality h) fun left => look (fun _ _ => rfl) fun token => ?_
  cases Parse.comparison? token.terminal with
  | none => exact T.pure rfl
  | some operator => exact plain T.advance fun _ => T.bind (T.after h.comparison _) fun _ => made rfl (by simp)

theorem expression : T.Reads r r' T.expr Parse.expression := by
  refine T.bind (comparison h) fun condition => plain (accept? _) fun found => ?_
  cases found with
  | none => exact T.pure rfl
  | some question =>
    exact T.bind (T.after h.expression _) fun _ => plain (expect _ _) fun _ =>
      T.bind (T.after h.expression _) fun _ => made rfl (by simp)

/-! ## Statements -/

omit h in
theorem useModule : T.Gathers [] T.stmt Parse.useModule fun _ => Parse.useModule := by
  refine plain T.advance fun token => look (fun _ _ => rfl) fun next => ?_
  cases next.kind with
  | text source =>
    refine plain T.advance fun _ => plain (accept _) fun found => ?_
    cases found with
    | true =>
      exact plain (ident _) fun _ => plain (.pure _) fun _ => plain picks fun _ => stated rfl rfl
    | false => exact plain (.pure _) fun _ => plain picks fun _ => stated rfl rfl
  | _ => exact failExpected

theorem expose : T.Reads r r' T.stmt Parse.expose := by
  refine plain T.advance fun token => T.bind h.statement fun inner => ?_
  cases inner.form.declaredName?.isSome with
  | true => exact stated rfl (by simp)
  | false => exact fail

theorem function : T.Reads r r' (fun made : Ident × List Ident × Block => T.block made.2.2) Parse.function :=
  plain T.advance fun _ => plain (ident _) fun _ => plain params fun _ => plain (expect _ _) fun _ =>
    T.bind (blockToEnd h _) fun _ => T.pure rfl

theorem declareTask : T.Reads r r' T.stmt Parse.declareTask := by
  refine plain T.advance fun token => plain (sees _) fun found => ?_
  cases found with
  | true => exact T.bind (function h) fun _ => stated rfl (by simp)
  | false => exact failExpected

theorem declareFunction : T.Reads r r' T.stmt Parse.declareFunction :=
  look (fun _ _ => rfl) fun _ => T.bind (function h) fun _ => stated rfl (by simp)

theorem declare : T.Reads r r' T.stmt Parse.declare :=
  plain T.advance fun _ => plain (ident _) fun _ => plain (expect _ _) fun _ => T.bind (expression h) fun _ =>
    stated rfl (by simp)

theorem alternate : T.Reads r r' (fun a => a.parts.flatMap T.node) Parse.alternate := by
  refine plain (sees _) fun chained => ?_
  cases chained with
  | true => exact T.bind h.branch fun _ => T.pure (by simp)
  | false => exact plain (accept _) fun _ => T.bind (blockToEnd h _) fun _ => T.pure (by simp)

theorem branch : T.Reads r r' T.stmt Parse.branch := by
  refine plain T.advance fun token => T.bind (expression h) fun condition => plain (expect _ _) fun _ =>
    T.bind (T.after (blockUntil h _) _) fun consequent => plain (accept _) fun other => ?_
  cases other with
  | true => exact T.bind (T.after (alternate h) _) fun _ => stated rfl (by simp)
  | false => exact plain (expect _ _) fun _ => stated rfl (by simp)

theorem loop : T.Reads r r' T.stmt Parse.loop := by
  refine plain T.advance fun token => plain (ident _) fun key => plain (accept _) fun comma => ?_
  have rest (value : Option Ident) : T.Reads r r' T.stmt (Parse.loopRest · key value token.span) :=
    plain (expect _ _) fun _ => T.bind (expression h) fun _ => plain (expect _ _) fun _ =>
      T.bind (T.after (blockToEnd h _) _) fun _ => stated rfl (by simp)
  cases comma with
  | true => exact plain (ident _) fun _ => plain (.pure _) rest
  | false => exact plain (.pure _) rest

theorem give : T.Reads r r' T.stmt Parse.give := by
  refine plain T.advance fun token => look (fun _ _ => rfl) fun next => ?_
  cases Parse.startsExpression next.terminal with
  | true => exact T.bind (expression h) fun _ => stated rfl (by simp)
  | false => exact stated rfl rfl

theorem expressionStatement : T.Reads r r' T.stmt Parse.expressionStatement :=
  look (fun _ _ => rfl) fun _ => T.bind (expression h) fun _ => stated rfl (by simp)

theorem properStatement : T.Reads r r' T.stmt Parse.properStatement := by
  refine look (fun _ _ => rfl) fun token => ?_
  cases token.terminal with
  | keyword k =>
    cases k with
    | useKw => exact useModule
    | exposeKw => exact expose h
    | taskKw => exact declareTask h
    | letKw => exact declare h
    | constKw => exact declare h
    | fnKw =>
      refine look (fun _ _ => rfl) fun second => ?_
      cases second.terminal == .name with
      | true => exact declareFunction h
      | false => exact expressionStatement h
    | ifKw => exact branch h
    | forKw => exact loop h
    | returnKw => exact give h
    | _ => exact expressionStatement h
  | _ => exact expressionStatement h

end

end Parse.Tally

end Trellis
