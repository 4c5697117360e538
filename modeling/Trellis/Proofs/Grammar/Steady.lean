import Trellis.Proofs.Grammar.Pace
import Trellis.Proofs.Script.Renumber

/-!
# Two readings in step

Two parsers with the same tokens may differ in the identities they give, in how many tokens they may discard, and,
as long as none was taken, in the place of the token taken last. How far apart the two may be is a *stride*: the
second parser is ahead by some identities, and it discards as many tokens as the first one or, if the stride is not
exact, at least as many.

Two actions are *in step* (`Parse.InStep`) if they lead from parsers that are so far apart to parsers that are so
far apart. Whenever the first action is done, so is the second one, and its value is that of the first one with the
identities moved on. In an exact stride the two also fail together, and with the same fault.

A pair of actions is marked by whether the place of the token taken last is the same before it and behind it: a
block starts at that place.
-/

namespace Trellis

structure Stride where
  /-- The number of identities by which the second one is ahead. -/
  ahead : Nat
  /-- Do both discard the same number of tokens? -/
  exact : Bool

def Stride.move (c : Stride) (id : NodeId) : NodeId :=
  id + c.ahead

structure Parser.InStep (c : Stride) (taken : Bool) (p p' : Parser) : Prop where
  tokens : p'.tokens = p.tokens
  endSpan : p'.endSpan = p.endSpan
  keywords : p'.keywords = p.keywords
  log : p'.log = p.log
  nextId : p'.nextId = c.move p.nextId
  discards : p.matching.limit ≤ p'.matching.limit
  exact : c.exact = true → p'.matching.limit = p.matching.limit
  lastSpan : taken = true → p'.lastSpan = p.lastSpan

/-- **What reading may leave of a parser**: some of the tokens, and everything that is chosen once. -/
structure Parser.Leaves (p q : Parser) : Prop where
  tokens : q.tokens <:+ p.tokens
  keywords : q.keywords = p.keywords
  matching : q.matching = p.matching

/-- **Two readings end in step**, the first one of which started with the given parser. -/
def Outcome.InStep {α : Type} (c : Stride) (taken : Bool) (f : α → α) (p : Parser) :
    Outcome Parser α → Outcome Parser α → Prop
  | .done a q, o => ∃ q', o = .done (f a) q' ∧ q.InStep c taken q' ∧ p.Leaves q
  | .failed fault q, o => c.exact = true → ∃ q', o = .failed fault q' ∧ q.InStep c false q'
  | .exhausted, o => c.exact = true → o = .exhausted

def Parse.InStep {α : Type} (c : Stride) (before behind : Bool) (f : α → α) (x x' : Parse α) : Prop :=
  ∀ p p' : Parser, p.InStep c before p' → (x p).InStep c behind f p (x' p')

theorem Parser.Leaves.refl (p : Parser) : p.Leaves p :=
  ⟨List.suffix_rfl, rfl, rfl⟩

namespace Parser.InStep

variable {c : Stride} {taken : Bool} {p p' : Parser}

theorem forget (h : p.InStep c taken p') : p.InStep c false p' :=
  { h with lastSpan := by rintro ⟨⟩ }

theorem endMark (h : p.InStep c taken p') : p'.endMark = p.endMark := by
  rw [Parser.endMark, h.endSpan, Parser.endMark]

theorem took (h : p.InStep c taken p') (tokens : List Token) (span : Span) :
    Parser.InStep c true { p with tokens, lastSpan := span }
      { p' with tokens, endSpan := p.endSpan, lastSpan := span } :=
  { h with tokens := rfl, endSpan := rfl, lastSpan := fun _ => rfl }

theorem advance (h : p.InStep c taken p') :
    ∃ t q q', Parse.advance p = .done t q ∧ Parse.advance p' = .done t q' ∧ q.InStep c true q' ∧ p.Leaves q := by
  unfold Parse.advance
  rw [h.tokens, h.endMark, h.endSpan]
  have hsuffix := List.dropWhile_suffix (l := p.tokens) (p := fun t => t.isTrivia)
  cases hrest : p.tokens.dropWhile (·.isTrivia) with
  | nil => exact ⟨_, _, _, rfl, rfl, h.took _ _, List.nil_suffix, rfl, rfl⟩
  | cons t others =>
    rw [hrest] at hsuffix
    cases hend : t.isEnd with
    | true =>
      simp only [hend, if_true]
      exact ⟨_, _, _, rfl, rfl, h.took _ _, hsuffix, rfl, rfl⟩
    | false =>
      simp only [hend, Bool.false_eq_true, if_false]
      exact ⟨_, _, _, rfl, rfl, h.took _ _, (List.suffix_cons t others).trans hsuffix, rfl, rfl⟩

end Parser.InStep

/-! ## The pace of two readings in step -/

section

variable {f : NodeId → NodeId}

def Kin.moved (f : NodeId → NodeId) : Kin where
  token _ := True
  span := Eq
  ident := Eq
  id i i' := i' = f i
  expr e e' := e' = e.renumber f
  block b b' := b' = b.renumber f
  stmt s s' := s' = s.renumber f

theorem Kin.meets_moved : (Kin.moved f).Meets (.renumber f) .keep :=
  ⟨Eq.symm, Eq.symm, fun h => h, fun h => h, fun h => h⟩

theorem TemplatePart.eq_renumberOf {ps ps' : List TemplatePart}
    (h : List.Forall₂ (TemplatePart.Akin (.moved f)) ps ps') : ps' = TemplatePart.renumberOf f ps := by
  have parts := map_eq_of_forall₂ (f := TemplatePart.renumber f) (fun hp => Kin.meets_moved.part hp) h
  rwa [TemplatePart.change_keep, List.map_id, ← TemplatePart.renumberOf_eq] at parts

theorem ExprForm.Akin.eq_renumber {span span' : Span} {form form' : ExprForm}
    (h : form.Akin (.moved f) span span' form') : form' = form.renumber f := by
  rw [form.renumber_eq, ← Kin.meets_moved.form h, form'.change_keep]

theorem StmtForm.Akin.eq_renumber {form form' : StmtForm} (h : form.Akin (.moved f) form') :
    form' = form.renumber f := by
  rw [form.renumber_eq, ← Kin.meets_moved.stmtForm h, form'.change_keep]

def Kinship.moved (f : NodeId → NodeId) : Kinship where
  toKin := .moved f
  word _ h _ := h ▸ rfl
  ofForm hspan h := by
    show _ = Expr.renumber f _
    rw [h.eq_renumber, Expr.renumber, hspan]
  ofStmt hid hspan h := by
    show _ = Stmt.renumber f _
    rw [h.eq_renumber, Stmt.renumber, hspan, hid]
  expr_span h := by rw [h, Expr.renumber_span]; rfl
  isCall h := by rw [h, Expr.renumber_form, ExprForm.isCall_renumber]
  isTarget h := by rw [h, Expr.renumber_form, ExprForm.isTarget_renumber]
  endsInGive h := by rw [h, Block.endsInGive_renumber]

end

def Outcome.StopsInStep {α : Type} (c : Stride) : Outcome Parser α → Outcome Parser α → Prop
  | .done _ _, _ => False
  | .failed fault q, o => c.exact = true → ∃ q', o = .failed fault q' ∧ q.InStep c false q'
  | .exhausted, o => c.exact = true → o = .exhausted

/-- **Two readings in step.** If a start is given, the first one has left some of it. -/
def Parse.Pace.inStep (c : Stride) (start : Option Parser) : Pace (.moved c.move) where
  abreast k p p' := p.InStep c k p' ∧ ∀ u ∈ start, u.Leaves p
  stopped := Outcome.StopsInStep c
  weaken h := ⟨h.1.forget, h.2⟩
  peek h := .of_eq (by rw [Parser.peek, h.1.tokens, h.1.endMark, Parser.peek]) fun _ => rfl
  second h := by rw [Parser.peekSecond, h.1.tokens, h.1.endMark, Parser.peekSecond]
  token _ := trivial
  advance := by
    rintro k p p' ⟨hp, hstart⟩ -
    obtain ⟨t, q, q', hread, hread', hq, hleaves⟩ := hp.advance
    have hstart' (u : Parser) (hu : u ∈ start) : u.Leaves q :=
      ⟨hleaves.tokens.trans (hstart u hu).tokens, hleaves.keywords.trans (hstart u hu).keywords,
        hleaves.matching.trans (hstart u hu).matching⟩
    exact ⟨t, q, t, q', hread, hread', ⟨rfl, rfl⟩, ⟨{ hq with lastSpan := fun _ => hq.lastSpan rfl }, hstart'⟩,
      fun _ => ⟨hq, hstart'⟩⟩
  limit h := by
    refine ⟨h.1.discards, ?_⟩
    cases hexact : c.exact with
    | true => exact .inl (h.1.exact hexact)
    | false => exact .inr fun _ _ _ h => absurd (hexact.symm.trans h) nofun
  freshId := by
    rintro k p p' ⟨hp, hstart⟩
    refine ⟨hp.nextId, { hp with nextId := ?_ }, fun u hu => { hstart u hu with }⟩
    show p'.nextId + 1 = p.nextId + 1 + c.ahead
    rw [hp.nextId, Stride.move, Nat.add_right_comm]
  fail := by
    rintro k p p' ⟨hp, -⟩ α cause s _ - rfl -
    refine ⟨_, rfl, { hp.forget with log := ?_ }⟩
    show p'.log.record _ = p.log.record _
    rw [hp.log]
  bind := by
    intro α β x x' p p' h y y'
    rw [Action.bind_apply, Action.bind_apply]
    cases hread : x p with
    | done a q =>
      rw [hread] at h
      exact h.elim
    | failed fault q =>
      rw [hread] at h
      intro hexact
      obtain ⟨q', hread', hq⟩ := h hexact
      exact ⟨q', by rw [hread'], hq⟩
    | exhausted =>
      rw [hread] at h
      intro hexact
      rw [h hexact]
  bounded := .inr fun h => by rw [h.1.tokens]

theorem Parse.Pace.level_inStep (c : Stride) (start : Option Parser) : (inStep c start).Level where
  front h := .of_eq (by rw [Parser.front, h.1.tokens, h.1.endMark, Parser.front]) fun _ => rfl
  lastSpan h := (h.1.lastSpan rfl).symm
  pastTrivia := by
    rintro k p p' h -
    obtain ⟨-, hq⟩ := (inStep c start).freshId h
    refine ⟨{ hq.1 with tokens := ?_ }, fun u hu => ?_⟩
    · show p'.tokens.drop 1 = p.tokens.drop 1
      rw [h.1.tokens]
    · have hu := h.2 u hu
      exact ⟨(List.drop_suffix 1 p.tokens).trans hu.tokens, hu.keywords, hu.matching⟩
  trivia t h hspan := by
    show _ = Stmt.renumber _ _
    rw [Stmt.renumber, h, hspan, Token.triviaForm]
    split <;> rfl
  block h hspan hbody := by
    show _ = Block.renumber _ _
    rw [Block.renumber, h, hspan, Stmt.renumberOf_eq, ← map_eq_of_forall₂ (g := id) (fun h => h) hbody, List.map_id]
  exposed := by
    rintro i _ span _ s _ rfl rfl rfl -
    rfl
  declares h := by
    rw [h, Stmt.renumber_form, StmtForm.declaredName?_renumber]
    exact ⟨rfl, (Stmt.renumber_span _ _).symm⟩

namespace Parse.InStep

variable {α : Type} {c : Stride} {b b₁ : Bool} {f : α → α}

theorem of_keeps {light : Bool} {s : Stage} {R : α → α → Prop} {behind : α → Stage} {x x' : Parse α}
    (h : ∀ start m, Keeps (.inStep c start) m light s R behind x x') (hs : s = .fresh ∨ s = .taken)
    (hlight : light = true ∨ s = .taken → b = true)
    (hR : ∀ a a', R a a' → a' = f a) (hbehind : b₁ = true → b = true ∨ ∀ a, behind a = .taken) :
    InStep c b b₁ f x x' := by
  intro p p' hp
  have hstart : ∀ u ∈ some p, u.Leaves p := fun u hu => Option.mem_some.mp hu ▸ .refl p
  have hwithin : s.Within (p'.tokens.length + 1) p p' := by
    rcases hs with rfl | rfl
    · exact Nat.le_succ _
    · exact Nat.lt_succ_self _
  rcases h (some p) _ b p p' hlight ⟨hp, hstart⟩ hwithin with
    ⟨a, q, a', q', hread, hread', ha, ⟨hq, hleaves⟩, htaken, -⟩ | hstopped
  · rw [hread, hread', hR a a' ha]
    refine ⟨q', rfl, { hq with lastSpan := fun h => ?_ }, hleaves p rfl⟩
    rcases hbehind h with rfl | hbehind
    · exact hq.lastSpan rfl
    · exact (htaken (hbehind a)).1.lastSpan rfl
  · cases hread : x p with
    | done a q =>
      rw [hread] at hstopped
      exact hstopped.elim
    | failed fault q =>
      rw [hread] at hstopped
      exact hstopped
    | exhausted =>
      rw [hread] at hstopped
      exact hstopped

theorem withOwnLog {x : Parse α} (h : InStep c b b₁ f x x) :
    InStep c b b₁ f (Parse.withOwnLog x) (Parse.withOwnLog x) := by
  intro p p' hp
  have hlog : Parser.InStep c b { p with log := {} } { p' with log := {} } := { hp with log := rfl }
  have hread := h _ _ hlog
  unfold Parse.withOwnLog
  cases hx : x { p with log := {} } with
  | done a q =>
    rw [hx] at hread
    obtain ⟨q', hx', hq, hleaves⟩ := hread
    exact ⟨q', by rw [hx'], hq, hleaves.tokens, hleaves.keywords, hleaves.matching⟩
  | failed fault q =>
    rw [hx] at hread
    intro hexact
    obtain ⟨q', hx', hq⟩ := hread hexact
    refine ⟨{ q' with log := {} }, ?_, { hq with log := rfl }⟩
    rw [hx']
    simp only [hq.log]
  | exhausted =>
    rw [hx] at hread
    intro hexact
    rw [hread hexact]

end Parse.InStep

/-! ## The rules -/

def Rules.Steady (c : Stride) (r : Rules) : Prop :=
  ∀ start, r.Keeps (.inStep c start) r

theorem Parse.Keeps.slot_inStep {c : Stride} {r : Rules}
    (h : ∀ start m, Keeps (.inStep c start) m true .fresh (Kin.moved c.move).expr (fun _ => .taken) r.expression
      r.expression) (text : Span) (source : String) (offset : Nat) (start : Option Parser) (m : Nat) :
    Keeps (.inStep c start) m true .fresh (Kin.moved c.move).expr (fun _ => .fresh)
      (Parse.slot r text source offset) (Parse.slot r text source offset) := by
  refine .slot (fun _ => rfl) (h none) (fun hp => hp.1.keywords) (fun hp => ⟨?_, nofun⟩) (fun hp hq => ?_) fun {p p' o o'} hp h => ?_
  · exact { tokens := rfl, endSpan := rfl, keywords := hp.1.keywords, log := rfl, nextId := hp.1.nextId,
            discards := hp.1.discards, exact := hp.1.exact, lastSpan := fun _ => rfl }
  · exact ⟨{ hp.1 with nextId := hq.1.nextId }, fun u hu => { hp.2 u hu with }⟩
  · cases o with
    | done e q => exact h.elim
    | failed fault q =>
      intro hexact
      obtain ⟨q', rfl, hq⟩ := h hexact
      have hfail : q'.log.surface fault = q.log.surface fault := by rw [hq.log]
      refine ⟨_, congrArg (fun fault => failWith fault _) hfail, { hp.1.forget with nextId := hq.nextId, log := ?_ }⟩
      exact congrArg (fun log : FaultLog => log.record _) hp.1.log
    | exhausted =>
      intro hexact
      cases h hexact
      rfl

theorem Rules.keeps_inStep (c : Stride) (depth : Nat) (start : Option Parser) :
    (ofDepth depth).Keeps (.inStep c start) (ofDepth depth) ∧ ∀ m light,
      Parse.Keeps (.inStep c start) m light .fresh (Kin.moved c.move).stmt (fun _ => .passed)
        (ofDepth depth).statement (ofDepth depth).statement := by
  refine keeps_ofDepth (c := Parse.Pace.inStep c) (Parse.Pace.level_inStep c) (fun _ _ _ => rfl) ?_ depth start
  intro r h start m t raw segments source offset span' _ hspan _ _ _
  cases hspan
  exact .slot_inStep h t.span source offset start m

theorem Rules.steady_ofDepth (c : Stride) (depth : Nat) : (Rules.ofDepth depth).Steady c :=
  fun start => (keeps_inStep c depth start).1

namespace Parse.InStep

variable {c : Stride} {r : Rules}

theorem slot (h : r.Steady c) (text : Span) (source : String) (offset : Nat) :
    InStep c true true (Expr.renumber c.move) (Parse.slot r text source offset)
      (Parse.slot r text source offset) :=
  of_keeps (.slot_inStep (fun start => (h start).tier .expression) text source offset) (.inl rfl) (fun _ => rfl)
    (fun _ _ h => h) fun _ => .inl rfl

theorem template (h : r.Steady c) (raw : String) (span : Span) :
    InStep c true true (Expr.renumber c.move) (Parse.template r raw span) (Parse.template r raw span) := by
  have hkeeps (start : Option Parser) (m : Nat) : Keeps (.inStep c start) m true .taken (Kin.moved c.move).expr
      (fun _ => .taken) (Parse.template r raw span) (Parse.template r raw span) := by
    unfold Parse.template
    cases hsplit : Template.split raw with
    | error fault => cases fault <;> exact .fail (.inl rfl) rfl
    | ok segments =>
      have hparts : Built (.moved c.move) r r true .taken _ _ (templateParts r span segments) _ :=
        .templateParts (t := ⟨.text raw, raw, span⟩) trivial rfl rfl hsplit segments (List.Subset.refl _)
      refine .bind (hparts.keeps (h start) m) fun parts parts' hps => .pure ?_ (.inr rfl)
      rw [TemplatePart.eq_renumberOf hps]
      rfl
  exact of_keeps hkeeps (.inr rfl) (fun _ => rfl) (fun _ _ h => h) fun _ => .inl rfl

end Parse.InStep

section

variable {c : Stride} {b : Bool}

theorem Parser.inStep_readProgram :
    Parse.InStep c b b (Program.renumber c.move) Parser.readProgram Parser.readProgram := by
  intro p p' hp
  have hrules : p'.rules = p.rules := by
    rw [Parser.rules, Parser.weight, hp.tokens, Parser.rules, Parser.weight]
  rw [Parse.readProgram_eq, Parse.readProgram_eq, hrules]
  refine (Parse.InStep.of_keeps (fun start m => .program (Parse.Pace.level_inStep c start) fun m =>
    (Rules.keeps_inStep c _ start).2 m false) (.inl rfl) (fun h : false = true ∨ Parse.Stage.fresh = .taken => by rcases h with h | h <;> cases h) ?_ .inl).withOwnLog p p' hp
  rintro ⟨i, body⟩ ⟨_, _⟩ ⟨rfl, hbody⟩
  rw [Program.renumber, Stmt.renumberOf_eq, ← map_eq_of_forall₂ (g := id) (fun h => h) hbody, List.map_id]

theorem Parser.inStep_readExpression :
    Parse.InStep c b true (Expr.renumber c.move) Parser.readExpression Parser.readExpression := by
  intro p p' hp
  have hrules : p'.rules = p.rules := by
    rw [Parser.rules, Parser.weight, hp.tokens, Parser.rules, Parser.weight]
  unfold Parser.readExpression
  rw [hrules, Parse.wholeExpression_eq]
  exact (Parse.InStep.of_keeps (fun start m => .whole (Parse.Built.expression.keeps
    (Rules.keeps_inStep c p.weight start).1 m)) (.inl rfl) (fun h : false = true ∨ Parse.Stage.fresh = .taken => by rcases h with h | h <;> cases h) (fun _ _ h => h)
    fun _ => .inr fun _ => rfl).withOwnLog p p' hp

end

end Trellis
