import Trellis.Proofs.Grammar.Tally
import Trellis.Proofs.Script.Outline

/-!
# Identities are given in a row

A parser gives out one identity after another, so what is read has the identities from the next free one before to
the next free one behind, each of them once. An action *numbers* what it reads (`Parse.Numbers`) if it adds exactly
these identities to those of what was read before, which it may hold. So the identities are a tally of the trees
(`Parse.Tally.numbers`). A slot of a template is read by a parser of its own, which goes on from the next free
identity and hands back the one that it ends with, also when it fails.

So the identities of a program are pairwise distinct and new. This is what outlines rest on.
-/

namespace Trellis

/-! ## The identities in a piece of a script -/

def Expr.ids (e : Expr) : List NodeId := (Node.expr e).ids

def Block.ids (b : Block) : List NodeId := (Node.block b).ids

def Stmt.ids (s : Stmt) : List NodeId := (Node.stmt s).ids

@[simp] theorem Node.ids_expr (e : Expr) : (Node.expr e).ids = e.ids := rfl

@[simp] theorem Expr.ids_mk (span : Span) (form : ExprForm) : Expr.ids ⟨span, form⟩ = form.parts.flatMap Node.ids :=
  Node.ids_eq _

@[simp] theorem Block.ids_mk (id : NodeId) (span : Span) (body : List Stmt) :
    Block.ids ⟨id, span, body⟩ = id :: body.flatMap Stmt.ids := by
  unfold Block.ids
  rw [Node.ids_eq]
  exact congrArg (id :: ·) (List.flatMap_map ..)

@[simp] theorem Stmt.ids_mk (id : NodeId) (span : Span) (form : StmtForm) :
    Stmt.ids ⟨id, span, form⟩ = id :: form.parts.flatMap Node.ids :=
  Node.ids_eq _

theorem Program.ids_eq (p : Program) : p.ids = p.id :: p.body.flatMap Stmt.ids := by
  unfold Program.ids Program.nodes
  rw [List.filterMap_flatMap]
  rfl

/-! ## Numbering -/

/-- **What an action adds to the identities that are held**: all those from the next free one before it to the
next free one behind it. If it fails, the next free one is not a former one. -/
def Outcome.Numbers {α : Type} (held : List NodeId) (ids : α → List NodeId) (p : Parser) : Outcome Parser α → Prop
  | .done a q =>
    p.nextId ≤ q.nextId ∧ (ids a).Perm (held ++ List.range' p.nextId (q.nextId - p.nextId))
  | .failed _ q => p.nextId ≤ q.nextId
  | .exhausted => True

namespace Parse

def Numbers {α : Type} (held : List NodeId) (ids : α → List NodeId) (x : Parse α) : Prop :=
  ∀ p, (x p).Numbers held ids p

variable {α β : Type} {held : List NodeId} {f : α → List NodeId} {g : β → List NodeId}

namespace Numbers

theorem pure {a : α} (h : (f a).Perm held) : Numbers held f (Pure.pure a) := by
  intro p
  refine ⟨Nat.le_refl _, ?_⟩
  rw [Nat.sub_self, List.range'_zero, List.append_nil]
  exact h

theorem exhaust : Numbers held f (Action.exhaust : Parse α) := fun _ => trivial

variable {x : Parse α} {p q : Parser}

theorem bind {y : α → Parse β} (hx : Numbers held f x) (hy : ∀ a, Numbers (f a) g (y a)) :
    Numbers held g (x >>= y) := by
  intro p
  have first := hx p
  rw [Action.bind_apply]
  cases hread : x p with
  | done a q =>
    rw [hread] at first
    have le₁ : p.nextId ≤ q.nextId := first.1
    have second := hy a q
    dsimp only
    cases hnext : y a q with
    | done b u =>
      rw [hnext] at second
      have le₂ : q.nextId ≤ u.nextId := second.1
      refine ⟨Nat.le_trans le₁ le₂, second.2.trans ?_⟩
      -- The identities of the two make one row.
      have row : List.range' p.nextId (u.nextId - p.nextId) =
          List.range' p.nextId (q.nextId - p.nextId) ++ List.range' q.nextId (u.nextId - q.nextId) := by
        have row := List.range'_append_1 (s := p.nextId) (m := q.nextId - p.nextId)
          (n := u.nextId - q.nextId)
        rw [Nat.add_sub_cancel' le₁, Nat.add_comm, Nat.sub_add_sub_cancel le₂ le₁] at row
        exact row.symm
      rw [row, ← List.append_assoc]
      exact first.2.append_right _
    | failed fault u =>
      rw [hnext] at second
      exact Nat.le_trans le₁ second
    | exhausted => trivial
  | failed fault q =>
    rw [hread] at first
    exact first
  | exhausted => trivial

theorem after (h : Numbers [] f x) (held : List NodeId) : Numbers held (fun a => held ++ f a) x := by
  intro p
  have read := h p
  cases hread : x p with
  | done a q =>
    rw [hread] at read
    exact ⟨read.1, read.2.append_left held⟩
  | failed fault q =>
    rw [hread] at read
    exact read
  | exhausted => trivial

theorem done (h : Numbers [] f x) {a : α} (hread : x p = .done a q) :
    p.nextId ≤ q.nextId ∧ (f a).Nodup ∧ ∀ id ∈ f a, p.nextId ≤ id ∧ id < q.nextId := by
  have read := h p
  rw [hread] at read
  have le : p.nextId ≤ q.nextId := read.1
  refine ⟨le, read.2.nodup_iff.mpr List.nodup_range', fun id mem => ?_⟩
  obtain ⟨lower, upper⟩ := List.mem_range'_1.mp (read.2.mem_iff.mp mem)
  rw [Nat.add_sub_cancel' le] at upper
  exact ⟨lower, upper⟩

theorem lt_of_done (h : Numbers [] f x) {a : α} (hread : x p = .done a q) {used : List NodeId}
    (old : ∀ id ∈ used, id < p.nextId) : ∀ id ∈ f a ++ used, id < q.nextId := by
  obtain ⟨le, -, range⟩ := h.done hread
  intro id mem
  obtain mem | mem := List.mem_append.mp mem
  · exact (range id mem).2
  · exact Nat.lt_of_lt_of_le (old id mem) le

theorem failed (h : Numbers held f x) {fault : Fault} (hread : x p = .failed fault q) : p.nextId ≤ q.nextId := by
  have read := h p
  rw [hread] at read
  exact read

theorem of_nextId (h : ∀ p, (∃ a q, x p = .done a q ∧ q.nextId = p.nextId) ∨
    ∃ fault q, x p = .failed fault q ∧ q.nextId = p.nextId) : Numbers held (fun _ => held) x := by
  intro p
  obtain ⟨a, q, hread, same⟩ | ⟨fault, q, hread, same⟩ := h p
  · rw [hread]
    refine ⟨Nat.le_of_eq same.symm, ?_⟩
    rw [same, Nat.sub_self, List.range'_zero, List.append_nil]
  · rw [hread]
    exact Nat.le_of_eq same.symm

theorem advance : Numbers held (fun _ => held) Parse.advance := by
  refine of_nextId fun p => .inl ?_
  unfold Parse.advance
  cases p.tokens.dropWhile (·.isTrivia) with
  | nil => exact ⟨_, _, rfl, rfl⟩
  | cons t others =>
    dsimp only
    split <;> exact ⟨_, _, rfl, rfl⟩

theorem freshId : Numbers [] (fun id => [id]) Parse.freshId := by
  intro p
  refine ⟨Nat.le_succ _, ?_⟩
  show [p.nextId].Perm ([] ++ List.range' p.nextId (p.nextId + 1 - p.nextId))
  rw [Nat.add_sub_cancel_left]
  exact .refl _

theorem statementOf {form : StmtForm} (h : form.parts.flatMap Node.ids = held) (span : Span) :
    Numbers held Stmt.ids (Parse.statementOf form span) := by
  refine bind (freshId.after held) fun id => pure ?_
  -- It is given last and stands first in the tree, so only the order differs.
  rw [Stmt.ids_mk, h]
  exact (List.perm_append_singleton id held).symm

theorem withOwnLog (h : Numbers held f x) : Numbers held f (Parse.withOwnLog x) := by
  intro p
  have read := h { p with log := {} }
  unfold Parse.withOwnLog
  cases hread : x { p with log := {} } with
  | done a q =>
    rw [hread] at read
    exact read
  | failed fault q =>
    rw [hread] at read
    exact read
  | exhausted => trivial

theorem slot {r : Rules} (h : Numbers [] Expr.ids (Parse.whole r.expression)) (text : Span) (source : String)
    (offset : Nat) : Numbers [] Expr.ids (Parse.slot r text source offset) := by
  intro p
  unfold Parse.slot
  dsimp only
  generalize (scan p.keywords source).tokens.map
    (fun t => { t with span := Parse.shiftSpan text offset t.span }) = tokens
  cases (scan p.keywords source).faults with
  | cons fault others => exact Nat.le_refl _
  | nil =>
    -- The parser of the slot starts with the next free identity, and that is all it shares.
    have read := withOwnLog h (Parse.slotParser p tokens)
    rw [← Parse.wholeExpression_eq] at read
    dsimp only
    cases hread : Parse.wholeExpression r.expression (Parse.slotParser p tokens) with
    | done e q =>
      rw [hread] at read
      exact read
    | failed fault q =>
      rw [hread] at read
      exact read
    | exhausted => trivial

end Numbers

/-- **The identities in a tree are counted.** Nothing is run beside the reading. -/
def Tally.numbers : Tally NodeId where
  Index := Unit
  Gathers held ids x _ := Numbers held ids x
  own id := [id]
  node := Node.ids
  slotted := Expr.ids
  node_expr _ := Expr.ids_mk _ _
  node_template span raw parts := by
    rw [Node.ids_expr, Expr.ids_mk, ExprForm.parts, List.flatMap_assoc]
    refine List.flatMap_congr fun part _ => ?_
    cases part with
    | text s => rfl
    | slot e => exact List.flatMap_singleton ..
  node_block := Block.ids_mk
  pure same := .pure (same ▸ .refl _)
  bind := .bind
  after := .after
  failWith _ _ := Nat.le_refl _
  exhaust _ := trivial
  read _ _ := .of_nextId fun p => .inl ⟨_, p, rfl, rfl⟩
  advance _ := .advance
  freshId := .freshId
  statementOf span _ hparts := .statementOf hparts span
  slot text source offset h := .slot h text source offset

end Parse

/-! ## The rules -/

theorem Rules.numbers_ofDepth (depth : Nat) : Parse.Tally.numbers.OfRules (ofDepth depth) fun _ => ofDepth depth := by
  induction depth with
  | zero => exact ⟨.exhaust, .exhaust, .exhaust, .exhaust, .exhaust, .exhaust, .exhaust⟩
  | succ depth ih =>
    refine ⟨Parse.Tally.expression ih, Parse.Tally.comparison ih, Parse.Tally.equality ih, Parse.Tally.sum ih,
      Parse.Tally.operand ih, ?_, Parse.Tally.branch ih⟩
    -- comments and blank lines are statements too
    have trivial (form : StmtForm) (span : Span) (hparts : form.parts = []) : Parse.Numbers [] Stmt.ids
        (Parse.dropFront >>= fun _ => Parse.statementOf form span) :=
      .bind (.of_nextId fun _ => .inl ⟨_, _, rfl, rfl⟩) fun _ => .statementOf (by rw [hparts]; rfl) span
    refine Parse.Tally.look (T := Parse.Tally.numbers) (h := Parser.front) (fun _ _ => rfl) fun token => ?_
    cases token.kind with
    | comment => exact trivial _ _ rfl
    | blankLine => exact trivial _ _ rfl
    | _ => exact Parse.Tally.properStatement ih

/-! ## Readings of one parser -/

namespace Parser

/-- **A parser that has read some things**, whose identities are given. It may have got more tokens in
between, and other settings, and readings may have failed. -/
inductive AfterReading : List NodeId → Parser → Prop where
  | start (p : Parser) : AfterReading [] p
  | between {used p p'} (h : AfterReading used p) (next : p'.nextId = p.nextId) :
      AfterReading used p'
  | program {used p q program} (h : AfterReading used p)
      (done : p.readProgram = .done program q) : AfterReading (program.ids ++ used) q
  | expression {used p q e} (h : AfterReading used p)
      (done : p.readExpression = .done e q) : AfterReading (e.ids ++ used) q
  | programFailed {used p q fault} (h : AfterReading used p)
      (failed : p.readProgram = .failed fault q) : AfterReading used q
  | expressionFailed {used p q fault} (h : AfterReading used p)
      (failed : p.readExpression = .failed fault q) : AfterReading used q

theorem numbers_readProgram : Parse.Numbers [] Program.ids readProgram := by
  intro p
  rw [Parse.readProgram_eq]
  rw [show Program.ids = _ from funext Program.ids_eq]
  exact Parse.Numbers.withOwnLog (Parse.Tally.program (Rules.numbers_ofDepth _)) p

theorem numbers_readExpression : Parse.Numbers [] Expr.ids readExpression := by
  intro p
  unfold readExpression
  rw [Parse.wholeExpression_eq]
  exact Parse.Numbers.withOwnLog (Parse.Tally.whole (Rules.numbers_ofDepth _)) p

variable {used : List NodeId} {p : Parser}

theorem AfterReading.lt_nextId (h : AfterReading used p) : ∀ id ∈ used, id < p.nextId := by
  induction h with
  | start p => exact fun id mem => nomatch mem
  | between _ next ih => exact fun id mem => next ▸ ih id mem
  | program _ done ih => exact numbers_readProgram.lt_of_done done ih
  | expression _ done ih => exact numbers_readExpression.lt_of_done done ih
  | programFailed _ failed ih =>
    exact fun id mem => Nat.lt_of_lt_of_le (ih id mem) (numbers_readProgram.failed failed)
  | expressionFailed _ failed ih =>
    exact fun id mem => Nat.lt_of_lt_of_le (ih id mem) (numbers_readExpression.failed failed)

/-- **Identities and outlines are right**, whatever the tokens, the keywords and the mode of matching are, and
whatever the parser read before.

* The identities of a program, of its blocks and of its statements are pairwise distinct, and none of them was
  given before.
* The outline has one entry for each statement.
* The block of a statement in the outline is the innermost block around it, or the program if there is none.
  What the outline says of that block is right, and the depth of the statement is the number of the blocks
  around it. -/
theorem AfterReading.outline_right {program : Program} {q : Parser} (h : AfterReading used p)
    (done : p.readProgram = .done program q) :
    (program.ids.Nodup ∧ (∀ id ∈ program.ids, id ∉ used) ∧
      ∀ id ∈ program.ids, p.nextId ≤ id ∧ id < q.nextId) ∧
    (program.outline.statements.length = program.nodes.countP Node.isStmt ∧
      (program.outline.statements.map (·.1)).Nodup) ∧
    (∀ n, n ∈ program.nodes ↔ ∃ blocks, program.Around blocks n) ∧
    ∀ blocks s, program.Around blocks (.stmt s) →
      program.outline.parent? s.id = some (program.blockInfo blocks).id ∧
      program.outline.enclosing? s.id = some (program.blockInfo blocks) ∧
      program.outline.depth s.id = blocks.length := by
  obtain ⟨-, nodup, range⟩ := numbers_readProgram.done done
  refine ⟨⟨nodup, fun id mem old => ?_, range⟩, ⟨program.length_outline_statements, ?_⟩,
    fun n => Program.mem_nodes_iff, fun blocks s around => around.outline nodup⟩
  · exact Nat.lt_irrefl id (Nat.lt_of_lt_of_le (h.lt_nextId id old) (range id mem).1)
  · exact Outline.nodup_statements (program.outline_ids ▸ nodup)

def nestedTokens : List Token :=
  (scan .default "fn f():\n  if x:\n    y\n  end\nend\n").tokens

def readingTwice : Parse (Program × Program) := do
  let first ← readProgram
  Action.change (·.push nestedTokens)
  let second ← readProgram
  return (first, second)

/-- The second program that a parser reads has three statements, with none, one and two blocks around them,
and shares no identity with the first one. -/
theorem outline_right_readingTwice :
    ∃ (first : Program) (p : Parser) (second : Program) (q : Parser),
      AfterReading first.ids p ∧ p.readProgram = .done second q ∧ first.ids ≠ [] ∧
      second.ids.Nodup ∧ (∀ id ∈ second.ids, id ∉ first.ids) ∧
      second.nodes.countP Node.isStmt = 3 ∧ second.outline.statements.length = 3 ∧
      ∀ blocks s, second.Around blocks (.stmt s) → blocks.length + s.id = 7 := by
  have run : (match readingTwice (ofTokens (scan .default "x\n").tokens) with
      | .done (_, second) _ => second.outline.statements.map (fun s => (s.1, second.outline.depth s.1)) ==
          [(7, 0), (6, 1), (5, 2)]
      | _ => false) = true := by decide +kernel
  cases both : readingTwice (ofTokens (scan .default "x\n").tokens) with
  | failed fault q => rw [both] at run; cases run
  | exhausted => rw [both] at run; cases run
  | done programs q =>
    obtain ⟨first, second⟩ := programs
    rw [both, beq_iff_eq] at run
    obtain ⟨_, p₁, readFirst, rest⟩ := Action.done_bind both
    obtain ⟨_, p₂, pushed, rest⟩ := Action.done_bind rest
    obtain ⟨_, p₃, readSecond, rest⟩ := Action.done_bind rest
    cases rest
    cases pushed
    have after : AfterReading first.ids (p₁.push nestedTokens) := by
      have := (AfterReading.start _).program readFirst
      rw [List.append_nil] at this
      exact .between this rfl
    obtain ⟨⟨nodup, new, -⟩, ⟨length, -⟩, -, table⟩ := after.outline_right readSecond
    have three : second.outline.statements.length = 3 := by
      have length := congrArg List.length run
      rw [List.length_map] at length
      exact length
    refine ⟨first, _, second, _, after, readSecond, List.cons_ne_nil _ _, nodup, new, length ▸ three, three,
      fun blocks s around => ?_⟩
    obtain ⟨parent, -, depth⟩ := table blocks s around
    -- the statement has an entry, which is one of the three that were computed
    obtain ⟨entry, found, -⟩ := Option.map_eq_some_iff.mp parent
    have mem : (entry.1, second.outline.depth entry.1) ∈ [(7, 0), (6, 1), (5, 2)] := by
      rw [← run]
      exact List.mem_map.mpr ⟨entry, List.mem_of_find?_eq_some found, rfl⟩
    have same : entry.1 = s.id :=
      beq_iff_eq.mp (List.find?_some (p := fun e : NodeId × NodeId => e.1 == s.id) found)
    rw [same, depth] at mem
    simp only [List.mem_cons, Prod.mk.injEq, List.not_mem_nil, or_false] at mem
    obtain ⟨id, number⟩ | ⟨id, number⟩ | ⟨id, number⟩ := mem <;> rw [id, number]

end Parser

end Trellis
