import Trellis.Proofs.Script.Every

/-!
# The nodes of a script

A script is a tree whose *nodes* are its expressions, blocks and statements. All that has to be known of the
tree is of what parts a node consists (`Node.parts`); the nodes below a node are then its parts, their parts,
and so on (`Node.all`), and what holds of a node whenever it holds of its parts holds of all nodes
(`Node.byParts`).

Where a node stands is told by the blocks around it (`Program.Around`). The parts of a node stand where the
node stands, but for the statements of a block, which have one block more around them. So a declaration that
is exposed, and the condition in an alternate, stand in the same block as the statement that they are a part
of.
-/

namespace Trellis

inductive Node where
  | expr (e : Expr)
  | block (b : Block)
  | stmt (s : Stmt)

namespace Node

def id? : Node → Option NodeId
  | expr _ => none
  | block b => some b.id
  | stmt s => some s.id

def isStmt : Node → Bool
  | stmt _ => true
  | _ => false

end Node

def TemplatePart.parts : TemplatePart → List Node
  | text _ => []
  | slot e => [.expr e]

def Case.parts (c : Case) : List Node :=
  c.test.toList.map .expr ++ [.block c.body]

theorem Case.forall_parts {c : Case} {P : Node → Prop} (h : ∀ n ∈ c.parts, P n) :
    (∀ e ∈ c.test, P (.expr e)) ∧ P (.block c.body) := by
  refine ⟨fun e he => h _ (List.mem_append_left _ ?_), h _ (List.mem_append_right _ (.head _))⟩
  exact List.mem_map.mpr ⟨e, Option.mem_toList.mpr he, rfl⟩

def Alternate.parts : Alternate → List Node
  | block b => [.block b]
  | branch s => [.stmt s]

def ExprForm.parts : ExprForm → List Node
  | literal _ => []
  | name _ => []
  | template _ parts => parts.flatMap TemplatePart.parts
  | array elements => elements.map .expr
  | object properties => properties.map fun p => .expr p.value
  | lambda _ body => [.block body]
  | negate operand => [.expr operand]
  | arithmetic left _ right => [.expr left, .expr right]
  | compare left _ right => [.expr left, .expr right]
  | equal left _ right => [.expr left, .expr right]
  | assign target value => [.expr target, .expr value]
  | conditional condition consequent alternate => [.expr condition, .expr consequent, .expr alternate]
  | range first last => [.expr first, .expr last]
  | call callee arguments => .expr callee :: arguments.map .expr
  | member receiver _ => [.expr receiver]
  | index receiver key => [.expr receiver, .expr key]
  | switch subject cases => .expr subject :: cases.flatMap Case.parts
  | run started continuations => .expr started :: continuations.map fun c => .block c.body
  | wait awaited => [.expr awaited]

def StmtForm.parts : StmtForm → List Node
  | useModule _ _ _ => []
  | expose declaration => [.stmt declaration]
  | declareTask _ _ body => [.block body]
  | declareFunction _ _ body => [.block body]
  | declare _ _ value => [.expr value]
  | branch condition consequent alternate =>
    .expr condition :: .block consequent :: alternate.toList.flatMap Alternate.parts
  | loop _ _ iterated body => [.expr iterated, .block body]
  | give value => value.toList.map .expr
  | expression e => [.expr e]
  | comment _ => []
  | blankLine => []

namespace Node

def parts : Node → List Node
  | expr e => e.form.parts
  | block b => b.body.map .stmt
  | stmt s => s.form.parts

/-! ## Going through a tree -/

section

variable {α : Type} [SizeOf α] {xs : List α} {c : Node}

theorem sizeOf_le_of_mem_map {f : α → Node} (hf : ∀ x, sizeOf (f x) ≤ 1 + sizeOf x) (h : c ∈ xs.map f) :
    sizeOf c ≤ sizeOf xs := by
  obtain ⟨x, mem, rfl⟩ := List.mem_map.mp h
  have smaller := List.sizeOf_lt_of_mem mem
  have := hf x
  omega

theorem sizeOf_le_of_mem_flatMap {f : α → List Node} (hf : ∀ x, c ∈ f x → sizeOf c ≤ 1 + sizeOf x)
    (h : c ∈ xs.flatMap f) : sizeOf c ≤ sizeOf xs := by
  obtain ⟨x, mem, hc⟩ := List.mem_flatMap.mp h
  have smaller := List.sizeOf_lt_of_mem mem
  have := hf x hc
  omega

end

variable {c : Node}

theorem sizeOf_exprs {es : List Expr} (h : c ∈ es.map .expr) : sizeOf c ≤ sizeOf es :=
  sizeOf_le_of_mem_map (fun e => Nat.le_of_eq (expr.sizeOf_spec e)) h

theorem sizeOf_templatePart {part : TemplatePart} (h : c ∈ part.parts) : sizeOf c ≤ 1 + sizeOf part := by
  cases part with
  | text s => cases h
  | slot e =>
    rw [List.mem_singleton.mp h, expr.sizeOf_spec, TemplatePart.slot.sizeOf_spec]
    omega

theorem sizeOf_case {case : Case} (h : c ∈ case.parts) : sizeOf c ≤ 1 + sizeOf case := by
  obtain ⟨span, test, body⟩ := case
  rw [Case.mk.sizeOf_spec]
  obtain hc | hc := List.mem_append.mp h
  · obtain ⟨e, mem, rfl⟩ := List.mem_map.mp hc
    obtain rfl : test = some e := Option.mem_toList.mp mem
    rw [expr.sizeOf_spec, Option.some.sizeOf_spec]
    omega
  · rw [List.mem_singleton.mp hc, block.sizeOf_spec]
    dsimp only
    omega

theorem sizeOf_exprForm {form : ExprForm} (h : c ∈ form.parts) : sizeOf c ≤ sizeOf form := by
  cases form with
  | literal _ => cases h
  | name _ => cases h
  | template raw parts =>
    have := sizeOf_le_of_mem_flatMap (fun _ => sizeOf_templatePart) h
    rw [ExprForm.template.sizeOf_spec]
    omega
  | array elements =>
    have := sizeOf_exprs h
    rw [ExprForm.array.sizeOf_spec]
    omega
  | object properties =>
    have := sizeOf_le_of_mem_map (fun p => by cases p; simp) h
    rw [ExprForm.object.sizeOf_spec]
    omega
  | call callee arguments =>
    rw [ExprForm.call.sizeOf_spec]
    obtain rfl | below := List.mem_cons.mp h
    · rw [expr.sizeOf_spec]
      omega
    · have := sizeOf_exprs below
      omega
  | switch subject cases =>
    rw [ExprForm.switch.sizeOf_spec]
    obtain rfl | below := List.mem_cons.mp h
    · rw [expr.sizeOf_spec]
      omega
    · have := sizeOf_le_of_mem_flatMap (fun _ => sizeOf_case) below
      omega
  | run started continuations =>
    rw [ExprForm.run.sizeOf_spec]
    obtain rfl | below := List.mem_cons.mp h
    · rw [expr.sizeOf_spec]
      omega
    · have := sizeOf_le_of_mem_map (fun c => by cases c; simp) below
      omega
  | conditional condition consequent alternate =>
    simp only [ExprForm.parts, List.mem_cons, List.not_mem_nil, or_false] at h
    obtain rfl | rfl | rfl := h <;>
      rw [expr.sizeOf_spec, ExprForm.conditional.sizeOf_spec] <;> omega
  | lambda _ _ => simp_all [ExprForm.parts]
  | negate _ => simp_all [ExprForm.parts]
  | member _ _ => simp_all [ExprForm.parts]
  | wait _ => simp_all [ExprForm.parts]
  | _ =>
    simp only [ExprForm.parts, List.mem_cons, List.not_mem_nil, or_false] at h
    obtain rfl | rfl := h <;> simp <;> omega

theorem sizeOf_stmtForm {form : StmtForm} (h : c ∈ form.parts) : sizeOf c ≤ sizeOf form := by
  cases form with
  | branch condition consequent alternate =>
    rw [StmtForm.branch.sizeOf_spec]
    obtain rfl | below := List.mem_cons.mp
      (show c ∈ .expr condition :: .block consequent :: alternate.toList.flatMap Alternate.parts from h)
    · rw [expr.sizeOf_spec]
      omega
    obtain rfl | last := List.mem_cons.mp below
    · rw [block.sizeOf_spec]
      omega
    cases alternate with
    | none => cases last
    | some alternate =>
      cases alternate with
      | block b =>
        rw [List.mem_singleton.mp last]
        simp
        omega
      | branch s =>
        rw [List.mem_singleton.mp last]
        simp
        omega
  | loop key value iterated body =>
    simp only [StmtForm.parts, List.mem_cons, List.not_mem_nil, or_false] at h
    obtain rfl | rfl := h <;> simp <;> omega
  | give value =>
    cases value with
    | none => cases h
    | some value =>
      rw [List.mem_singleton.mp h]
      simp
  | useModule _ _ _ => cases h
  | comment _ => cases h
  | blankLine => cases h
  | _ =>
    rw [List.mem_singleton.mp h]
    simp <;> omega

theorem sizeOf_parts {n c : Node} (h : c ∈ n.parts) : sizeOf c < sizeOf n := by
  cases n with
  | expr e =>
    obtain ⟨span, form⟩ := e
    have := sizeOf_exprForm (show c ∈ form.parts from h)
    rw [expr.sizeOf_spec, Expr.mk.sizeOf_spec]
    omega
  | block b =>
    obtain ⟨id, span, body⟩ := b
    obtain ⟨s, mem, rfl⟩ := List.mem_map.mp (show c ∈ body.map .stmt from h)
    have := List.sizeOf_lt_of_mem mem
    rw [stmt.sizeOf_spec, block.sizeOf_spec, Block.mk.sizeOf_spec]
    omega
  | stmt s =>
    obtain ⟨id, span, form⟩ := s
    have := sizeOf_stmtForm (show c ∈ form.parts from h)
    rw [stmt.sizeOf_spec, Stmt.mk.sizeOf_spec]
    omega

theorem byParts {P : Node → Prop} (step : ∀ n : Node, (∀ c ∈ n.parts, P c) → P n) (n : Node) : P n :=
  step n fun c _ => byParts step c
termination_by sizeOf n
decreasing_by exact sizeOf_parts ‹_›

def all (n : Node) : List Node :=
  n :: n.parts.attach.flatMap fun c => c.1.all
termination_by sizeOf n
decreasing_by exact sizeOf_parts c.2

theorem all_eq (n : Node) : n.all = n :: n.parts.flatMap all := by
  rw [all, ← List.flatMap_map (f := Subtype.val) (g := all), List.attach_map_subtype_val]

theorem mem_all {n k : Node} : n ∈ k.all ↔ n = k ∨ ∃ c ∈ k.parts, n ∈ c.all := by
  rw [all_eq, List.mem_cons, List.mem_flatMap]

theorem part_mem_all {n c : Node} (mem : c ∈ n.parts) (k : Node) : n ∈ k.all → c ∈ k.all := by
  induction k using byParts with
  | step k ih =>
    intro h
    obtain rfl | ⟨part, hpart, below⟩ := mem_all.mp h
    · exact mem_all.mpr (.inr ⟨c, mem, mem_all.mpr (.inl rfl)⟩)
    · exact mem_all.mpr (.inr ⟨part, hpart, ih part hpart below⟩)

def ids (n : Node) : List NodeId :=
  n.all.filterMap id?

theorem ids_eq (n : Node) : n.ids = n.id?.toList ++ n.parts.flatMap ids := by
  unfold ids
  rw [all_eq, List.filterMap_cons, List.filterMap_flatMap]
  cases n.id? <;> rfl

end Node

variable {p : Program}

namespace Program

def nodes (p : Program) : List Node :=
  p.body.flatMap fun s => (Node.stmt s).all

def ids (p : Program) : List NodeId :=
  p.id :: p.nodes.filterMap Node.id?

/-- **A node stands in a program, and the blocks are those around it**, the innermost one first. -/
inductive Around (p : Program) : List Block → Node → Prop where
  | top {s} (h : s ∈ p.body) : Around p [] (.stmt s)
  | inside {outer b s} (h : Around p outer (.block b))
      (mem : s ∈ b.body) : Around p (b :: outer) (.stmt s)
  | inExpr {outer e c} (h : Around p outer (.expr e))
      (mem : c ∈ e.form.parts) : Around p outer c
  | inStmt {outer s c} (h : Around p outer (.stmt s))
      (mem : c ∈ s.form.parts) : Around p outer c

theorem Around.of_mem_all {n : Node} (k : Node) :
    ∀ blocks, p.Around blocks k → n ∈ k.all → ∃ blocks, p.Around blocks n := by
  induction k using Node.byParts with
  | step k ih =>
    intro blocks h mem
    obtain rfl | ⟨c, hc, below⟩ := Node.mem_all.mp mem
    · exact ⟨blocks, h⟩
    · cases k with
      | expr e => exact ih c hc blocks (.inExpr h hc) below
      | stmt s => exact ih c hc blocks (.inStmt h hc) below
      -- Only on the way from a block to its statements there is one block more.
      | block b =>
        obtain ⟨s, hs, rfl⟩ := List.mem_map.mp hc
        exact ih _ hc (b :: blocks) (.inside h hs) below

theorem mem_nodes_iff {n : Node} : n ∈ p.nodes ↔ ∃ blocks, p.Around blocks n := by
  have part {k c : Node} (h : k ∈ p.nodes) (mem : c ∈ k.parts) : c ∈ p.nodes := by
    obtain ⟨s, hs, below⟩ := List.mem_flatMap.mp h
    exact List.mem_flatMap.mpr ⟨s, hs, Node.part_mem_all mem _ below⟩
  constructor
  · intro h
    obtain ⟨s, hs, below⟩ := List.mem_flatMap.mp h
    exact Around.of_mem_all (.stmt s) [] (.top hs) below
  · rintro ⟨blocks, h⟩
    induction h with
    | top hs => exact List.mem_flatMap.mpr ⟨_, hs, Node.mem_all.mpr (.inl rfl)⟩
    | inside _ mem ih => exact part ih (List.mem_map_of_mem mem)
    | inExpr _ mem ih => exact part ih mem
    | inStmt _ mem ih => exact part ih mem

end Program

/-! ## Being below -/

namespace Node

def span : Node → Span
  | expr e => e.span
  | block b => b.span
  | stmt s => s.span

theorem self_mem_all (n : Node) : n ∈ n.all :=
  mem_all.mpr (.inl rfl)

theorem mem_all_of_part {n c : Node} (h : c ∈ n.parts) : c ∈ n.all :=
  part_mem_all h n n.self_mem_all

theorem mem_all_trans {c k : Node} (n : Node) : c ∈ n.all → n ∈ k.all → c ∈ k.all := by
  induction n using byParts with
  | step n ih =>
    intro hc hn
    obtain rfl | ⟨part, hpart, below⟩ := mem_all.mp hc
    · exact hn
    · exact ih part hpart below (part_mem_all hpart k hn)

end Node

theorem Program.mem_nodes_of_mem_all {n c : Node} (h : n ∈ p.nodes) (hc : c ∈ n.all) : c ∈ p.nodes := by
  obtain ⟨s, hs, below⟩ := List.mem_flatMap.mp h
  exact List.mem_flatMap.mpr ⟨s, hs, Node.mem_all_trans n hc below⟩

/-! ## Conditions on all expressions below a node -/

namespace Node

variable {p : ExprForm → Bool}

def every (p : ExprForm → Bool) : Node → Bool
  | expr e => e.every p
  | block b => b.every p
  | stmt s => s.every p

theorem everyOf_exprs (es : List Expr) : Expr.everyOf p es = (es.map expr).all (every p) := by
  induction es with
  | nil => rfl
  | cons e rest ih => rw [Expr.everyOf, ih]; rfl

theorem everyOf_statements (body : List Stmt) : Stmt.everyOf p body = (body.map stmt).all (every p) := by
  induction body with
  | nil => rfl
  | cons s rest ih => rw [Stmt.everyOf, ih]; rfl

theorem inside_eq (form : ExprForm) : form.inside p = form.parts.all (every p) := by
  cases form with
  | template raw parts =>
    induction parts with
    | nil => rfl
    | cons part rest ih =>
      cases part with
      | text s => exact ih
      | slot e => exact congrArg (e.every p && ·) ih
  | array elements => exact everyOf_exprs elements
  | object properties =>
    induction properties with
    | nil => rfl
    | cons property rest ih => cases property; exact congrArg (Expr.every p _ && ·) ih
  | call callee arguments => exact congrArg (callee.every p && ·) (everyOf_exprs arguments)
  | switch subject cases =>
    refine congrArg (subject.every p && ·) ?_
    induction cases with
    | nil => rfl
    | cons c rest ih =>
      obtain ⟨span, test, body⟩ := c
      rw [List.flatMap_cons, List.all_append, ← ih]
      cases test <;> simp [Case.everyOf, Case.parts, every]
  | run started continuations =>
    refine congrArg (started.every p && ·) ?_
    induction continuations with
    | nil => rfl
    | cons c rest ih => cases c; exact congrArg (Block.every p _ && ·) ih
  | _ => simp [ExprForm.inside, ExprForm.parts, every, Bool.and_assoc]

theorem every_stmtForm_eq (form : StmtForm) : form.every p = form.parts.all (every p) := by
  cases form with
  | branch condition consequent alternate =>
    cases alternate with
    | none => simp [StmtForm.every, StmtForm.parts, every]
    | some alternate => cases alternate <;> simp [StmtForm.every, Alternate.every, StmtForm.parts, Alternate.parts, every, Bool.and_assoc]
  | give value => cases value <;> simp [StmtForm.every, StmtForm.parts, every]
  | _ => simp [StmtForm.every, StmtForm.parts, every]

theorem every_iff {n : Node} : n.every p = true ↔ ∀ e, .expr e ∈ n.all → p e.form = true := by
  induction n using byParts with
  | step n ih =>
    -- what an expression says of itself, and what is said of the parts
    have split : n.every p = true ↔ (∀ e, .expr e = n → p e.form = true) ∧ ∀ c ∈ n.parts, c.every p = true := by
      rw [← List.all_eq_true]
      cases n with
      | expr e =>
        rw [show (expr e).every p = (p e.form && e.form.inside p) from Expr.every_eq p e, inside_eq, Bool.and_eq_true]
        exact and_congr_left fun _ => ⟨fun h other same => by cases same; exact h, fun h => h e rfl⟩
      | block b =>
        rw [show (block b).every p = Stmt.everyOf p b.body from Block.every_eq p b, everyOf_statements]
        exact (and_iff_right fun other same => by cases same).symm
      | stmt s =>
        rw [show (stmt s).every p = s.form.every p from Stmt.every_eq p s, every_stmtForm_eq]
        exact (and_iff_right fun other same => by cases same).symm
    rw [split, forall₂_congr ih]
    constructor
    · rintro ⟨own, parts⟩ e he
      obtain same | ⟨c, hc, below⟩ := mem_all.mp he
      · exact own e same
      · exact parts c hc e below
    · exact fun h => ⟨fun e same => h e (same ▸ self_mem_all _), fun c hc e he => h e (mem_all.mpr (.inr ⟨c, hc, he⟩))⟩

end Node

theorem Program.every_iff {q : ExprForm → Bool} : p.every q = true ↔ ∀ e, .expr e ∈ p.nodes → q e.form = true := by
  rw [Program.every, Node.everyOf_statements, List.all_map, List.all_eq_true]
  simp only [Function.comp_apply, Node.every_iff, Program.nodes, List.mem_flatMap]
  exact ⟨fun h e ⟨s, hs, he⟩ => h s hs e he, fun h s hs e he => h e ⟨s, hs, he⟩⟩

end Trellis
