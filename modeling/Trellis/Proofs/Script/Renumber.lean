import Trellis.Proofs.Script.Change
import Trellis.Proofs.Script.Outline

/-!
# Trees with other identities

Statements, blocks and programs carry identities, and a parser that is used again goes on with the
identities it has not given yet. The tree that it makes then differs from the tree of a new parser in its
identities only. Here the identities of a tree are changed by a function (`Expr.renumber` and its
companions), and all else stays as it is.

Nothing that the grammar asks of a tree depends on its identities, and the function that changes nothing
gives the tree back (`Node.renumber_id`). The outline of a tree changes with the tree
(`Program.outline_renumber`).
-/

namespace Trellis

mutual

def Expr.renumber (f : NodeId → NodeId) : Expr → Expr
  | ⟨span, form⟩ => ⟨span, form.renumber f⟩

def ExprForm.renumber (f : NodeId → NodeId) : ExprForm → ExprForm
  | .literal value => .literal value
  | .name name => .name name
  | .template raw parts => .template raw (TemplatePart.renumberOf f parts)
  | .array elements => .array (Expr.renumberOf f elements)
  | .object properties => .object (Property.renumberOf f properties)
  | .lambda params body => .lambda params (body.renumber f)
  | .negate operand => .negate (operand.renumber f)
  | .arithmetic left operator right =>
    .arithmetic (left.renumber f) operator (right.renumber f)
  | .compare left operator right => .compare (left.renumber f) operator (right.renumber f)
  | .equal left negated right => .equal (left.renumber f) negated (right.renumber f)
  | .assign target value => .assign (target.renumber f) (value.renumber f)
  | .conditional condition consequent alternate =>
    .conditional (condition.renumber f) (consequent.renumber f) (alternate.renumber f)
  | .range first last => .range (first.renumber f) (last.renumber f)
  | .call callee arguments => .call (callee.renumber f) (Expr.renumberOf f arguments)
  | .member receiver key => .member (receiver.renumber f) key
  | .index receiver key => .index (receiver.renumber f) (key.renumber f)
  | .switch subject cases => .switch (subject.renumber f) (Case.renumberOf f cases)
  | .run call continuations => .run (call.renumber f) (Continuation.renumberOf f continuations)
  | .wait awaited => .wait (awaited.renumber f)

def Expr.renumberOf (f : NodeId → NodeId) : List Expr → List Expr
  | [] => []
  | e :: rest => e.renumber f :: Expr.renumberOf f rest

def TemplatePart.renumberOf (f : NodeId → NodeId) : List TemplatePart → List TemplatePart
  | [] => []
  | .text s :: rest => .text s :: TemplatePart.renumberOf f rest
  | .slot e :: rest => .slot (e.renumber f) :: TemplatePart.renumberOf f rest

def Property.renumberOf (f : NodeId → NodeId) : List Property → List Property
  | [] => []
  | ⟨key, short, value⟩ :: rest => ⟨key, short, value.renumber f⟩ :: Property.renumberOf f rest

def Case.renumberOf (f : NodeId → NodeId) : List Case → List Case
  | [] => []
  | ⟨span, none, body⟩ :: rest => ⟨span, none, body.renumber f⟩ :: Case.renumberOf f rest
  | ⟨span, some test, body⟩ :: rest =>
    ⟨span, some (test.renumber f), body.renumber f⟩ :: Case.renumberOf f rest

def Continuation.renumberOf (f : NodeId → NodeId) : List Continuation → List Continuation
  | [] => []
  | ⟨span, params, body⟩ :: rest =>
    ⟨span, params, body.renumber f⟩ :: Continuation.renumberOf f rest

def Block.renumber (f : NodeId → NodeId) : Block → Block
  | ⟨id, span, body⟩ => ⟨f id, span, Stmt.renumberOf f body⟩

def Stmt.renumberOf (f : NodeId → NodeId) : List Stmt → List Stmt
  | [] => []
  | s :: rest => s.renumber f :: Stmt.renumberOf f rest

def Stmt.renumber (f : NodeId → NodeId) : Stmt → Stmt
  | ⟨id, span, form⟩ => ⟨f id, span, form.renumber f⟩

def StmtForm.renumber (f : NodeId → NodeId) : StmtForm → StmtForm
  | .useModule source called picks => .useModule source called picks
  | .expose declaration => .expose (declaration.renumber f)
  | .declareTask name params body => .declareTask name params (body.renumber f)
  | .declareFunction name params body => .declareFunction name params (body.renumber f)
  | .declare name constant value => .declare name constant (value.renumber f)
  | .branch condition consequent none =>
    .branch (condition.renumber f) (consequent.renumber f) none
  | .branch condition consequent (some alternate) =>
    .branch (condition.renumber f) (consequent.renumber f) (some (alternate.renumber f))
  | .loop key value iterated body => .loop key value (iterated.renumber f) (body.renumber f)
  | .give none => .give none
  | .give (some value) => .give (some (value.renumber f))
  | .expression e => .expression (e.renumber f)
  | .comment text => .comment text
  | .blankLine => .blankLine

def Alternate.renumber (f : NodeId → NodeId) : Alternate → Alternate
  | .block body => .block (body.renumber f)
  | .branch s => .branch (s.renumber f)

end

def Program.renumber (f : NodeId → NodeId) (p : Program) : Program :=
  ⟨f p.id, Stmt.renumberOf f p.body⟩

/-! ## Items of lists -/

def TemplatePart.renumber (f : NodeId → NodeId) : TemplatePart → TemplatePart
  | .text s => .text s
  | .slot e => .slot (e.renumber f)

def Property.renumber (f : NodeId → NodeId) (p : Property) : Property :=
  ⟨p.key, p.short, p.value.renumber f⟩

def Case.renumber (f : NodeId → NodeId) (c : Case) : Case :=
  ⟨c.span, c.test.map (Expr.renumber f), c.body.renumber f⟩

def Continuation.renumber (f : NodeId → NodeId) (c : Continuation) : Continuation :=
  ⟨c.span, c.params, c.body.renumber f⟩

section

variable (f : NodeId → NodeId)

theorem Expr.renumberOf_eq (es : List Expr) : Expr.renumberOf f es = es.map (Expr.renumber f) :=
  eq_map_of_cons rfl (fun _ _ => rfl) es

theorem TemplatePart.renumberOf_eq (ps : List TemplatePart) :
    TemplatePart.renumberOf f ps = ps.map (TemplatePart.renumber f) :=
  eq_map_of_cons rfl (fun | .text _, _ => rfl | .slot _, _ => rfl) ps

theorem Property.renumberOf_eq (ps : List Property) : Property.renumberOf f ps = ps.map (Property.renumber f) :=
  eq_map_of_cons rfl (fun ⟨_, _, _⟩ _ => rfl) ps

theorem Case.renumberOf_eq (cs : List Case) : Case.renumberOf f cs = cs.map (Case.renumber f) :=
  eq_map_of_cons rfl (fun | ⟨_, none, _⟩, _ => rfl | ⟨_, some _, _⟩, _ => rfl) cs

theorem Continuation.renumberOf_eq (cs : List Continuation) :
    Continuation.renumberOf f cs = cs.map (Continuation.renumber f) :=
  eq_map_of_cons rfl (fun ⟨_, _, _⟩ _ => rfl) cs

theorem Stmt.renumberOf_eq (body : List Stmt) : Stmt.renumberOf f body = body.map (Stmt.renumber f) :=
  eq_map_of_cons rfl (fun _ _ => rfl) body

/-! ## What does not depend on identities -/

@[simp] theorem Expr.renumber_span (e : Expr) : (e.renumber f).span = e.span := by
  cases e
  rfl

@[simp] theorem Expr.renumber_form (e : Expr) : (e.renumber f).form = e.form.renumber f := by
  cases e
  rfl

@[simp] theorem Stmt.renumber_span (s : Stmt) : (s.renumber f).span = s.span := by
  cases s
  rfl

@[simp] theorem Stmt.renumber_form (s : Stmt) : (s.renumber f).form = s.form.renumber f := by
  cases s
  rfl

@[simp] theorem ExprForm.isCall_renumber (form : ExprForm) : (form.renumber f).isCall = form.isCall := by
  cases form <;> rfl

@[simp] theorem ExprForm.isTarget_renumber (form : ExprForm) : (form.renumber f).isTarget = form.isTarget := by
  cases form <;> rfl

@[simp] theorem StmtForm.isTrivia_renumber (form : StmtForm) : (form.renumber f).isTrivia = form.isTrivia := by
  cases form with
  | branch _ _ alternate => cases alternate <;> rfl
  | give value => cases value <;> rfl
  | _ => rfl

@[simp] theorem StmtForm.isGive_renumber (form : StmtForm) : (form.renumber f).isGive = form.isGive := by
  cases form with
  | branch _ _ alternate => cases alternate <;> rfl
  | give value => cases value <;> rfl
  | _ => rfl

@[simp] theorem StmtForm.declaredName?_renumber (form : StmtForm) :
    (form.renumber f).declaredName? = form.declaredName? := by
  cases form with
  | branch _ _ alternate => cases alternate <;> rfl
  | give value => cases value <;> rfl
  | _ => rfl

@[simp] theorem Block.endsInGive_renumber (b : Block) : (b.renumber f).endsInGive = b.endsInGive := by
  obtain ⟨id, span, body⟩ := b
  have hkind : (fun s : Stmt => !s.form.isTrivia) ∘ Stmt.renumber f = fun s => !s.form.isTrivia := by
    funext s
    simp
  unfold Block.endsInGive
  rw [Block.renumber, Stmt.renumberOf_eq, ← List.map_reverse, List.find?_map, hkind]
  cases body.reverse.find? fun s => !s.form.isTrivia with
  | none => rfl
  | some s =>
    show (s.renumber f).form.isGive = s.form.isGive
    rw [Stmt.renumber_form, StmtForm.isGive_renumber]

end

/-! ## Nodes -/

def Node.renumber (f : NodeId → NodeId) : Node → Node
  | .expr e => .expr (e.renumber f)
  | .block b => .block (b.renumber f)
  | .stmt s => .stmt (s.renumber f)

abbrev Change.renumber (f : NodeId → NodeId) : Change :=
  ⟨id, id, Expr.renumber f, Block.renumber f, Stmt.renumber f⟩

section

variable (f : NodeId → NodeId)

theorem ExprForm.renumber_eq (form : ExprForm) : form.renumber f = form.change (.renumber f) := by
  have params (ps : List Ident) : ps.map id = ps := ps.map_id
  have continuations : Continuation.renumber f = Continuation.change (.renumber f) :=
    funext fun c => congrArg (Continuation.mk c.span · _) (params c.params).symm
  cases form with
  | lambda ps body => exact congrArg (ExprForm.lambda · _) (params ps).symm
  | run started cs => rw [renumber, change, Continuation.renumberOf_eq, continuations]
  | _ => simp only [renumber, change, Expr.renumberOf_eq, TemplatePart.renumberOf_eq, Property.renumberOf_eq,
    Case.renumberOf_eq] <;> rfl

theorem StmtForm.renumber_eq (form : StmtForm) : form.renumber f = form.change (.renumber f) := by
  have picks : Pick.change (.renumber f) = id := Pick.change_keep
  cases form with
  | branch condition consequent alternate =>
    cases alternate with
    | none => rfl
    | some alternate => cases alternate <;> rfl
  | give value => cases value <;> rfl
  | _ => simp [renumber, change, picks]

theorem Node.renumber_eq : Node.renumber f = (Change.renumber f).node :=
  funext fun n => by cases n <;> rfl

theorem Node.parts_renumber (n : Node) : (n.renumber f).parts = n.parts.map (Node.renumber f) := by
  rw [Node.renumber_eq]
  cases n with
  | expr e =>
    obtain ⟨span, form⟩ := e
    exact (congrArg ExprForm.parts (form.renumber_eq f)).trans form.parts_change
  | block b =>
    cases b
    simp [Node.parts, Change.node, Change.renumber, Block.renumber, Stmt.renumberOf_eq]
  | stmt s =>
    obtain ⟨id, span, form⟩ := s
    exact (congrArg StmtForm.parts (form.renumber_eq f)).trans form.parts_change

end

/-! ## Changing nothing -/

theorem map_eq_self {α : Type} {f : α → α} {l : List α} (h : ∀ a ∈ l, f a = a) : l.map f = l :=
  (List.map_congr_left h).trans l.map_id

theorem Node.renumber_id (n : Node) : n.renumber id = n := by
  induction n using byParts with
  | step n ih =>
    cases n with
    | expr e =>
      obtain ⟨span, form⟩ := e
      have same : form.change (.renumber id) = form.change .keep :=
        ExprForm.change_congr rfl rfl fun c hc => by cases c <;> exact ih _ hc
      rw [Node.renumber, Expr.renumber, form.renumber_eq, same, form.change_keep]
    | block b =>
      cases b
      simp_all [Node.renumber, Block.renumber, Node.parts, Stmt.renumberOf_eq, map_eq_self]
    | stmt s =>
      obtain ⟨i, span, form⟩ := s
      have same : form.change (.renumber id) = form.change .keep :=
        StmtForm.change_congr rfl fun c hc => by cases c <;> exact ih _ hc
      rw [Node.renumber, Stmt.renumber, form.renumber_eq, same, form.change_keep, id]

theorem Expr.renumber_id (e : Expr) : e.renumber id = e :=
  Node.expr.inj (Node.renumber_id (.expr e))

theorem Program.renumber_id (p : Program) : p.renumber (fun i => i) = p := by
  rw [Program.renumber, Stmt.renumberOf_eq]
  exact congrArg (Program.mk p.id) (map_eq_self fun s _ => Node.stmt.inj (Node.renumber_id (.stmt s)))

/-! ## Outlines -/

def BlockInfo.renumber (f : NodeId → NodeId) (info : BlockInfo) : BlockInfo :=
  ⟨f info.id, info.span, info.parent.map f⟩

def OutlineEntry.renumber (f : NodeId → NodeId) : OutlineEntry → OutlineEntry
  | .statement id parent => .statement (f id) (f parent)
  | .block info => .block (info.renumber f)

def Outline.renumber (f : NodeId → NodeId) (o : Outline) : Outline :=
  ⟨o.entries.map (OutlineEntry.renumber f)⟩

theorem Node.outline_renumber (f : NodeId → NodeId) (n : Node) (inside : NodeId) :
    (n.renumber f).outline (f inside) = (n.outline inside).map (OutlineEntry.renumber f) := by
  induction n using byParts generalizing inside with
  | step n ih =>
    have own : (n.renumber f).entry (f inside) = (n.entry inside).map (OutlineEntry.renumber f) := by
      cases n with
      | expr e => rfl
      | block b => cases b; rfl
      | stmt s => cases s; rfl
    have around : (n.renumber f).around (f inside) = f (n.around inside) := by
      cases n with
      | block b => cases b; rfl
      | _ => rfl
    rw [outline_eq, outline_eq, own, around, parts_renumber, List.map_append, List.flatMap_map, List.map_flatMap]
    exact congrArg (_ ++ ·) (List.flatMap_congr fun c hc => ih c hc _)

theorem Program.outline_renumber (f : NodeId → NodeId) (p : Program) :
    (p.renumber f).outline = p.outline.renumber f := by
  refine congrArg (fun entries => Outline.mk (_ :: entries)) ?_
  show outlineStmts (f p.id) (Stmt.renumberOf f p.body) = (outlineStmts p.id p.body).map (OutlineEntry.renumber f)
  rw [Stmt.renumberOf_eq, Node.outline_stmts, Node.outline_stmts, List.map_map, List.flatMap_map, List.map_flatMap,
    List.flatMap_map]
  exact List.flatMap_congr fun s _ => Node.outline_renumber f (.stmt s) p.id

end Trellis
