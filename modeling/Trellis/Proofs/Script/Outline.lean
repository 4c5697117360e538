import Mathlib.Data.List.Nodup
import Trellis.Proofs.Script.Nodes
import Trellis.Script.Outline

/-!
# Outlines are right

The outline of a program is compared with the tree. It has one entry for each node that has an identity, and
these are in the order of the nodes (`Program.outline_ids`). If no identity is given twice, then whatever the
outline says of a statement is true of it: the block that it is directly in, what is known of that block, and
how many blocks there are around it (`Program.Around.outline`).
-/

namespace Trellis

def OutlineEntry.id : OutlineEntry → NodeId
  | statement id _ => id
  | block info => info.id

def OutlineEntry.isStatement : OutlineEntry → Bool
  | statement _ _ => true
  | block _ => false

def OutlineEntry.isBlock : OutlineEntry → Bool
  | statement _ _ => false
  | block _ => true

/-! ## Looking things up -/

namespace Outline

variable {o : Outline}

theorem find?_of_nodup {α : Type} {key : α → NodeId} {l : List α} (nodup : (l.map key).Nodup) {a : α}
    (mem : a ∈ l) : l.find? (fun b => key b == key a) = some a := by
  cases found : l.find? (fun b => key b == key a) with
  | none => exact absurd (beq_self_eq_true (key a)) (List.find?_eq_none.mp found a mem)
  | some b =>
    have same : key b = key a := beq_iff_eq.mp (List.find?_some (p := fun b => key b == key a) found)
    rw [List.inj_on_of_nodup_map nodup (List.mem_of_find?_eq_some found) mem same]

theorem length_statements (o : Outline) : o.statements.length = o.entries.countP OutlineEntry.isStatement := by
  unfold statements
  rw [List.length_filterMap_eq_countP]
  congr 1
  funext e
  cases e <;> rfl

theorem length_blocks (o : Outline) : o.blocks.length = o.entries.countP OutlineEntry.isBlock := by
  unfold blocks
  rw [List.length_filterMap_eq_countP]
  congr 1
  funext e
  cases e <;> rfl

theorem nodup_statements (h : (o.entries.map OutlineEntry.id).Nodup) : (o.statements.map (·.1)).Nodup := by
  refine h.sublist ?_
  unfold statements
  induction o.entries with
  | nil => exact .slnil
  | cons e entries ih =>
    cases e with
    | statement id parent => exact ih.cons_cons id
    | block info => exact ih.cons info.id

theorem nodup_blocks (h : (o.entries.map OutlineEntry.id).Nodup) : (o.blocks.map (·.id)).Nodup := by
  refine h.sublist ?_
  unfold blocks
  induction o.entries with
  | nil => exact .slnil
  | cons e entries ih =>
    cases e with
    | statement id parent => exact ih.cons id
    | block info => exact ih.cons_cons info.id

theorem parent?_eq (h : (o.entries.map OutlineEntry.id).Nodup) {id parent : NodeId}
    (mem : .statement id parent ∈ o.entries) : o.parent? id = some parent := by
  have listed : (id, parent) ∈ o.statements := List.mem_filterMap.mpr ⟨_, mem, rfl⟩
  unfold parent?
  rw [find?_of_nodup (nodup_statements h) listed]
  rfl

theorem block?_eq (h : (o.entries.map OutlineEntry.id).Nodup) {info : BlockInfo}
    (mem : .block info ∈ o.entries) : o.block? info.id = some info :=
  find?_of_nodup (nodup_blocks h) (List.mem_filterMap.mpr ⟨_, mem, rfl⟩)

end Outline

/-! ## Entries and nodes -/

namespace Node

def outline (inside : NodeId) : Node → List OutlineEntry
  | expr e => e.outline inside
  | block b => b.outline inside
  | stmt s => s.outline inside

def entry (inside : NodeId) : Node → List OutlineEntry
  | expr _ => []
  | block b => [.block ⟨b.id, b.span, some inside⟩]
  | stmt s => [.statement s.id inside]

def around (inside : NodeId) : Node → NodeId
  | block b => b.id
  | _ => inside

variable (inside : NodeId)

theorem outline_exprs (es : List Expr) : outlineExprs inside es = (es.map expr).flatMap (outline inside) := by
  rw [List.flatMap_map]
  exact eq_flatMap_of_cons rfl (fun _ _ => rfl) es

theorem outline_stmts (body : List Stmt) : outlineStmts inside body = (body.map stmt).flatMap (outline inside) := by
  rw [List.flatMap_map]
  exact eq_flatMap_of_cons rfl (fun _ _ => rfl) body

theorem outline_templateParts (parts : List TemplatePart) :
    outlineParts inside parts = (parts.flatMap TemplatePart.parts).flatMap (outline inside) := by
  rw [List.flatMap_assoc]
  refine eq_flatMap_of_cons rfl (fun part rest => ?_) parts
  cases part with
  | text s => rfl
  | slot e => simp [TemplatePart.parts, outline, outlineParts]

theorem outline_properties (properties : List Property) :
    outlineProperties inside properties =
      (properties.map fun p => expr p.value).flatMap (outline inside) := by
  rw [List.flatMap_map]
  exact eq_flatMap_of_cons rfl (fun ⟨_, _, _⟩ _ => rfl) properties

theorem outline_cases (cases : List Case) :
    outlineCases inside cases = (cases.flatMap Case.parts).flatMap (outline inside) := by
  induction cases with
  | nil => rfl
  | cons c cases ih =>
    obtain ⟨span, test, body⟩ := c
    rw [List.flatMap_cons, List.flatMap_append, ← ih]
    cases test with
    | none => rw [outlineCases]; simp [Case.parts, outline]
    | some test => rw [outlineCases]; simp [Case.parts, outline]

theorem outline_continuations (cs : List Continuation) :
    outlineContinuations inside cs = (cs.map fun c => block c.body).flatMap (outline inside) := by
  rw [List.flatMap_map]
  exact eq_flatMap_of_cons rfl (fun ⟨_, _, _⟩ _ => rfl) cs

theorem outline_exprForm (form : ExprForm) : form.outline inside = form.parts.flatMap (outline inside) := by
  cases form with
  | template raw parts => rw [ExprForm.outline, outline_templateParts]; rfl
  | array elements => rw [ExprForm.outline, outline_exprs]; rfl
  | object properties => rw [ExprForm.outline, outline_properties]; rfl
  | call callee arguments => rw [ExprForm.outline, outline_exprs]; rfl
  | switch subject cases => rw [ExprForm.outline, outline_cases]; rfl
  | run started continuations => rw [ExprForm.outline, outline_continuations]; rfl
  | _ => simp [ExprForm.outline, ExprForm.parts, outline]

theorem outline_stmtForm (form : StmtForm) : form.outline inside = form.parts.flatMap (outline inside) := by
  cases form with
  | branch condition consequent alternate =>
    cases alternate with
    | none => simp [StmtForm.outline, StmtForm.parts, outline]
    | some alternate =>
      cases alternate <;> simp [StmtForm.outline, Alternate.outline, StmtForm.parts, Alternate.parts, outline]
  | give value => cases value <;> simp [StmtForm.outline, StmtForm.parts, outline]
  | _ => simp [StmtForm.outline, StmtForm.parts, outline]

theorem outline_eq (n : Node) : n.outline inside = n.entry inside ++ n.parts.flatMap (outline (n.around inside)) := by
  cases n with
  | expr e =>
    obtain ⟨span, form⟩ := e
    rw [outline, Expr.outline, outline_exprForm]
    rfl
  | block b =>
    obtain ⟨id, span, body⟩ := b
    rw [outline, Block.outline, outline_stmts]
    rfl
  | stmt s =>
    obtain ⟨id, span, form⟩ := s
    rw [outline, Stmt.outline, outline_stmtForm]
    rfl

theorem countP_part {n c : Node} (mem : c ∈ n.parts) (q : OutlineEntry → Bool) :
    (n.entry inside).countP q + (c.outline (n.around inside)).countP q ≤ (n.outline inside).countP q := by
  rw [outline_eq inside n, List.countP_append]
  refine Nat.add_le_add_left (List.Sublist.countP_le ?_) _
  exact List.sublist_flatten_of_mem (List.mem_map.mpr ⟨c, mem, rfl⟩)

theorem outline_ids (n : Node) (inside : NodeId) : (n.outline inside).map OutlineEntry.id = n.ids := by
  induction n using byParts generalizing inside with
  | step n ih =>
    have own : (n.entry inside).map OutlineEntry.id = n.id?.toList := by cases n <;> rfl
    rw [outline_eq, ids_eq, List.map_append, List.map_flatMap, own]
    congr 1
    exact List.flatMap_congr fun c hc => ih c hc _

theorem outline_statements (n : Node) (inside : NodeId) :
    (n.outline inside).countP OutlineEntry.isStatement = n.all.countP isStmt := by
  induction n using byParts generalizing inside with
  | step n ih =>
    have own : (n.entry inside).countP OutlineEntry.isStatement = [n].countP isStmt := by cases n <;> rfl
    rw [outline_eq, all_eq, ← List.singleton_append, List.countP_append, List.countP_append, own,
      List.countP_flatMap, List.countP_flatMap]
    congr 2
    exact List.map_congr_left fun c hc => ih c hc _

end Node

namespace Program

theorem outline_entries (p : Program) :
    p.outline.entries = .block ⟨p.id, {}, none⟩ :: (p.body.map .stmt).flatMap (Node.outline p.id) := by
  rw [outline, Node.outline_stmts]

theorem outline_ids (p : Program) : p.outline.entries.map OutlineEntry.id = p.ids := by
  rw [outline_entries, ids, nodes, List.map_cons, List.map_flatMap, List.flatMap_map, List.filterMap_flatMap]
  congr 1
  exact List.flatMap_congr fun s _ => Node.outline_ids (.stmt s) p.id

theorem length_outline_statements (p : Program) : p.outline.statements.length = p.nodes.countP Node.isStmt := by
  rw [Outline.length_statements, outline_entries, List.countP_cons_of_neg (by rintro ⟨⟩), nodes,
    List.flatMap_map, List.countP_flatMap, List.countP_flatMap]
  congr 1
  exact List.map_congr_left fun s _ => Node.outline_statements (.stmt s) p.id

/-! ## Blocks around a node -/

variable {p : Program} {blocks outer : List Block} {b : Block} {n : Node} {s : Stmt}

/-- **What is known of the innermost of some blocks**, or of the program if there are none. -/
def blockInfo (p : Program) : List Block → BlockInfo
  | [] => ⟨p.id, {}, none⟩
  | b :: outer => ⟨b.id, b.span, some (p.blockInfo outer).id⟩

namespace Around

theorem block (h : p.Around (b :: outer) n) : p.Around outer (.block b) := by
  generalize hblocks : b :: outer = blocks at h
  induction h with
  | top _ => cases hblocks
  | inside h _ _ =>
    cases hblocks
    exact h
  | inExpr _ _ ih => exact ih hblocks
  | inStmt _ _ ih => exact ih hblocks

theorem entries (h : p.Around blocks n) : ∀ e ∈ n.outline (p.blockInfo blocks).id, e ∈ p.outline.entries := by
  have part {inside : NodeId} {k c : Node} (mem : c ∈ k.parts) {e : OutlineEntry}
      (he : e ∈ c.outline (k.around inside)) : e ∈ k.outline inside := by
    rw [Node.outline_eq]
    exact List.mem_append_right _ (List.mem_flatMap.mpr ⟨c, mem, he⟩)
  induction h with
  | top hs =>
    intro e he
    rw [outline_entries]
    exact .tail _ (List.mem_flatMap.mpr ⟨_, List.mem_map.mpr ⟨_, hs, rfl⟩, he⟩)
  | inside _ mem ih => exact fun e he => ih e (part (List.mem_map.mpr ⟨_, mem, rfl⟩) he)
  | inExpr _ mem ih => exact fun e he => ih e (part mem he)
  | inStmt _ mem ih => exact fun e he => ih e (part mem he)

theorem blockInfo_mem (h : p.Around blocks n) : .block (p.blockInfo blocks) ∈ p.outline.entries := by
  cases blocks with
  | nil =>
    rw [outline_entries]
    exact .head _
  | cons b outer =>
    refine h.block.entries _ ?_
    rw [Node.outline_eq]
    exact .head _

/-- There are fewer blocks around a node than there are in the outline, even if those in the node are left
out. -/
theorem countP_isBlock_lt (h : p.Around blocks n) :
    (n.outline (p.blockInfo blocks).id).countP OutlineEntry.isBlock + blocks.length <
      p.outline.entries.countP OutlineEntry.isBlock := by
  induction h with
  | top hs =>
    rw [outline_entries, List.countP_cons_of_pos rfl]
    refine Nat.lt_succ_of_le (List.Sublist.countP_le ?_)
    exact List.sublist_flatten_of_mem (List.mem_map.mpr ⟨_, List.mem_map.mpr ⟨_, hs, rfl⟩, rfl⟩)
  | @inside outer b s _ mem ih =>
    -- The block that is entered counts for the length here, and counted for its own entry before.
    have part : Node.stmt s ∈ (Node.block b).parts := List.mem_map.mpr ⟨s, mem, rfl⟩
    have within := Node.countP_part (p.blockInfo outer).id part OutlineEntry.isBlock
    have own : ((Node.block b).entry (p.blockInfo outer).id).countP OutlineEntry.isBlock = 1 := rfl
    have here : Node.around (p.blockInfo outer).id (.block b) = (p.blockInfo (b :: outer)).id := rfl
    rw [own, here] at within
    rw [List.length_cons]
    omega
  | @inExpr outer e c _ mem ih =>
    have within := Node.countP_part (p.blockInfo outer).id (n := .expr e) mem OutlineEntry.isBlock
    have here : Node.around (p.blockInfo outer).id (.expr e) = (p.blockInfo outer).id := rfl
    rw [here] at within
    omega
  | @inStmt outer s c _ mem ih =>
    have within := Node.countP_part (p.blockInfo outer).id (n := .stmt s) mem OutlineEntry.isBlock
    have here : Node.around (p.blockInfo outer).id (.stmt s) = (p.blockInfo outer).id := rfl
    rw [here] at within
    omega

theorem climb (nodup : p.ids.Nodup) (h : p.Around blocks n) {bound : Nat} (hbound : blocks.length ≤ bound) :
    p.outline.climb bound (some (p.blockInfo blocks)) = blocks.length := by
  induction blocks generalizing n bound with
  | nil => cases bound <;> rfl
  | cons b outer ih =>
    cases bound with
    | zero => cases hbound
    | succ bound =>
      show p.outline.climb bound (p.outline.block? (p.blockInfo outer).id) + 1 = _
      rw [Outline.block?_eq (p.outline_ids ▸ nodup) h.block.blockInfo_mem,
        ih h.block (Nat.le_of_succ_le_succ hbound)]
      rfl

theorem outline (nodup : p.ids.Nodup) (h : p.Around blocks (.stmt s)) :
    p.outline.parent? s.id = some (p.blockInfo blocks).id ∧
      p.outline.enclosing? s.id = some (p.blockInfo blocks) ∧
      p.outline.depth s.id = blocks.length := by
  have distinct : (p.outline.entries.map OutlineEntry.id).Nodup := p.outline_ids ▸ nodup
  have parent : p.outline.parent? s.id = some (p.blockInfo blocks).id := by
    refine Outline.parent?_eq distinct (h.entries _ ?_)
    rw [Node.outline_eq]
    exact .head _
  have enclosing : p.outline.enclosing? s.id = some (p.blockInfo blocks) := by
    unfold Outline.enclosing?
    rw [parent]
    exact Outline.block?_eq distinct h.blockInfo_mem
  refine ⟨parent, enclosing, ?_⟩
  unfold Outline.depth
  rw [enclosing]
  -- Climbing is bounded by the number of blocks, which is enough for all those around the statement.
  refine h.climb nodup (Nat.le_of_lt ?_)
  rw [Outline.length_blocks]
  exact Nat.lt_of_le_of_lt (Nat.le_add_left _ _) h.countP_isBlock_lt

end Around

end Program

end Trellis
