import Mathlib.Data.List.Basic
import Trellis.Proofs.Script.Nodes

/-!
# Trees that are changed part by part

A tree is changed in several ways: its places are moved or given up, its identities are replaced, comments and blank
lines are taken out. Each of them goes through the tree part by part. A *change* (`Change`) says what becomes of the
names, expressions, blocks and statements that a form is made of, and the form stays the same form (`ExprForm.change`).

So two changes one behind the other are one change (`ExprForm.change_change`), the parts of a form change with it
(`ExprForm.parts_change`), and what becomes of a form depends on what becomes of its parts alone
(`ExprForm.change_congr`).
-/

namespace Trellis

structure Change where
  span : Span → Span
  ident : Ident → Ident
  expr : Expr → Expr
  block : Block → Block
  stmt : Stmt → Stmt

namespace Change

abbrev keep : Change :=
  ⟨id, id, id, id, id⟩

def andThen (r r' : Change) : Change :=
  ⟨r'.span ∘ r.span, r'.ident ∘ r.ident, r'.expr ∘ r.expr, r'.block ∘ r.block, r'.stmt ∘ r.stmt⟩

def node (r : Change) : Node → Node
  | .expr e => .expr (r.expr e)
  | .block b => .block (r.block b)
  | .stmt s => .stmt (r.stmt s)

end Change

/-! ## Forms -/

section

variable (r : Change)

def TemplatePart.change : TemplatePart → TemplatePart
  | .text s => .text s
  | .slot e => .slot (r.expr e)

def Property.change (p : Property) : Property :=
  ⟨p.key, p.short, r.expr p.value⟩

def Case.change (c : Case) : Case :=
  ⟨r.span c.span, c.test.map r.expr, r.block c.body⟩

def Continuation.change (c : Continuation) : Continuation :=
  ⟨r.span c.span, c.params.map r.ident, r.block c.body⟩

def Pick.change (p : Pick) : Pick :=
  ⟨r.ident p.name, p.called.map r.ident⟩

def Alternate.change : Alternate → Alternate
  | .block b => .block (r.block b)
  | .branch s => .branch (r.stmt s)

def ExprForm.change : ExprForm → ExprForm
  | .literal value => .literal value
  | .name word => .name word
  | .template raw parts => .template raw (parts.map (TemplatePart.change r))
  | .array elements => .array (elements.map r.expr)
  | .object properties => .object (properties.map (Property.change r))
  | .lambda params body => .lambda (params.map r.ident) (r.block body)
  | .negate operand => .negate (r.expr operand)
  | .arithmetic left operator right => .arithmetic (r.expr left) operator (r.expr right)
  | .compare left operator right => .compare (r.expr left) operator (r.expr right)
  | .equal left negated right => .equal (r.expr left) negated (r.expr right)
  | .assign target value => .assign (r.expr target) (r.expr value)
  | .conditional condition consequent alternate =>
    .conditional (r.expr condition) (r.expr consequent) (r.expr alternate)
  | .range first last => .range (r.expr first) (r.expr last)
  | .call callee arguments => .call (r.expr callee) (arguments.map r.expr)
  | .member receiver key => .member (r.expr receiver) (r.ident key)
  | .index receiver key => .index (r.expr receiver) (r.expr key)
  | .switch subject cases => .switch (r.expr subject) (cases.map (Case.change r))
  | .run started continuations => .run (r.expr started) (continuations.map (Continuation.change r))
  | .wait awaited => .wait (r.expr awaited)

def StmtForm.change : StmtForm → StmtForm
  | .useModule source called picks => .useModule source (called.map r.ident) (picks.map (Pick.change r))
  | .expose declaration => .expose (r.stmt declaration)
  | .declareTask name params body => .declareTask (r.ident name) (params.map r.ident) (r.block body)
  | .declareFunction name params body => .declareFunction (r.ident name) (params.map r.ident) (r.block body)
  | .declare name constant value => .declare (r.ident name) constant (r.expr value)
  | .branch condition consequent alternate =>
    .branch (r.expr condition) (r.block consequent) (alternate.map (Alternate.change r))
  | .loop key value iterated body => .loop (r.ident key) (value.map r.ident) (r.expr iterated) (r.block body)
  | .give value => .give (value.map r.expr)
  | .expression e => .expression (r.expr e)
  | .comment text => .comment text
  | .blankLine => .blankLine

variable {r} {r' : Change}

/-! ## Two changes -/

theorem TemplatePart.change_change (p : TemplatePart) : (p.change r).change r' = p.change (r.andThen r') := by
  cases p <;> rfl

theorem Alternate.change_change (a : Alternate) : (a.change r).change r' = a.change (r.andThen r') := by
  cases a <;> rfl

theorem ExprForm.change_change (form : ExprForm) : (form.change r).change r' = form.change (r.andThen r') := by
  cases form <;>
    simp [change, Change.andThen, TemplatePart.change_change, Property.change, Case.change, Continuation.change]

theorem StmtForm.change_change (form : StmtForm) : (form.change r).change r' = form.change (r.andThen r') := by
  cases form <;> simp [change, Change.andThen, Pick.change, Alternate.change_change, Function.comp_def]

/-! ## Parts -/

theorem ExprForm.parts_change (form : ExprForm) : (form.change r).parts = form.parts.map r.node := by
  cases form with
  | template raw parts =>
    rw [change, ExprForm.parts, ExprForm.parts, List.flatMap_map, List.map_flatMap]
    exact List.flatMap_congr fun part _ => by cases part <;> rfl
  | switch subject cases =>
    rw [change, ExprForm.parts, ExprForm.parts, List.map_cons, List.flatMap_map, List.map_flatMap]
    refine congrArg (_ :: ·) (List.flatMap_congr fun c _ => ?_)
    obtain ⟨span, test, body⟩ := c
    cases test <;> rfl
  | _ => simp [change, ExprForm.parts, Change.node, Property.change, Continuation.change]

theorem StmtForm.parts_change (form : StmtForm) : (form.change r).parts = form.parts.map r.node := by
  cases form with
  | branch condition consequent alternate =>
    cases alternate with
    | none => rfl
    | some alternate => cases alternate <;> rfl
  | give value => cases value <;> rfl
  | _ => rfl

theorem ExprForm.change_congr {form : ExprForm} (span : r.span = r'.span) (ident : r.ident = r'.ident)
    (h : ∀ c ∈ form.parts, r.node c = r'.node c) : form.change r = form.change r' := by
  cases form with
  | template raw parts =>
    refine congrArg _ (List.map_congr_left fun part hpart => ?_)
    cases part with
    | text s => rfl
    | slot e => exact congrArg _ (Node.expr.inj (h _ (List.mem_flatMap.mpr ⟨_, hpart, .head _⟩)))
  | switch subject cases =>
    rw [change, change, Node.expr.inj (h _ (.head _))]
    refine congrArg _ (List.map_congr_left fun c hc => ?_)
    have hparts := fun n hn => h n (.tail _ (List.mem_flatMap.mpr ⟨c, hc, hn⟩))
    obtain ⟨place, test, body⟩ := c
    cases test <;> simp_all [Case.parts, Case.change, Change.node]
  | _ => simp_all [change, ExprForm.parts, Change.node, Property.change, Continuation.change]

theorem StmtForm.change_congr {form : StmtForm} (ident : r.ident = r'.ident)
    (h : ∀ c ∈ form.parts, r.node c = r'.node c) : form.change r = form.change r' := by
  have picks : Pick.change r = Pick.change r' := by
    funext p
    rw [Pick.change, Pick.change, ident]
  cases form with
  | branch condition consequent alternate =>
    cases alternate with
    | none => simp_all [change, StmtForm.parts, Change.node]
    | some alternate =>
      cases alternate <;> simp_all [change, StmtForm.parts, Alternate.change, Alternate.parts, Change.node]
  | give value => cases value <;> simp_all [change, StmtForm.parts, Change.node]
  | _ => simp_all [change, StmtForm.parts, Change.node]

/-! ## Changing nothing -/

theorem TemplatePart.change_keep : TemplatePart.change .keep = id :=
  funext fun p => by cases p <;> rfl

theorem Property.change_keep : Property.change .keep = id :=
  funext fun ⟨_, _, _⟩ => rfl

theorem Case.change_keep : Case.change .keep = id :=
  funext fun ⟨_, test, _⟩ => by cases test <;> rfl

theorem Continuation.change_keep : Continuation.change .keep = id :=
  funext fun ⟨span, params, body⟩ => congrArg (Continuation.mk span · body) params.map_id

theorem Pick.change_keep : Pick.change .keep = id :=
  funext fun ⟨_, called⟩ => by cases called <;> rfl

theorem Alternate.change_keep : Alternate.change .keep = id :=
  funext fun a => by cases a <;> rfl

theorem ExprForm.change_keep (form : ExprForm) : form.change .keep = form := by
  cases form <;>
    simp [change, TemplatePart.change_keep, Property.change_keep, Case.change_keep, Continuation.change_keep]

theorem StmtForm.change_keep (form : StmtForm) : form.change .keep = form := by
  cases form <;> simp [change, Pick.change_keep, Alternate.change_keep]

end

end Trellis
