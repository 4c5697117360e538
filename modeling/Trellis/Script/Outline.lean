import Trellis.Script

/-!
# Outlines

The outline of a program says of every statement which block it is directly in, and of every block which
block that is in. It lists statements and blocks in the order of the text, an outer one before what it
holds, so it can be made by one walk over the tree. A declaration that is exposed and a condition in an
alternate are in the block that the statement around them is in.
-/

namespace Trellis

/-- **What is known of a block**: its identity, where it starts, and the block it is in. The program is a
block that is in no other one. -/
structure BlockInfo where
  id : NodeId
  span : Span
  parent : Option NodeId
deriving DecidableEq, Repr

inductive OutlineEntry where
  /-- A statement, and the block that it is directly in. -/
  | statement (id parent : NodeId)
  | block (info : BlockInfo)
deriving DecidableEq, Repr

/-- **The statements and blocks of a program**, in the order of the text. -/
structure Outline where
  entries : List OutlineEntry := []

mutual

def Expr.outline (inside : NodeId) : Expr → List OutlineEntry
  | ⟨_, form⟩ => form.outline inside

def ExprForm.outline (inside : NodeId) : ExprForm → List OutlineEntry
  | .literal _ => []
  | .name _ => []
  | .template _ parts => outlineParts inside parts
  | .array elements => outlineExprs inside elements
  | .object properties => outlineProperties inside properties
  | .lambda _ body => body.outline inside
  | .negate operand => operand.outline inside
  | .arithmetic left _ right => left.outline inside ++ right.outline inside
  | .compare left _ right => left.outline inside ++ right.outline inside
  | .equal left _ right => left.outline inside ++ right.outline inside
  | .assign target value => target.outline inside ++ value.outline inside
  | .conditional condition consequent alternate =>
    condition.outline inside ++ consequent.outline inside ++ alternate.outline inside
  | .range first last => first.outline inside ++ last.outline inside
  | .call callee arguments => callee.outline inside ++ outlineExprs inside arguments
  | .member receiver _ => receiver.outline inside
  | .index receiver key => receiver.outline inside ++ key.outline inside
  | .switch subject cases => subject.outline inside ++ outlineCases inside cases
  | .run call continuations => call.outline inside ++ outlineContinuations inside continuations
  | .wait awaited => awaited.outline inside

def outlineExprs (inside : NodeId) : List Expr → List OutlineEntry
  | [] => []
  | e :: rest => e.outline inside ++ outlineExprs inside rest

def outlineParts (inside : NodeId) : List TemplatePart → List OutlineEntry
  | [] => []
  | .text _ :: rest => outlineParts inside rest
  | .slot e :: rest => e.outline inside ++ outlineParts inside rest

def outlineProperties (inside : NodeId) : List Property → List OutlineEntry
  | [] => []
  | ⟨_, _, value⟩ :: rest => value.outline inside ++ outlineProperties inside rest

def outlineCases (inside : NodeId) : List Case → List OutlineEntry
  | [] => []
  | ⟨_, none, body⟩ :: rest => body.outline inside ++ outlineCases inside rest
  | ⟨_, some test, body⟩ :: rest =>
    test.outline inside ++ body.outline inside ++ outlineCases inside rest

def outlineContinuations (inside : NodeId) : List Continuation → List OutlineEntry
  | [] => []
  | ⟨_, _, body⟩ :: rest => body.outline inside ++ outlineContinuations inside rest

def Block.outline (inside : NodeId) : Block → List OutlineEntry
  | ⟨id, span, body⟩ => .block ⟨id, span, some inside⟩ :: outlineStmts id body

def outlineStmts (inside : NodeId) : List Stmt → List OutlineEntry
  | [] => []
  | s :: rest => s.outline inside ++ outlineStmts inside rest

def Stmt.outline (inside : NodeId) : Stmt → List OutlineEntry
  | ⟨id, _, form⟩ => .statement id inside :: form.outline inside

def StmtForm.outline (inside : NodeId) : StmtForm → List OutlineEntry
  | .useModule _ _ _ => []
  | .expose declaration => declaration.outline inside
  | .declareTask _ _ body => body.outline inside
  | .declareFunction _ _ body => body.outline inside
  | .declare _ _ value => value.outline inside
  | .branch condition consequent none => condition.outline inside ++ consequent.outline inside
  | .branch condition consequent (some alternate) =>
    condition.outline inside ++ consequent.outline inside ++ alternate.outline inside
  | .loop _ _ iterated body => iterated.outline inside ++ body.outline inside
  | .give none => []
  | .give (some value) => value.outline inside
  | .expression e => e.outline inside
  | .comment _ => []
  | .blankLine => []

def Alternate.outline (inside : NodeId) : Alternate → List OutlineEntry
  | .block b => b.outline inside
  | .branch s => s.outline inside

end

def Program.outline (p : Program) : Outline :=
  ⟨.block ⟨p.id, {}, none⟩ :: outlineStmts p.id p.body⟩

namespace Outline

def statements (o : Outline) : List (NodeId × NodeId) :=
  o.entries.filterMap fun
    | .statement id parent => some (id, parent)
    | .block _ => none

def blocks (o : Outline) : List BlockInfo :=
  o.entries.filterMap fun
    | .statement _ _ => none
    | .block info => some info

def parent? (o : Outline) (statement : NodeId) : Option NodeId :=
  (o.statements.find? (·.1 == statement)).map (·.2)

def block? (o : Outline) (id : NodeId) : Option BlockInfo :=
  o.blocks.find? (·.id == id)

def enclosing? (o : Outline) (statement : NodeId) : Option BlockInfo :=
  (o.parent? statement).bind o.block?

def climb (o : Outline) : Nat → Option BlockInfo → Nat
  | 0, _ => 0
  | bound + 1, info =>
    match info.bind (·.parent) with
    | some parent => climb o bound (o.block? parent) + 1
    | none => 0

/-- **How deep a statement is**: the number of blocks between it and the program. -/
def depth (o : Outline) (statement : NodeId) : Nat :=
  o.climb o.blocks.length (o.enclosing? statement)

end Outline

end Trellis
