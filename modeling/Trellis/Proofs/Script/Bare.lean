import Trellis.Proofs.Script.Nodes
import Trellis.Script.Layout

/-!
# Trees without places

Two scripts say the same when their trees differ only in places and identities. The *bare* tree has
neither: every place is the default span and every identity is zero. So two trees say the same exactly if
they are equal when they are bare.

Blank lines need more care. A blank line is a statement, but the layout of a tree may put a block of
statements inside brackets, where blank lines are not seen when the text is read again. The bare tree is
therefore made in one of three ways (`Blanks`): with all blank lines, with those that the layout puts
outside brackets, or with none. Slots of templates are read from the text between two quotes, which is one
line, so they are never asked to drop a blank line.

Making a tree bare twice is making it bare once, in the way that drops more (`Node.bare_bare`).
-/

namespace Trellis

inductive Blanks where
  | all
  /-- Those that the layout of the tree puts outside brackets. -/
  | outside
  | none
deriving DecidableEq

namespace Blanks

def within : Blanks → Blanks
  | all => all
  | outside => none
  | none => none

def under (b : Blanks) (bracketed : Bool) : Blanks :=
  if bracketed then b.within else b

def keeps : Blanks → Bool
  | all => true
  | outside => true
  | none => false

@[simp] theorem within_all : all.within = all := rfl

@[simp] theorem under_all (bracketed : Bool) : all.under bracketed = all := by
  cases bracketed <;> rfl

end Blanks

def StmtForm.isBlankLine : StmtForm → Bool
  | blankLine => true
  | _ => false

def Ident.bare (i : Ident) : Ident :=
  ⟨i.name, {}⟩

def Pick.bare (p : Pick) : Pick :=
  ⟨p.name.bare, p.called.map Ident.bare⟩

mutual

/-- **An expression without places and identities**, and with the blank lines that are asked for. -/
def Expr.bare (b : Blanks) : Expr → Expr
  | ⟨_, form⟩ => ⟨{}, form.bare b⟩

def ExprForm.bare (b : Blanks) : ExprForm → ExprForm
  | .literal value => .literal value
  | .name name => .name name
  | .template raw parts => .template raw (TemplatePart.bareOf parts)
  | .array elements => .array (Expr.bareOf b.within elements)
  | .object properties => .object (Property.bareOf b.within properties)
  | .lambda params body => .lambda (params.map Ident.bare) (body.bare b)
  | .negate operand => .negate (operand.bareOperand b 6)
  | .arithmetic left operator right =>
    .arithmetic (left.bareOperand b 5) operator (right.bareOperand b 4)
  | .compare left operator right =>
    .compare (left.bareOperand b 3) operator (right.bareOperand b 2)
  | .equal left negated right => .equal (left.bareOperand b 4) negated (right.bareOperand b 3)
  | .assign target value => .assign (target.bareOperand b 6) (value.bare b)
  | .conditional condition consequent alternate =>
    .conditional (condition.bareOperand b 2) (consequent.bare b) (alternate.bare b)
  | .range first last => .range (first.bareOperand b 6) (last.bareOperand b 6)
  | .call callee arguments => .call (callee.bareOperand b 6) (Expr.bareOf b.within arguments)
  | .member receiver key => .member (receiver.bareOperand b 6) key.bare
  | .index receiver key => .index (receiver.bareOperand b 6) (key.bare b.within)
  | .switch subject cases => .switch (subject.bare b) (Case.bareOf b cases)
  | .run call continuations => .run (call.bare b) (Continuation.bareOf b continuations)
  | .wait awaited => .wait (awaited.bareOperand b 6)

/-- An expression where at least the given strength is asked for, which may put it in parentheses. -/
def Expr.bareOperand (b : Blanks) (least : Nat) : Expr → Expr
  | ⟨_, form⟩ => ⟨{}, form.bare (b.under (Layout.strength form < least))⟩

def Expr.bareOf (b : Blanks) : List Expr → List Expr
  | [] => []
  | e :: rest => e.bare b :: Expr.bareOf b rest

def TemplatePart.bareOf : List TemplatePart → List TemplatePart
  | [] => []
  | .text s :: rest => .text s :: TemplatePart.bareOf rest
  | .slot e :: rest => .slot (e.bare .all) :: TemplatePart.bareOf rest

def Property.bareOf (b : Blanks) : List Property → List Property
  | [] => []
  | ⟨key, short, value⟩ :: rest => ⟨key, short, value.bare b⟩ :: Property.bareOf b rest

def Case.bareOf (b : Blanks) : List Case → List Case
  | [] => []
  | ⟨_, none, body⟩ :: rest => ⟨{}, none, body.bare b⟩ :: Case.bareOf b rest
  | ⟨_, some test, body⟩ :: rest => ⟨{}, some (test.bare b), body.bare b⟩ :: Case.bareOf b rest

def Continuation.bareOf (b : Blanks) : List Continuation → List Continuation
  | [] => []
  | ⟨_, params, body⟩ :: rest =>
    ⟨{}, params.map Ident.bare, body.bare b⟩ :: Continuation.bareOf b rest

def Block.bare (b : Blanks) : Block → Block
  | ⟨_, _, body⟩ => ⟨0, {}, Stmt.bareOf b body⟩

/-- **Statements without places and identities**, and with the blank lines that are asked for. -/
def Stmt.bareOf (b : Blanks) : List Stmt → List Stmt
  | [] => []
  | ⟨_, _, form⟩ :: rest =>
    if form.isBlankLine && !b.keeps then Stmt.bareOf b rest
    else ⟨0, {}, form.bare b⟩ :: Stmt.bareOf b rest

def Stmt.bare (b : Blanks) : Stmt → Stmt
  | ⟨_, _, form⟩ => ⟨0, {}, form.bare b⟩

def StmtForm.bare (b : Blanks) : StmtForm → StmtForm
  | .useModule source called picks =>
    .useModule source (called.map Ident.bare) (picks.map Pick.bare)
  | .expose declaration => .expose (declaration.bare b)
  | .declareTask name params body =>
    .declareTask name.bare (params.map Ident.bare) (body.bare b)
  | .declareFunction name params body =>
    .declareFunction name.bare (params.map Ident.bare) (body.bare b)
  | .declare name constant value => .declare name.bare constant (value.bare b)
  | .branch condition consequent none =>
    .branch (condition.bare b) (consequent.bare b) none
  | .branch condition consequent (some alternate) =>
    .branch (condition.bare b) (consequent.bare b) (some (alternate.bare b))
  | .loop key value iterated body =>
    .loop key.bare (value.map Ident.bare) (iterated.bare b) (body.bare b)
  | .give none => .give none
  | .give (some value) => .give (some (value.bare b))
  | .expression e => .expression (e.bare b)
  | .comment text => .comment text
  | .blankLine => .blankLine

def Alternate.bare (b : Blanks) : Alternate → Alternate
  | .block body => .block (body.bare b)
  | .branch s => .branch (s.bare b)

end

/-- **A program without places and identities**, and with the blank lines that are asked for. -/
def Program.bare (b : Blanks) (p : Program) : Program :=
  ⟨0, Stmt.bareOf b p.body⟩

/-! ## Items of lists -/

def TemplatePart.bare : TemplatePart → TemplatePart
  | .text s => .text s
  | .slot e => .slot (e.bare .all)

def Property.bare (b : Blanks) (p : Property) : Property :=
  ⟨p.key, p.short, p.value.bare b⟩

def Case.bare (b : Blanks) (c : Case) : Case :=
  ⟨{}, c.test.map (Expr.bare b), c.body.bare b⟩

def Continuation.bare (b : Blanks) (c : Continuation) : Continuation :=
  ⟨{}, c.params.map Ident.bare, c.body.bare b⟩

theorem Expr.bareOf_eq (b : Blanks) (es : List Expr) : Expr.bareOf b es = es.map (Expr.bare b) :=
  eq_map_of_cons rfl (fun _ _ => rfl) es

theorem TemplatePart.bareOf_eq (parts : List TemplatePart) :
    TemplatePart.bareOf parts = parts.map TemplatePart.bare :=
  eq_map_of_cons rfl (fun | .text _, _ => rfl | .slot _, _ => rfl) parts

theorem Property.bareOf_eq (b : Blanks) (ps : List Property) : Property.bareOf b ps = ps.map (Property.bare b) :=
  eq_map_of_cons rfl (fun ⟨_, _, _⟩ _ => rfl) ps

theorem Case.bareOf_eq (b : Blanks) (cs : List Case) : Case.bareOf b cs = cs.map (Case.bare b) :=
  eq_map_of_cons rfl (fun | ⟨_, none, _⟩, _ => rfl | ⟨_, some _, _⟩, _ => rfl) cs

theorem Continuation.bareOf_eq (b : Blanks) (cs : List Continuation) :
    Continuation.bareOf b cs = cs.map (Continuation.bare b) :=
  eq_map_of_cons rfl (fun ⟨_, _, _⟩ _ => rfl) cs

theorem Stmt.bareOf_all (body : List Stmt) : Stmt.bareOf .all body = body.map (Stmt.bare .all) := by
  induction body with
  | nil => rfl
  | cons s rest ih =>
    obtain ⟨i, span, form⟩ := s
    simp [Stmt.bareOf, Blanks.keeps, ih, Stmt.bare]

/-! ## Small facts -/

@[simp] theorem Ident.bare_bare (i : Ident) : i.bare.bare = i.bare := rfl

@[simp] theorem Ident.name_bare (i : Ident) : i.bare.name = i.name := rfl

@[simp] theorem Pick.bare_bare (p : Pick) : p.bare.bare = p.bare := by
  cases p with
  | mk name called => cases called <;> rfl

@[simp] theorem Layout.strength_bare (b : Blanks) (form : ExprForm) :
    Layout.strength (form.bare b) = Layout.strength form := by
  cases form <;> rfl

@[simp] theorem StmtForm.isBlankLine_bare (b : Blanks) (form : StmtForm) :
    (form.bare b).isBlankLine = form.isBlankLine := by
  cases form with
  | branch _ _ alternate => cases alternate <;> rfl
  | give value => cases value <;> rfl
  | _ => rfl

@[simp] theorem StmtForm.isTrivia_bare (b : Blanks) (form : StmtForm) : (form.bare b).isTrivia = form.isTrivia := by
  cases form with
  | branch _ _ alternate => cases alternate <;> rfl
  | give value => cases value <;> rfl
  | _ => rfl

@[simp] theorem StmtForm.isGive_bare (b : Blanks) (form : StmtForm) : (form.bare b).isGive = form.isGive := by
  cases form with
  | branch _ _ alternate => cases alternate <;> rfl
  | give value => cases value <;> rfl
  | _ => rfl

theorem StmtForm.isTrivia_of_isBlankLine {form : StmtForm} (h : form.isBlankLine = true) : form.isTrivia = true := by
  cases form <;> first | rfl | cases h

@[simp] theorem Expr.bare_form (b : Blanks) (e : Expr) : (e.bare b).form = e.form.bare b := by
  cases e
  rfl

theorem Expr.bareOperand_eq (b : Blanks) (least : Nat) (e : Expr) :
    e.bareOperand b least = e.bare (b.under (Layout.strength e.form < least)) := by
  cases e
  rfl

/-! ## Making a tree bare twice -/

namespace Blanks

/-- **One way keeps no blank line that another drops.** -/
instance : LE Blanks where
  le c b := c = b ∨ c = none ∨ b = all

theorem le_rfl {b : Blanks} : b ≤ b :=
  .inl rfl

theorem le_all (c : Blanks) : c ≤ all :=
  .inr (.inr rfl)

variable {b c : Blanks}

theorem within_le (h : c ≤ b) : c.within ≤ b.within := by
  rcases h with rfl | rfl | rfl
  · exact le_rfl
  · exact .inr (.inl rfl)
  · exact le_all _

theorem under_le (bracketed : Bool) (h : c ≤ b) : c.under bracketed ≤ b.under bracketed := by
  cases bracketed with
  | false => exact h
  | true => exact within_le h

theorem keeps_of_le (h : c ≤ b) (hdrops : b.keeps = false) : c.keeps = false := by
  rcases h with rfl | rfl | rfl
  · exact hdrops
  · rfl
  · cases hdrops

end Blanks

/-- **A node without places and identities**, and with the blank lines that are asked for. -/
def Node.bare (b : Blanks) : Node → Node
  | .expr e => .expr (e.bare b)
  | .block k => .block (k.bare b)
  | .stmt s => .stmt (s.bare b)

/-- Making a node bare in two ways, the second of which drops more, is making it bare in the second way. -/
def Node.BareTwice (n : Node) : Prop :=
  ∀ b c, c ≤ b → (n.bare b).bare c = n.bare c

section

variable {b c : Blanks}

theorem ExprForm.bare_bare {form : ExprForm} (ih : ∀ n ∈ form.parts, n.BareTwice) (h : c ≤ b) :
    (form.bare b).bare c = form.bare c := by
  cases form with
  | template raw parts =>
    simp only [ExprForm.bare, TemplatePart.bareOf_eq, List.map_map]
    refine congrArg _ (List.map_congr_left fun part hpart => ?_)
    cases part with
    | text s => rfl
    | slot e =>
      exact congrArg _ (Node.expr.inj (ih _ (List.mem_flatMap.mpr ⟨_, hpart, .head _⟩) _ _ (Blanks.le_all _)))
  | switch subject cases =>
    have hsubject := Node.expr.inj (ih _ (.head _) _ _ h)
    simp only [ExprForm.bare, Case.bareOf_eq, List.map_map, hsubject]
    refine congrArg _ (List.map_congr_left fun k hk => ?_)
    have hparts := fun n hn => ih n (.tail _ (List.mem_flatMap.mpr ⟨k, hk, hn⟩)) _ _ h
    obtain ⟨span, test, body⟩ := k
    cases test <;> simp_all [Case.parts, Case.bare, Node.bare]
  | _ =>
    simp_all [Node.BareTwice, ExprForm.bare, ExprForm.parts, Node.bare, Expr.bareOperand_eq, Expr.bareOf_eq,
      Property.bareOf_eq, Property.bare, Continuation.bareOf_eq, Continuation.bare, Blanks.within_le, Blanks.under_le]

theorem StmtForm.bare_bare {form : StmtForm} (ih : ∀ n ∈ form.parts, n.BareTwice) (h : c ≤ b) :
    (form.bare b).bare c = form.bare c := by
  have hparts := fun n hn => ih n hn _ _ h
  cases form with
  | branch condition consequent alternate =>
    cases alternate with
    | none => simp_all [StmtForm.bare, StmtForm.parts, Node.bare]
    | some alternate =>
      cases alternate <;> simp_all [StmtForm.bare, StmtForm.parts, Alternate.bare, Alternate.parts, Node.bare]
  | give value => cases value <;> simp_all [StmtForm.bare, StmtForm.parts, Node.bare]
  | _ => simp_all [StmtForm.bare, StmtForm.parts, Node.bare, Function.comp_def]

theorem Stmt.bareOf_bareOf {body : List Stmt} (twice : ∀ s ∈ body, (Node.stmt s).BareTwice) (h : c ≤ b) :
    Stmt.bareOf c (Stmt.bareOf b body) = Stmt.bareOf c body := by
  induction body with
  | nil => rfl
  | cons s rest ih =>
    obtain ⟨hs, hrest⟩ := List.forall_mem_cons.mp twice
    obtain ⟨i, span, form⟩ := s
    have here : (form.bare b).bare c = form.bare c := congrArg Stmt.form (Node.stmt.inj (hs b c h))
    cases hb : form.isBlankLine with
    | false => simp [Stmt.bareOf, hb, here, ih hrest]
    | true =>
      cases hk : b.keeps with
      | false => simp [Stmt.bareOf, hb, hk, Blanks.keeps_of_le h hk, ih hrest]
      | true => simp [Stmt.bareOf, hb, hk, here, ih hrest]

theorem Node.bare_bare (n : Node) : n.BareTwice := by
  induction n using byParts with
  | step n ih =>
    intro b c h
    cases n with
    | expr e => cases e; exact congrArg (Node.expr ⟨_, ·⟩) (ExprForm.bare_bare ih h)
    | block k =>
      cases k
      exact congrArg (Node.block ⟨_, _, ·⟩)
        (Stmt.bareOf_bareOf (fun s hs => ih _ (List.mem_map_of_mem hs)) h)
    | stmt s => cases s; exact congrArg (Node.stmt ⟨_, _, ·⟩) (StmtForm.bare_bare ih h)

theorem Program.bare_bare (h : c = .none ∨ b = .all) (p : Program) : (p.bare b).bare c = p.bare c :=
  congrArg (Program.mk 0) (Stmt.bareOf_bareOf (fun s _ => Node.bare_bare (.stmt s)) (.inr h))

theorem Program.bare_outside_bare (p : Program) : (p.bare .outside).bare .outside = p.bare .outside :=
  congrArg (Program.mk 0) (Stmt.bareOf_bareOf (fun s _ => Node.bare_bare (.stmt s)) Blanks.le_rfl)

end

/-! ## The last statement of a bare block -/

theorem Block.endsInGive_mk (i : NodeId) (span : Span) (body : List Stmt) :
    Block.endsInGive ⟨i, span, body⟩
      = (((body.reverse.find? fun s => !s.form.isTrivia).map fun s => s.form.isGive).getD false) := by
  unfold Block.endsInGive
  cases body.reverse.find? fun s => !s.form.isTrivia <;> rfl

theorem Stmt.find?_reverse_bareOf (b : Blanks) (body : List Stmt) :
    ((Stmt.bareOf b body).reverse.find? fun s => !s.form.isTrivia)
      = (body.reverse.find? fun s => !s.form.isTrivia).map (Stmt.bare b) := by
  induction body with
  | nil => rfl
  | cons s rest ih =>
    obtain ⟨i, span, form⟩ := s
    rw [List.reverse_cons, List.find?_append, Option.map_or, ← ih]
    cases hdrop : form.isBlankLine && !b.keeps with
    | true =>
      have htrivia := StmtForm.isTrivia_of_isBlankLine (Bool.and_eq_true _ _ ▸ hdrop).1
      simp [Stmt.bareOf, hdrop, htrivia]
    | false =>
      simp only [Stmt.bareOf, hdrop, Bool.false_eq_true, if_false, List.reverse_cons,
        List.find?_append]
      congr 1
      cases htrivia : form.isTrivia <;> simp [htrivia, Stmt.bare]

@[simp] theorem Block.endsInGive_bare (b : Blanks) (block : Block) :
    (block.bare b).endsInGive = block.endsInGive := by
  obtain ⟨i, span, body⟩ := block
  rw [Block.bare, Block.endsInGive_mk, Block.endsInGive_mk, Stmt.find?_reverse_bareOf,
    Option.map_map]
  congr 1
  cases body.reverse.find? fun s => !s.form.isTrivia with
  | none => rfl
  | some s =>
    cases s
    simp [Stmt.bare]

end Trellis
