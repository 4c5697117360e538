import Trellis.Proofs.Script.Change

/-!
# The core of a tree

The *core* of a tree is what is left of it when identities are left aside and when all comments and blank lines
are taken out of the lists of statements. What becomes of places is a parameter: each place is replaced by the
one that a function gives for it, so the places of a tree can be kept, moved, or given up altogether
(`nowhere`).

Two trees have the same layout aside if their cores with all places given up are equal. The core of a core is a
core, with the two changes of places one after the other (`Node.core_core`), so a tree and
its core have the same core.
-/

namespace Trellis

def nowhere : Span → Span :=
  fun _ => {}

def Ident.core (place : Span → Span) (i : Ident) : Ident :=
  ⟨i.name, place i.span⟩

def Pick.core (place : Span → Span) (p : Pick) : Pick :=
  ⟨p.name.core place, p.called.map (Ident.core place)⟩

mutual

def Expr.core (place : Span → Span) : Expr → Expr
  | ⟨span, form⟩ => ⟨place span, form.core place⟩

def ExprForm.core (place : Span → Span) : ExprForm → ExprForm
  | .literal value => .literal value
  | .name name => .name name
  | .template raw parts => .template raw (TemplatePart.coreOf place parts)
  | .array elements => .array (Expr.coreOf place elements)
  | .object properties => .object (Property.coreOf place properties)
  | .lambda params body => .lambda (params.map (Ident.core place)) (body.core place)
  | .negate operand => .negate (operand.core place)
  | .arithmetic left operator right => .arithmetic (left.core place) operator (right.core place)
  | .compare left operator right => .compare (left.core place) operator (right.core place)
  | .equal left negated right => .equal (left.core place) negated (right.core place)
  | .assign target value => .assign (target.core place) (value.core place)
  | .conditional condition consequent alternate =>
    .conditional (condition.core place) (consequent.core place) (alternate.core place)
  | .range first last => .range (first.core place) (last.core place)
  | .call callee arguments => .call (callee.core place) (Expr.coreOf place arguments)
  | .member receiver key => .member (receiver.core place) (key.core place)
  | .index receiver key => .index (receiver.core place) (key.core place)
  | .switch subject cases => .switch (subject.core place) (Case.coreOf place cases)
  | .run call continuations => .run (call.core place) (Continuation.coreOf place continuations)
  | .wait awaited => .wait (awaited.core place)

def Expr.coreOf (place : Span → Span) : List Expr → List Expr
  | [] => []
  | e :: rest => e.core place :: Expr.coreOf place rest

def TemplatePart.coreOf (place : Span → Span) : List TemplatePart → List TemplatePart
  | [] => []
  | .text s :: rest => .text s :: TemplatePart.coreOf place rest
  | .slot e :: rest => .slot (e.core place) :: TemplatePart.coreOf place rest

def Property.coreOf (place : Span → Span) : List Property → List Property
  | [] => []
  | ⟨key, short, value⟩ :: rest => ⟨key, short, value.core place⟩ :: Property.coreOf place rest

def Case.coreOf (place : Span → Span) : List Case → List Case
  | [] => []
  | ⟨span, none, body⟩ :: rest => ⟨place span, none, body.core place⟩ :: Case.coreOf place rest
  | ⟨span, some test, body⟩ :: rest =>
    ⟨place span, some (test.core place), body.core place⟩ :: Case.coreOf place rest

def Continuation.coreOf (place : Span → Span) : List Continuation → List Continuation
  | [] => []
  | ⟨span, params, body⟩ :: rest =>
    ⟨place span, params.map (Ident.core place), body.core place⟩ :: Continuation.coreOf place rest

def Block.core (place : Span → Span) : Block → Block
  | ⟨_, span, body⟩ => ⟨0, place span, Stmt.coreOf place body⟩

/-- **The core of a list of statements**, in which no comments and blank lines are left. -/
def Stmt.coreOf (place : Span → Span) : List Stmt → List Stmt
  | [] => []
  | ⟨_, span, form⟩ :: rest =>
    if form.isTrivia then Stmt.coreOf place rest
    else ⟨0, place span, form.core place⟩ :: Stmt.coreOf place rest

def Stmt.core (place : Span → Span) : Stmt → Stmt
  | ⟨_, span, form⟩ => ⟨0, place span, form.core place⟩

def StmtForm.core (place : Span → Span) : StmtForm → StmtForm
  | .useModule source called picks =>
    .useModule source (called.map (Ident.core place)) (picks.map (Pick.core place))
  | .expose declaration => .expose (declaration.core place)
  | .declareTask name params body =>
    .declareTask (name.core place) (params.map (Ident.core place)) (body.core place)
  | .declareFunction name params body =>
    .declareFunction (name.core place) (params.map (Ident.core place)) (body.core place)
  | .declare name constant value => .declare (name.core place) constant (value.core place)
  | .branch condition consequent none =>
    .branch (condition.core place) (consequent.core place) none
  | .branch condition consequent (some alternate) =>
    .branch (condition.core place) (consequent.core place) (some (alternate.core place))
  | .loop key value iterated body =>
    .loop (key.core place) (value.map (Ident.core place)) (iterated.core place) (body.core place)
  | .give none => .give none
  | .give (some value) => .give (some (value.core place))
  | .expression e => .expression (e.core place)
  | .comment text => .comment text
  | .blankLine => .blankLine

def Alternate.core (place : Span → Span) : Alternate → Alternate
  | .block body => .block (body.core place)
  | .branch s => .branch (s.core place)

end

def Program.core (place : Span → Span) (p : Program) : Program :=
  ⟨0, Stmt.coreOf place p.body⟩

/-! ## What the core keeps -/

section

variable (place : Span → Span)

@[simp] theorem Ident.names_core (params : List Ident) :
    (params.map (Ident.core place)).map (·.name) = params.map (·.name) := by
  rw [List.map_map]
  rfl

@[simp] theorem Pick.name_core (p : Pick) : (p.core place).name.name = p.name.name := rfl

@[simp] theorem Pick.localName_core (p : Pick) : (p.core place).localName.name = p.localName.name := by
  obtain ⟨name, called⟩ := p
  cases called <;> rfl

@[simp] theorem Pick.isSome_called_core (p : Pick) : (p.core place).called.isSome = p.called.isSome := by
  obtain ⟨name, called⟩ := p
  cases called <;> rfl

@[simp] theorem Expr.form_core (e : Expr) : (e.core place).form = e.form.core place := by
  obtain ⟨span, form⟩ := e
  rfl

@[simp] theorem Stmt.form_core (s : Stmt) : (s.core place).form = s.form.core place := by
  obtain ⟨id, span, form⟩ := s
  rfl

@[simp] theorem Block.body_core (b : Block) : (b.core place).body = Stmt.coreOf place b.body := by
  obtain ⟨id, span, body⟩ := b
  rfl

@[simp] theorem StmtForm.isTrivia_core (form : StmtForm) : (form.core place).isTrivia = form.isTrivia := by
  cases form with
  | branch condition consequent alternate => cases alternate <;> rfl
  | give value => cases value <;> rfl
  | _ => rfl

@[simp] theorem StmtForm.declaredName?_core (form : StmtForm) :
    (form.core place).declaredName? = form.declaredName?.map (Ident.core place) := by
  cases form with
  | branch condition consequent alternate => cases alternate <;> rfl
  | give value => cases value <;> rfl
  | _ => rfl

theorem Stmt.coreOf_cons (s : Stmt) (rest : List Stmt) :
    Stmt.coreOf place (s :: rest) =
      if s.form.isTrivia then Stmt.coreOf place rest else s.core place :: Stmt.coreOf place rest := by
  obtain ⟨id, span, form⟩ := s
  rw [Stmt.coreOf]
  rfl

/-! ## Cores of lists -/

def TemplatePart.core : TemplatePart → TemplatePart
  | .text s => .text s
  | .slot e => .slot (e.core place)

def Property.core (p : Property) : Property :=
  ⟨p.key, p.short, p.value.core place⟩

def Case.core (c : Case) : Case :=
  ⟨place c.span, c.test.map (Expr.core place), c.body.core place⟩

def Continuation.core (c : Continuation) : Continuation :=
  ⟨place c.span, c.params.map (Ident.core place), c.body.core place⟩

theorem Expr.coreOf_eq (es : List Expr) : Expr.coreOf place es = es.map (Expr.core place) :=
  eq_map_of_cons rfl (fun _ _ => rfl) es

theorem TemplatePart.coreOf_eq (parts : List TemplatePart) :
    TemplatePart.coreOf place parts = parts.map (TemplatePart.core place) :=
  eq_map_of_cons rfl (fun | .text _, _ => rfl | .slot _, _ => rfl) parts

theorem Property.coreOf_eq (ps : List Property) : Property.coreOf place ps = ps.map (Property.core place) :=
  eq_map_of_cons rfl (fun ⟨_, _, _⟩ _ => rfl) ps

theorem Case.coreOf_eq (cs : List Case) : Case.coreOf place cs = cs.map (Case.core place) :=
  eq_map_of_cons rfl (fun | ⟨_, none, _⟩, _ => rfl | ⟨_, some _, _⟩, _ => rfl) cs

theorem Continuation.coreOf_eq (cs : List Continuation) :
    Continuation.coreOf place cs = cs.map (Continuation.core place) :=
  eq_map_of_cons rfl (fun ⟨_, _, _⟩ _ => rfl) cs

theorem Stmt.coreOf_eq (body : List Stmt) :
    Stmt.coreOf place body = (body.filter fun s => !s.form.isTrivia).map (Stmt.core place) := by
  induction body with
  | nil => rfl
  | cons s body ih =>
    rw [Stmt.coreOf_cons, ih, List.filter_cons]
    cases s.form.isTrivia <;> rfl

theorem Stmt.coreOf_reverse (body : List Stmt) :
    Stmt.coreOf place body.reverse = (Stmt.coreOf place body).reverse := by
  rw [Stmt.coreOf_eq, Stmt.coreOf_eq, List.filter_reverse, List.map_reverse]

theorem ExprForm.isCall_core (form : ExprForm) : (form.core place).isCall = form.isCall := by
  cases form <;> rfl

theorem ExprForm.isTarget_core (form : ExprForm) : (form.core place).isTarget = form.isTarget := by
  cases form <;> rfl

theorem StmtForm.isGive_core (form : StmtForm) : (form.core place).isGive = form.isGive := by
  cases form with
  | branch condition consequent alternate => cases alternate <;> rfl
  | give value => cases value <;> rfl
  | _ => rfl

theorem Block.endsInGive_eq (b : Block) :
    b.endsInGive = ((b.core place).body.getLast?.map fun s => s.form.isGive).getD false := by
  rw [Block.endsInGive, Block.body_core, Stmt.coreOf_eq, List.getLast?_map, ← List.head?_reverse,
    ← List.filter_reverse, List.head?_filter]
  cases b.body.reverse.find? fun s => !s.form.isTrivia with
  | none => rfl
  | some s =>
    show s.form.isGive = (s.core place).form.isGive
    rw [Stmt.form_core, StmtForm.isGive_core]

variable {place} {e e' : Expr} {s s' : Stmt} {b b' : Block}

theorem Expr.isCall_of_core (h : e'.core place = e.core place) : e'.form.isCall = e.form.isCall := by
  rw [← ExprForm.isCall_core place, ← Expr.form_core, h, Expr.form_core, ExprForm.isCall_core]

theorem Expr.isTarget_of_core (h : e'.core place = e.core place) : e'.form.isTarget = e.form.isTarget := by
  rw [← ExprForm.isTarget_core place, ← Expr.form_core, h, Expr.form_core, ExprForm.isTarget_core]

theorem Stmt.isTrivia_of_core (h : s'.core place = s.core place) : s'.form.isTrivia = s.form.isTrivia := by
  rw [← StmtForm.isTrivia_core place, ← Stmt.form_core, h, Stmt.form_core, StmtForm.isTrivia_core]

theorem Stmt.isSome_declaredName?_of_core (h : s'.core place = s.core place) :
    s'.form.declaredName?.isSome = s.form.declaredName?.isSome := by
  have hname := congrArg (fun s : Stmt => s.form.declaredName?.isSome) h
  simpa only [Stmt.form_core, StmtForm.declaredName?_core, Option.isSome_map] using hname

theorem Block.endsInGive_of_core (h : b'.core place = b.core place) : b'.endsInGive = b.endsInGive := by
  rw [Block.endsInGive_eq place, h, ← Block.endsInGive_eq]

end

/-! ## The core of a core -/

def Change.core (place : Span → Span) : Change :=
  ⟨place, Ident.core place, Expr.core place, Block.core place, Stmt.core place⟩

theorem ExprForm.core_eq (place : Span → Span) (form : ExprForm) : form.core place = form.change (.core place) := by
  cases form <;> simp only [core, change, Expr.coreOf_eq, TemplatePart.coreOf_eq, Property.coreOf_eq, Case.coreOf_eq,
    Continuation.coreOf_eq] <;> rfl

theorem StmtForm.core_eq (place : Span → Span) (form : StmtForm) : form.core place = form.change (.core place) := by
  cases form with
  | branch condition consequent alternate =>
    cases alternate with
    | none => rfl
    | some alternate => cases alternate <;> rfl
  | give value => cases value <;> rfl
  | _ => rfl

def Node.core (place : Span → Span) : Node → Node
  | .expr e => .expr (e.core place)
  | .block b => .block (b.core place)
  | .stmt s => .stmt (s.core place)

section

variable {f g : Span → Span}

@[simp] theorem Ident.core_core (i : Ident) : (i.core f).core g = i.core (g ∘ f) := rfl

@[simp] theorem Ident.core_comp_core : Ident.core g ∘ Ident.core f = Ident.core (g ∘ f) := rfl

theorem Node.core_core (n : Node) : (n.core f).core g = n.core (g ∘ f) := by
  induction n using byParts with
  | step n ih =>
    cases n with
    | expr e =>
      obtain ⟨span, form⟩ := e
      simp only [Node.core, Expr.core, ExprForm.core_eq, ExprForm.change_change]
      exact congrArg (Node.expr ⟨_, ·⟩) (ExprForm.change_congr rfl rfl fun c hc => by cases c <;> exact ih _ hc)
    | block b =>
      cases b
      simp_all [Node.core, Block.core, Node.parts, Stmt.coreOf_eq, List.filter_map, Function.comp_def]
    | stmt s =>
      obtain ⟨id, span, form⟩ := s
      simp only [Node.core, Stmt.core, StmtForm.core_eq, StmtForm.change_change]
      exact congrArg (Node.stmt ⟨_, _, ·⟩) (StmtForm.change_congr rfl fun c hc => by cases c <;> exact ih _ hc)

theorem Block.core_core (b : Block) : (b.core f).core g = b.core (g ∘ f) :=
  Node.block.inj (Node.core_core (.block b))

theorem Continuation.coreOf_coreOf (cs : List Continuation) :
    Continuation.coreOf g (Continuation.coreOf f cs) = Continuation.coreOf (g ∘ f) cs := by
  simp [Continuation.coreOf_eq, Continuation.core, Block.core_core]

end

end Trellis
