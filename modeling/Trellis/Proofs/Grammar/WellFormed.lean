import Trellis.Proofs.Grammar.Productions
import Trellis.Proofs.Layout.Lead

/-!
# Well-formed trees

The type of trees has room for scripts that the grammar never makes. A tree is *well-formed* in a dialect when it is
as the grammar makes them. Names are words that are no keywords, texts can be put between quotes, what is assigned to
can be assigned to, and what is run is a call.

A statement has to end where the next one starts: an expression, for one, goes on with a parenthesis, so no statement
that starts with one may follow it (`StmtForm.allows`). And blank lines are never doubled. Of a template, which is
written as the text it was, it is asked that reading the text gives its parts.
-/

namespace Trellis

def IsName (keywords : KeywordTable) (word : String) : Prop :=
  Layout.isBareKey word = true ∧ keywords.find? word = none

/-- A template and the parts that reading its text gives. -/
structure Template.WellFormed (d : Dialect) (raw : String) (parts : List TemplatePart) : Prop where
  isTemplate : Template.isTemplate raw = true
  quotable : IsQuotable raw.toList
  reads : ∃ segments, Template.split raw = .ok segments ∧
    ∀ depth, raw.length < depth → ∀ span ts,
      Gives d (Parse.templateParts (Rules.ofDepth depth) span segments) ts
        (TemplatePart.bareOf · = TemplatePart.bareOf parts) ts

def Literal.WellFormed : Literal → Prop
  | .text s => IsQuotable s.toList ∧ Template.isTemplate s = false
  | _ => True

def Pick.WellFormed (keywords : KeywordTable) (p : Pick) : Prop :=
  IsName keywords p.name.name ∧ ∀ i ∈ p.called, IsName keywords i.name

/-! ## Statements next to each other -/

mutual

def Stmt.allows (t : Terminal) : Stmt → Bool
  | ⟨_, _, form⟩ => form.allows t

/-- **May a statement of this form be followed by a token that a statement starts with?** One that ends in
an expression must not be followed by what goes on with it. -/
def StmtForm.allows (t : Terminal) : StmtForm → Bool
  | .useModule _ _ _ => t != .keyword .asKw && t != .keyword .pickKw
  | .expose declaration => declaration.allows t
  | .declare _ _ _ => t.bond == 0
  | .give none => !Parse.startsExpression t
  | .give (some _) => t.bond == 0
  | .expression _ => t.bond == 0
  | _ => true

end

def Stmt.startsBlank : List Stmt → Bool
  | [] => false
  | s :: _ => s.form.isBlankLine

def StmtForm.isBranch : StmtForm → Bool
  | .branch _ _ _ => true
  | _ => false

/-! ## Trees -/

mutual

def Expr.WellFormed (d : Dialect) : Expr → Prop
  | ⟨_, form⟩ => form.WellFormed d

def ExprForm.WellFormed (d : Dialect) : ExprForm → Prop
  | .literal value => value.WellFormed
  | .name name => IsName d.keywords name
  | .template raw parts => Template.WellFormed d raw parts
  | .array elements => Expr.WellFormedOf d elements
  | .object properties => Property.WellFormedOf d properties
  | .lambda params body => (∀ i ∈ params, IsName d.keywords i.name) ∧ body.WellFormed d
  | .negate operand => operand.WellFormed d
  | .arithmetic left _ right => left.WellFormed d ∧ right.WellFormed d
  | .compare left _ right => left.WellFormed d ∧ right.WellFormed d
  | .equal left _ right => left.WellFormed d ∧ right.WellFormed d
  | .assign target value =>
    target.form.isTarget = true ∧ target.WellFormed d ∧ value.WellFormed d
  | .conditional condition consequent alternate =>
    condition.WellFormed d ∧ consequent.WellFormed d ∧ alternate.WellFormed d
  | .range first last => first.WellFormed d ∧ last.WellFormed d
  | .call callee arguments => callee.WellFormed d ∧ Expr.WellFormedOf d arguments
  | .member receiver key => receiver.WellFormed d ∧ Layout.isBareKey key.name = true
  | .index receiver key => receiver.WellFormed d ∧ key.WellFormed d
  | .switch subject cases => subject.WellFormed d ∧ Case.WellFormedOf d cases
  | .run call continuations =>
    call.form.isCall = true ∧ call.WellFormed d ∧ Continuation.WellFormedOf d continuations
  | .wait awaited => awaited.WellFormed d

def Expr.WellFormedOf (d : Dialect) : List Expr → Prop
  | [] => True
  | e :: rest => e.WellFormed d ∧ Expr.WellFormedOf d rest

/-- Properties as the grammar makes them. A short one is the name of its value, and a key that is no word
can be put between quotes. -/
def Property.WellFormedOf (d : Dialect) : List Property → Prop
  | [] => True
  | ⟨key, short, value⟩ :: rest =>
    (if short then IsName d.keywords key ∧ value.form = .name key
      else (Layout.isBareKey key = true ∨ IsQuotable key.toList) ∧ value.WellFormed d) ∧
      Property.WellFormedOf d rest

def Case.WellFormedOf (d : Dialect) : List Case → Prop
  | [] => True
  | ⟨_, none, body⟩ :: rest => body.WellFormed d ∧ Case.WellFormedOf d rest
  | ⟨_, some test, body⟩ :: rest =>
    test.WellFormed d ∧ body.WellFormed d ∧ Case.WellFormedOf d rest

def Continuation.WellFormedOf (d : Dialect) : List Continuation → Prop
  | [] => True
  | ⟨_, params, body⟩ :: rest =>
    (∀ i ∈ params, IsName d.keywords i.name) ∧ body.WellFormed d ∧ Continuation.WellFormedOf d rest

def Block.WellFormed (d : Dialect) : Block → Prop
  | ⟨_, _, body⟩ => Stmt.WellFormedOf d body

def Stmt.WellFormedOf (d : Dialect) : List Stmt → Prop
  | [] => True
  | s :: rest =>
    s.WellFormed d ∧ s.allows (Stmt.leadOf rest) = true ∧
      (s.form.isBlankLine = true → Stmt.startsBlank rest = false) ∧ Stmt.WellFormedOf d rest

def Stmt.WellFormed (d : Dialect) : Stmt → Prop
  | ⟨_, _, form⟩ => form.WellFormed d

def StmtForm.WellFormed (d : Dialect) : StmtForm → Prop
  | .useModule source called picks =>
    IsQuotable source.toList ∧ (∀ i ∈ called, IsName d.keywords i.name) ∧
      ∀ p ∈ picks, p.WellFormed d.keywords
  | .expose declaration =>
    declaration.form.declaredName?.isSome = true ∧ declaration.WellFormed d
  | .declareTask name params body =>
    IsName d.keywords name.name ∧ (∀ i ∈ params, IsName d.keywords i.name) ∧ body.WellFormed d
  | .declareFunction name params body =>
    IsName d.keywords name.name ∧ (∀ i ∈ params, IsName d.keywords i.name) ∧ body.WellFormed d
  | .declare name _ value => IsName d.keywords name.name ∧ value.WellFormed d
  | .branch condition consequent none => condition.WellFormed d ∧ consequent.WellFormed d
  | .branch condition consequent (some alternate) =>
    condition.WellFormed d ∧ consequent.WellFormed d ∧ alternate.WellFormed d
  | .loop key value iterated body =>
    IsName d.keywords key.name ∧ (∀ i ∈ value, IsName d.keywords i.name) ∧
      iterated.WellFormed d ∧ body.WellFormed d
  | .give none => True
  | .give (some value) => value.WellFormed d
  | .expression e => e.WellFormed d
  | .comment text => IsComment text.toList
  | .blankLine => True

def Alternate.WellFormed (d : Dialect) : Alternate → Prop
  | .block b => b.WellFormed d
  | .branch s => s.form.isBranch = true ∧ s.WellFormed d

end

/-- **A program as the grammar makes them.** It does not start with a blank line. -/
def Program.WellFormed (d : Dialect) (p : Program) : Prop :=
  Stmt.startsBlank p.body = false ∧ Stmt.WellFormedOf d p.body

section

variable {d : Dialect}

theorem Block.wellFormed_iff {b : Block} : b.WellFormed d ↔ Stmt.WellFormedOf d b.body := by
  cases b
  rfl

theorem Stmt.allows_eq (t : Terminal) (s : Stmt) : s.allows t = s.form.allows t := by
  cases s
  rfl

theorem Expr.wellFormedOf_iff {es : List Expr} : Expr.WellFormedOf d es ↔ ∀ e ∈ es, e.WellFormed d := by
  induction es with
  | nil => simp [Expr.WellFormedOf]
  | cons e rest ih => rw [Expr.WellFormedOf, ih, List.forall_mem_cons]

theorem Property.wellFormedOf_iff {ps : List Property} :
    Property.WellFormedOf d ps ↔ ∀ p ∈ ps, Property.WellFormedOf d [p] := by
  induction ps with
  | nil => simp [Property.WellFormedOf]
  | cons p rest ih =>
    obtain ⟨key, short, value⟩ := p
    rw [List.forall_mem_cons, ← ih]
    simp [Property.WellFormedOf]

theorem Continuation.wellFormedOf_iff {cs : List Continuation} :
    Continuation.WellFormedOf d cs ↔ ∀ c ∈ cs, Continuation.WellFormedOf d [c] := by
  induction cs with
  | nil => simp [Continuation.WellFormedOf]
  | cons c rest ih =>
    obtain ⟨span, params, body⟩ := c
    rw [List.forall_mem_cons, ← ih]
    simp [Continuation.WellFormedOf, and_assoc]

theorem Case.wellFormedOf_iff {cs : List Case} : Case.WellFormedOf d cs ↔ ∀ c ∈ cs, Case.WellFormedOf d [c] := by
  induction cs with
  | nil => simp [Case.WellFormedOf]
  | cons c rest ih =>
    obtain ⟨span, test, body⟩ := c
    rw [List.forall_mem_cons, ← ih]
    cases test <;> simp [Case.WellFormedOf, and_assoc]

end

/-! ## What is laid out -/

def Node.WellFormed (d : Dialect) : Node → Prop
  | .expr e => e.WellFormed d
  | .block b => b.WellFormed d
  | .stmt s => s.WellFormed d

/-- **What is laid out in a form of expression**: its parts, but for those in the slots of a template, which is laid
out as it was written. -/
def ExprForm.laid : ExprForm → List Node
  | .template _ _ => []
  | form => form.parts

def Node.laid : Node → List Node
  | .expr e => e.form.laid
  | n => n.parts

section

variable {d : Dialect}

theorem Node.mem_parts_of_laid {n c : Node} (h : c ∈ n.laid) : c ∈ n.parts := by
  cases n with
  | expr e =>
    obtain ⟨span, form⟩ := e
    cases form <;> first | exact h | cases h
  | _ => exact h

theorem ExprForm.WellFormed.laid {form : ExprForm} (h : form.WellFormed d) : ∀ c ∈ form.laid, c.WellFormed d := by
  cases form with
  | literal _ => exact nofun
  | name _ => exact nofun
  | template _ _ => exact nofun
  | array elements => exact List.forall_mem_map.mpr (Expr.wellFormedOf_iff.mp h)
  | call callee arguments =>
    exact List.forall_mem_cons.mpr ⟨h.1, List.forall_mem_map.mpr (Expr.wellFormedOf_iff.mp h.2)⟩
  | object properties =>
    refine List.forall_mem_map.mpr fun p hp => ?_
    have own := Property.wellFormedOf_iff.mp h p hp
    obtain ⟨key, short, ⟨span, form⟩⟩ := p
    cases short with
    | true =>
      obtain ⟨⟨isName, rfl⟩, -⟩ := own
      exact isName
    | false => exact own.1.2
  | switch subject cases =>
    refine List.forall_mem_cons.mpr ⟨h.1, List.forall_mem_flatMap.mpr fun k hk => ?_⟩
    have own := Case.wellFormedOf_iff.mp h.2 k hk
    obtain ⟨span, test, body⟩ := k
    cases test <;> simp_all [Case.WellFormedOf, Case.parts, Node.WellFormed]
  | run started continuations =>
    refine List.forall_mem_cons.mpr ⟨h.2.1, List.forall_mem_map.mpr fun k hk => ?_⟩
    have own := Continuation.wellFormedOf_iff.mp h.2.2 k hk
    cases k
    exact own.2.1
  | _ => simp_all [ExprForm.WellFormed, ExprForm.laid, ExprForm.parts, Node.WellFormed]

theorem StmtForm.WellFormed.parts {form : StmtForm} (h : form.WellFormed d) : ∀ c ∈ form.parts, c.WellFormed d := by
  cases form with
  | branch condition consequent alternate =>
    cases alternate with
    | none => simp_all [StmtForm.WellFormed, StmtForm.parts, Node.WellFormed]
    | some alternate =>
      cases alternate <;>
        simp_all [StmtForm.WellFormed, StmtForm.parts, Alternate.WellFormed, Alternate.parts, Node.WellFormed]
  | give value => cases value <;> simp_all [StmtForm.WellFormed, StmtForm.parts, Node.WellFormed]
  | _ => simp_all [StmtForm.WellFormed, StmtForm.parts, Node.WellFormed]

theorem Node.WellFormed.laid {n : Node} (h : n.WellFormed d) : ∀ c ∈ n.laid, c.WellFormed d := by
  cases n with
  | expr e => cases e; exact ExprForm.WellFormed.laid h
  | block b =>
    refine List.forall_mem_map.mpr ?_
    replace h := Block.wellFormed_iff.mp h
    generalize b.body = body at h
    induction body with
    | nil => exact nofun
    | cons s rest ih => exact List.forall_mem_cons.mpr ⟨h.1, ih h.2.2.2⟩
  | stmt s => cases s; exact StmtForm.WellFormed.parts h

/-- **What holds of a well-formed node whenever it holds of what is laid out in it holds of all of them.** A condition
on the expressions may be asked for in addition. -/
theorem Node.byLaid {p : ExprForm → Bool} {P : Node → Prop}
    (step : ∀ n : Node, n.WellFormed d → n.every p = true → (∀ c ∈ n.laid, P c) → P n) (n : Node) :
    n.WellFormed d → n.every p = true → P n := by
  induction n using byParts with
  | step n ih =>
    intro wf every
    refine step n wf every fun c hc => ih c (mem_parts_of_laid hc) (wf.laid c hc) (every_iff.mpr fun e he => ?_)
    exact every_iff.mp every e (mem_all_trans c he (mem_all_of_part (mem_parts_of_laid hc)))

theorem Program.WellFormed.body {p : ExprForm → Bool} {P : Node → Prop} {program : Program}
    (known : ∀ n : Node, n.WellFormed d → n.every p = true → P n) (wf : program.WellFormed d)
    (every : program.every p = true) : ∀ s ∈ program.body, P (.stmt s) := by
  rw [Program.every, Node.everyOf_statements, List.all_eq_true] at every
  exact fun s hs => known _ (Node.WellFormed.laid (n := .block ⟨0, {}, program.body⟩) wf.2 _ (List.mem_map_of_mem hs))
    (every _ (List.mem_map_of_mem hs))

end

end Trellis
