import Mathlib.Data.List.Forall2
import Mathlib.Data.Option.Defs
import Trellis.Proofs.Grammar.WellFormed
import Trellis.Proofs.Script.Change

/-!
# Trees of a kind

Two readings are compared by the trees that they make. What the trees have to have in common differs from one
comparison to the next, but all comparisons go node by node. So a *kin* (`Kin`) says when names, identities,
expressions, blocks and statements of two readings are of a kind, and two forms are *akin* if they are the same form
with parts that are of a kind. A *kinship* (`Kinship`) is a kin in which nodes are of a kind as soon as their forms
are akin.

A kinship may also say something of one tree alone, if it takes a tree to be of a kind with itself only. For this
purpose a form that is akin to another one has only parts that it can have.
-/

namespace Trellis

structure Kin where
  /-- What is known of the tokens of the first reading. -/
  token : Token → Prop
  span : Span → Span → Prop
  ident : Ident → Ident → Prop
  id : NodeId → NodeId → Prop
  expr : Expr → Expr → Prop
  block : Block → Block → Prop
  stmt : Stmt → Stmt → Prop

/-- Two parts of a template are akin. -/
inductive TemplatePart.Akin (K : Kin) : TemplatePart → TemplatePart → Prop
  | text (s : String) : Akin K (.text s) (.text s)
  | slot {e e'} (h : K.expr e e') : Akin K (.slot e) (.slot e')

/-- Two properties are akin. One in short form is the name of its value. -/
inductive Property.Akin (K : Kin) : Property → Property → Prop
  | mk {key short e e'} (h : K.expr e e')
      (named : short = true → e.form = .name key) : Akin K ⟨key, short, e⟩ ⟨key, short, e'⟩

/-- Two cases of switches are akin. -/
inductive Case.Akin (K : Kin) : Case → Case → Prop
  | mk {span span' e e' b b'} (hspan : K.span span span')
      (he : Option.Rel K.expr e e') (hb : K.block b b') : Akin K ⟨span, e, b⟩ ⟨span', e', b'⟩

/-- Two continuations are akin. -/
inductive Continuation.Akin (K : Kin) : Continuation → Continuation → Prop
  | mk {span span' ps ps' b b'} (hspan : K.span span span')
      (hps : List.Forall₂ K.ident ps ps') (hb : K.block b b') : Akin K ⟨span, ps, b⟩ ⟨span', ps', b'⟩

/-- Two picked names are akin. -/
inductive Pick.Akin (K : Kin) : Pick → Pick → Prop
  | mk {i i' j j'} (hi : K.ident i i') (hj : Option.Rel K.ident j j') :
      Akin K ⟨i, j⟩ ⟨i', j'⟩

/-- Two alternates are akin. -/
inductive Alternate.Akin (K : Kin) : Alternate → Alternate → Prop
  | block {b b'} (h : K.block b b') : Akin K (.block b) (.block b')
  | branch {s s'} (h : K.stmt s s') (isBranch : s.form.isBranch = true) : Akin K (.branch s) (.branch s')

inductive ExprForm.Akin (K : Kin) (span span' : Span) : ExprForm → ExprForm → Prop
  | literal (value : Literal) : Akin K span span' (.literal value) (.literal value)
  | name {word} (h : K.ident ⟨word, span⟩ ⟨word, span'⟩) : Akin K span span' (.name word) (.name word)
  | template {raw ps ps'} (isTemplate : Template.isTemplate raw = true)
      (h : List.Forall₂ (TemplatePart.Akin K) ps ps') : Akin K span span' (.template raw ps) (.template raw ps')
  | array {es es'} (h : List.Forall₂ K.expr es es') : Akin K span span' (.array es) (.array es')
  | object {ps ps'} (h : List.Forall₂ (Property.Akin K) ps ps') :
      Akin K span span' (.object ps) (.object ps')
  | lambda {ps ps' b b'} (hps : List.Forall₂ K.ident ps ps') (hb : K.block b b') :
      Akin K span span' (.lambda ps b) (.lambda ps' b')
  | negate {e e'} (h : K.expr e e') : Akin K span span' (.negate e) (.negate e')
  | arithmetic {a a' b b'} (operator : Arithmetic) (ha : K.expr a a') (hb : K.expr b b') :
      Akin K span span' (.arithmetic a operator b) (.arithmetic a' operator b')
  | compare {a a' b b'} (operator : Comparison) (ha : K.expr a a') (hb : K.expr b b') :
      Akin K span span' (.compare a operator b) (.compare a' operator b')
  | equal {a a' b b'} (negated : Bool) (ha : K.expr a a') (hb : K.expr b b') :
      Akin K span span' (.equal a negated b) (.equal a' negated b')
  | assign {a a' b b'} (isTarget : a.form.isTarget = true) (ha : K.expr a a') (hb : K.expr b b') :
      Akin K span span' (.assign a b) (.assign a' b')
  | conditional {a a' b b' c c'} (ha : K.expr a a') (hb : K.expr b b') (hc : K.expr c c') :
      Akin K span span' (.conditional a b c) (.conditional a' b' c')
  | range {a a' b b'} (ha : K.expr a a') (hb : K.expr b b') : Akin K span span' (.range a b) (.range a' b')
  | call {e e' es es'} (he : K.expr e e') (hes : List.Forall₂ K.expr es es') :
      Akin K span span' (.call e es) (.call e' es')
  | member {e e' i i'} (he : K.expr e e') (hi : K.ident i i') :
      Akin K span span' (.member e i) (.member e' i')
  | index {a a' b b'} (ha : K.expr a a') (hb : K.expr b b') : Akin K span span' (.index a b) (.index a' b')
  | switch {e e' cs cs'} (he : K.expr e e') (hcs : List.Forall₂ (Case.Akin K) cs cs') :
      Akin K span span' (.switch e cs) (.switch e' cs')
  | run {e e' cs cs'} (isCall : e.form.isCall = true) (he : K.expr e e')
      (hcs : List.Forall₂ (Continuation.Akin K) cs cs') : Akin K span span' (.run e cs) (.run e' cs')
  | wait {e e'} (h : K.expr e e') : Akin K span span' (.wait e) (.wait e')

/-- **Two forms of statements are akin.** Those that are read from a front alone, and what is exposed, are left
out. -/
inductive StmtForm.Akin (K : Kin) : StmtForm → StmtForm → Prop
  | useModule (source : String) {i i' ps ps'} (hi : Option.Rel K.ident i i')
      (hps : List.Forall₂ (Pick.Akin K) ps ps') : Akin K (.useModule source i ps) (.useModule source i' ps')
  | declareTask {i i' ps ps' b b'} (hi : K.ident i i')
      (hps : List.Forall₂ K.ident ps ps') (hb : K.block b b') : Akin K (.declareTask i ps b) (.declareTask i' ps' b')
  | declareFunction {i i' ps ps' b b'} (hi : K.ident i i')
      (hps : List.Forall₂ K.ident ps ps') (hb : K.block b b') :
      Akin K (.declareFunction i ps b) (.declareFunction i' ps' b')
  | declare {i i'} (constant : Bool) {e e'} (hi : K.ident i i') (he : K.expr e e') :
      Akin K (.declare i constant e) (.declare i' constant e')
  | branch {e e' b b' a a'} (he : K.expr e e') (hb : K.block b b')
      (ha : Option.Rel (Alternate.Akin K) a a') : Akin K (.branch e b a) (.branch e' b' a')
  | loop {i i' j j' e e' b b'} (hi : K.ident i i')
      (hj : Option.Rel K.ident j j') (he : K.expr e e') (hb : K.block b b') :
      Akin K (.loop i j e b) (.loop i' j' e' b')
  | give {e e'} (h : Option.Rel K.expr e e') : Akin K (.give e) (.give e')
  | expression {e e'} (h : K.expr e e') : Akin K (.expression e) (.expression e')

/-- **A kin in which forms that are akin make nodes of a kind.** Nodes of a kind are alike as far as the grammar
looks at them. -/
structure Kinship extends Kin where
  word : ∀ {t : Token} {span' : Span}, token t → span t.span span' → t.terminal = .name ∨ t.kind.isKeyword = true →
    ident ⟨t.lexeme, t.span⟩ ⟨t.lexeme, span'⟩
  ofForm : ∀ {s s' : Span} {form form' : ExprForm}, span s s' → form.Akin toKin s s' form' →
    expr ⟨s, form⟩ ⟨s', form'⟩
  ofStmt : ∀ {i i' : NodeId} {s s' : Span} {form form' : StmtForm}, id i i' → span s s' →
    form.Akin toKin form' → stmt ⟨i, s, form⟩ ⟨i', s', form'⟩
  expr_span : ∀ {e e' : Expr}, expr e e' → span e.span e'.span
  isCall : ∀ {e e' : Expr}, expr e e' → e'.form.isCall = e.form.isCall
  isTarget : ∀ {e e' : Expr}, expr e e' → e'.form.isTarget = e.form.isTarget
  endsInGive : ∀ {b b' : Block}, block b b' → b'.endsInGive = b.endsInGive

/-! ## Lists and options -/

section

variable {α β : Type} {R : α → α → Prop} {f g : α → β} (hR : ∀ {a a' : α}, R a a' → g a' = f a)

include hR

theorem map_eq_of_forall₂ {as as' : List α} (h : List.Forall₂ R as as') : as'.map g = as.map f := by
  induction h with
  | nil => rfl
  | cons ha _ ih => rw [List.map_cons, List.map_cons, hR ha, ih]

theorem map_eq_of_rel {a a' : Option α} (h : Option.Rel R a a') : a'.map g = a.map f := by
  cases h with
  | none => rfl
  | some ha => rw [Option.map_some, Option.map_some, hR ha]

end

/-! ## Changes that meet -/

theorem eq_of_forall₂ {α : Type} {R : α → α → Prop} (hR : ∀ {a a' : α}, R a a' → a = a') {as as' : List α}
    (h : List.Forall₂ R as as') : as = as' := by
  have hmap := map_eq_of_forall₂ (f := id) (g := id) (fun h => (hR h).symm) h
  rwa [List.map_id, List.map_id, eq_comm] at hmap

/-- **Two changes meet in a kin**: what is of a kind is the same when it is changed. -/
structure Kin.Meets (K : Kin) (r r' : Change) : Prop where
  span : ∀ {s s' : Span}, K.span s s' → r'.span s' = r.span s
  ident : ∀ {i i' : Ident}, K.ident i i' → r'.ident i' = r.ident i
  expr : ∀ {e e' : Expr}, K.expr e e' → r'.expr e' = r.expr e
  block : ∀ {b b' : Block}, K.block b b' → r'.block b' = r.block b
  stmt : ∀ {s s' : Stmt}, K.stmt s s' → r'.stmt s' = r.stmt s

namespace Kin.Meets

variable {K : Kin} {r r' : Change} (h : K.Meets r r')

include h

theorem idents {ps ps' : List Ident} (hps : List.Forall₂ K.ident ps ps') : ps'.map r'.ident = ps.map r.ident :=
  map_eq_of_forall₂ (fun hi => h.ident hi) hps

theorem ident? {i i' : Option Ident} (hi : Option.Rel K.ident i i') : i'.map r'.ident = i.map r.ident :=
  map_eq_of_rel (fun hi => h.ident hi) hi

theorem exprs {es es' : List Expr} (hes : List.Forall₂ K.expr es es') : es'.map r'.expr = es.map r.expr :=
  map_eq_of_forall₂ (fun he => h.expr he) hes

theorem expr? {e e' : Option Expr} (he : Option.Rel K.expr e e') : e'.map r'.expr = e.map r.expr :=
  map_eq_of_rel (fun he => h.expr he) he

theorem part {p p' : TemplatePart} (hp : p.Akin K p') : p'.change r' = p.change r := by
  cases hp with
  | text s => rfl
  | slot he => rw [TemplatePart.change, TemplatePart.change, h.expr he]

theorem property {p p' : Property} (hp : p.Akin K p') : p'.change r' = p.change r := by
  obtain ⟨he, -⟩ := hp
  rw [Property.change, Property.change, h.expr he]

theorem case {c c' : Case} (hc : c.Akin K c') : c'.change r' = c.change r := by
  obtain ⟨hspan, he, hb⟩ := hc
  rw [Case.change, Case.change, h.span hspan, h.expr? he, h.block hb]

theorem continuation {c c' : Continuation} (hc : c.Akin K c') : c'.change r' = c.change r := by
  obtain ⟨hspan, hps, hb⟩ := hc
  rw [Continuation.change, Continuation.change, h.span hspan, h.idents hps, h.block hb]

theorem pick {p p' : Pick} (hp : p.Akin K p') : p'.change r' = p.change r := by
  obtain ⟨hi, hj⟩ := hp
  rw [Pick.change, Pick.change, h.ident hi, h.ident? hj]

theorem alternate {a a' : Alternate} (ha : a.Akin K a') : a'.change r' = a.change r := by
  cases ha with
  | block hb => rw [Alternate.change, Alternate.change, h.block hb]
  | branch hs _ => rw [Alternate.change, Alternate.change, h.stmt hs]

theorem form {s s' : Span} {form form' : ExprForm} (hform : form.Akin K s s' form') :
    form'.change r' = form.change r := by
  cases hform <;> simp only [ExprForm.change]
  case template hps => rw [map_eq_of_forall₂ (fun hp => h.part hp) hps]
  case array hes => rw [h.exprs hes]
  case object hps => rw [map_eq_of_forall₂ (fun hp => h.property hp) hps]
  case lambda hps hb => rw [h.idents hps, h.block hb]
  case conditional ha hb hc => rw [h.expr ha, h.expr hb, h.expr hc]
  case call he hes => rw [h.expr he, h.exprs hes]
  case member he hi => rw [h.expr he, h.ident hi]
  case switch he hcs => rw [h.expr he, map_eq_of_forall₂ (fun hp => h.case hp) hcs]
  case run he hcs => rw [h.expr he, map_eq_of_forall₂ (fun hp => h.continuation hp) hcs]
  case negate he => rw [h.expr he]
  case wait he => rw [h.expr he]
  all_goals rename_i ha hb; rw [h.expr ha, h.expr hb]

theorem stmtForm {form form' : StmtForm} (hform : form.Akin K form') : form'.change r' = form.change r := by
  cases hform <;> simp only [StmtForm.change]
  case useModule hi hps => rw [h.ident? hi, map_eq_of_forall₂ (fun hp => h.pick hp) hps]
  case declare hi he => rw [h.ident hi, h.expr he]
  case branch he hb ha => rw [h.expr he, h.block hb, map_eq_of_rel (fun ha => h.alternate ha) ha]
  case loop hi hj he hb => rw [h.ident hi, h.ident? hj, h.expr he, h.block hb]
  case give he => rw [h.expr? he]
  case expression he => rw [h.expr he]
  all_goals rename_i hi hps hb; rw [h.ident hi, h.idents hps, h.block hb]

end Kin.Meets

abbrev Kin.IsSame (K : Kin) : Prop :=
  K.Meets .keep .keep

theorem Kin.IsSame.form_eq {K : Kin} (h : K.IsSame) {s s' : Span} {form form' : ExprForm}
    (hform : form.Akin K s s' form') : form = form' := by
  rw [← form.change_keep, ← h.form hform, form'.change_keep]

theorem Kin.IsSame.stmtForm_eq {K : Kin} (h : K.IsSame) {form form' : StmtForm} (hform : form.Akin K form') :
    form = form' := by
  rw [← form.change_keep, ← h.stmtForm hform, form'.change_keep]

def Kin.same (T : Token → Prop) : Kin :=
  ⟨T, Eq, Eq, Eq, Eq, Eq, Eq⟩

theorem Kin.isSame_same (T : Token → Prop) : (Kin.same T).IsSame :=
  ⟨Eq.symm, Eq.symm, Eq.symm, Eq.symm, Eq.symm⟩

def Kinship.same (T : Token → Prop) : Kinship where
  toKin := .same T
  word _ h _ := h ▸ rfl
  ofForm hspan h := congr (congrArg Expr.mk hspan) ((Kin.isSame_same T).form_eq h)
  ofStmt hid hspan h := congr (congr (congrArg Stmt.mk hid) hspan) ((Kin.isSame_same T).stmtForm_eq h)
  expr_span h := h ▸ rfl
  isCall h := h ▸ rfl
  isTarget h := h ▸ rfl
  endsInGive h := h ▸ rfl

end Trellis
