import Trellis.Script

/-!
# What holds of every expression in a script

A condition on scripts is often a condition on each expression in it, wherever it stands: no expression
waits, no number is infinite, no receiver is a negation. `every p` says that `p` holds of the forms of all
expressions in a piece of a script, those in the bodies of functions, in the cases of a switch and in the
slots of templates included. It is computed, so that a script can be tested for such a condition.

The condition is asked of an expression by `Expr.every`; `ExprForm.inside` asks it of the expressions that
a form is made of, and not of the form itself.
-/

namespace Trellis

theorem eq_map_of_cons {α β : Type} {f : α → β} {g : List α → List β} (nil : g [] = [])
    (cons : ∀ a as, g (a :: as) = f a :: g as) (as : List α) : g as = as.map f := by
  induction as with
  | nil => exact nil
  | cons a as ih => rw [cons, ih, List.map_cons]

theorem eq_flatMap_of_cons {α β : Type} {f : α → List β} {g : List α → List β} (nil : g [] = [])
    (cons : ∀ a as, g (a :: as) = f a ++ g as) (as : List α) : g as = as.flatMap f := by
  induction as with
  | nil => exact nil
  | cons a as ih => rw [cons, ih, List.flatMap_cons]

mutual

def Expr.every (p : ExprForm → Bool) : Expr → Bool
  | ⟨_, form⟩ => p form && ExprForm.inside p form

def ExprForm.inside (p : ExprForm → Bool) : ExprForm → Bool
  | .literal _ => true
  | .name _ => true
  | .template _ parts => TemplatePart.everyOf p parts
  | .array elements => Expr.everyOf p elements
  | .object properties => Property.everyOf p properties
  | .lambda _ body => Block.every p body
  | .negate operand => Expr.every p operand
  | .arithmetic left _ right => Expr.every p left && Expr.every p right
  | .compare left _ right => Expr.every p left && Expr.every p right
  | .equal left _ right => Expr.every p left && Expr.every p right
  | .assign target value => Expr.every p target && Expr.every p value
  | .conditional condition consequent alternate =>
    Expr.every p condition && Expr.every p consequent && Expr.every p alternate
  | .range first last => Expr.every p first && Expr.every p last
  | .call callee arguments => Expr.every p callee && Expr.everyOf p arguments
  | .member receiver _ => Expr.every p receiver
  | .index receiver key => Expr.every p receiver && Expr.every p key
  | .switch subject cases => Expr.every p subject && Case.everyOf p cases
  | .run call continuations => Expr.every p call && Continuation.everyOf p continuations
  | .wait awaited => Expr.every p awaited

def Expr.everyOf (p : ExprForm → Bool) : List Expr → Bool
  | [] => true
  | e :: rest => Expr.every p e && Expr.everyOf p rest

def TemplatePart.everyOf (p : ExprForm → Bool) : List TemplatePart → Bool
  | [] => true
  | .text _ :: rest => TemplatePart.everyOf p rest
  | .slot e :: rest => Expr.every p e && TemplatePart.everyOf p rest

def Property.everyOf (p : ExprForm → Bool) : List Property → Bool
  | [] => true
  | ⟨_, _, value⟩ :: rest => Expr.every p value && Property.everyOf p rest

def Case.everyOf (p : ExprForm → Bool) : List Case → Bool
  | [] => true
  | ⟨_, none, body⟩ :: rest => Block.every p body && Case.everyOf p rest
  | ⟨_, some test, body⟩ :: rest =>
    Expr.every p test && Block.every p body && Case.everyOf p rest

def Continuation.everyOf (p : ExprForm → Bool) : List Continuation → Bool
  | [] => true
  | ⟨_, _, body⟩ :: rest => Block.every p body && Continuation.everyOf p rest

def Block.every (p : ExprForm → Bool) : Block → Bool
  | ⟨_, _, body⟩ => Stmt.everyOf p body

def Stmt.everyOf (p : ExprForm → Bool) : List Stmt → Bool
  | [] => true
  | s :: rest => Stmt.every p s && Stmt.everyOf p rest

def Stmt.every (p : ExprForm → Bool) : Stmt → Bool
  | ⟨_, _, form⟩ => StmtForm.every p form

def StmtForm.every (p : ExprForm → Bool) : StmtForm → Bool
  | .useModule _ _ _ => true
  | .expose declaration => Stmt.every p declaration
  | .declareTask _ _ body => Block.every p body
  | .declareFunction _ _ body => Block.every p body
  | .declare _ _ value => Expr.every p value
  | .branch condition consequent none => Expr.every p condition && Block.every p consequent
  | .branch condition consequent (some alternate) =>
    Expr.every p condition && Block.every p consequent && Alternate.every p alternate
  | .loop _ _ iterated body => Expr.every p iterated && Block.every p body
  | .give none => true
  | .give (some value) => Expr.every p value
  | .expression e => Expr.every p e
  | .comment _ => true
  | .blankLine => true

/-- Does a condition hold of every expression in what is done when a condition does not hold? -/
def Alternate.every (p : ExprForm → Bool) : Alternate → Bool
  | .block b => Block.every p b
  | .branch s => Stmt.every p s

end

def Program.every (p : ExprForm → Bool) (program : Program) : Bool :=
  Stmt.everyOf p program.body

section

variable (p : ExprForm → Bool)

@[simp] theorem Expr.every_eq (e : Expr) : e.every p = (p e.form && e.form.inside p) := by
  cases e
  rfl

@[simp] theorem Block.every_eq (b : Block) : b.every p = Stmt.everyOf p b.body := by
  cases b
  rfl

@[simp] theorem Stmt.every_eq (s : Stmt) : s.every p = s.form.every p := by
  cases s
  rfl

end

end Trellis
