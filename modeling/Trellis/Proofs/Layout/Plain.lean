import Trellis.Number.Reading
import Trellis.Proofs.Layout.Lead
import Trellis.Proofs.Script.Nodes

/-!
# Trees that a layout does not change

The layout of a tree leaves out parentheses that it should have written in two places. A negation, a wait or a run in
front of a member, an index or arguments would need them, since what stands behind an operand belongs to the operand.
And a run without continuations must not end the body of a continuation that is not the last one, since it would take
the next one for its own. Besides, the text of a number that is not finite does not read as that number.

`ExprForm.isPlain` excludes the three for one form; a whole tree is plain if all forms in it are.
-/

namespace Trellis

namespace Number

def isDecimal (text : List Char) : Bool :=
  !(text.takeWhile Char.isDigit).isEmpty &&
    match text.dropWhile Char.isDigit with
    | [] => true
    | c :: places => c == '.' && !places.isEmpty && places.all Char.isDigit

def rereads (x : Float) : Bool :=
  isDecimal (text "inf" x).toList && decide (read? (text "inf" x) = some x)

end Number

def ExprForm.isPrefix : ExprForm → Bool
  | .negate _ => true
  | .run _ _ => true
  | .wait _ => true
  | _ => false

def ExprForm.isRun : ExprForm → Bool
  | .run _ _ => true
  | _ => false

/-! ## Ending in a run -/

mutual

def Expr.endsInRun : Expr → Bool
  | ⟨_, form⟩ => form.endsInRun

/-- **Does the layout of a form of expression end in a run without continuations?** -/
def ExprForm.endsInRun : ExprForm → Bool
  | .negate operand => operand.operandEndsInRun 6
  | .arithmetic _ _ right => right.operandEndsInRun 4
  | .compare _ _ right => right.operandEndsInRun 2
  | .equal _ _ right => right.operandEndsInRun 3
  | .assign _ value => value.endsInRun
  | .conditional _ _ alternate => alternate.endsInRun
  | .range _ last => last.operandEndsInRun 6
  | .run _ continuations => continuations.isEmpty
  | .wait awaited => awaited.operandEndsInRun 6
  | _ => false

/-- Does an expression end in a run without continuations where at least the given strength is asked
for? -/
def Expr.operandEndsInRun (least : Nat) : Expr → Bool
  | ⟨_, form⟩ => !(Layout.strength form < least) && form.endsInRun

end

mutual

def Stmt.endsInRun : Stmt → Bool
  | ⟨_, _, form⟩ => form.endsInRun

def StmtForm.endsInRun : StmtForm → Bool
  | .expose declaration => declaration.endsInRun
  | .declare _ _ value => value.endsInRun
  | .give (some value) => value.endsInRun
  | .expression e => e.endsInRun
  | _ => false

end

/-- Does the last statement, comments and blank lines aside, end in a run without continuations? -/
def Stmt.endsInRunOf : List Stmt → Bool
  | [] => false
  | s :: rest => (rest.all (·.form.isTrivia) && s.endsInRun) || Stmt.endsInRunOf rest

def Block.endsInRun (b : Block) : Bool :=
  Stmt.endsInRunOf b.body

def Continuation.runsApart : List Continuation → Bool
  | [] => true
  | [_] => true
  | c :: next :: rest => !c.body.endsInRun && Continuation.runsApart (next :: rest)

/-- **Is a form one that its layout does not change?** The expressions in it are left aside. -/
def ExprForm.isPlain : ExprForm → Bool
  | .literal (.number x) => Number.rereads x
  | .call callee _ => !callee.form.isPrefix
  | .member receiver _ => !receiver.form.isPrefix
  | .index receiver _ => !receiver.form.isPrefix
  | .run _ continuations => Continuation.runsApart continuations
  | _ => true

/-! ## Conditions for a plain tree

Three conditions on forms that are easier to tell than plainness, and that together imply it. -/

def ExprForm.numberRereads : ExprForm → Bool
  | .literal (.number x) => Number.rereads x
  | _ => true

/-- Is what arguments, a member or an index belong to no negation, no wait and no run? -/
def ExprForm.receiverStands : ExprForm → Bool
  | .call callee _ => !callee.form.isPrefix
  | .member receiver _ => !receiver.form.isPrefix
  | .index receiver _ => !receiver.form.isPrefix
  | _ => true

def ExprForm.continuesWithoutRuns : ExprForm → Bool
  | .run _ continuations => Continuation.everyOf (!·.isRun) continuations
  | _ => true

theorem Expr.endsInRun_eq (e : Expr) : e.endsInRun = e.form.endsInRun := by
  cases e
  rfl

theorem Expr.operandEndsInRun_eq (least : Nat) (e : Expr) :
    e.operandEndsInRun least = (!(Layout.strength e.form < least) && e.form.endsInRun) := by
  cases e
  rfl

theorem Stmt.endsInRun_eq (s : Stmt) : s.endsInRun = s.form.endsInRun := by
  cases s
  rfl

/-! ## Where nothing is run -/

mutual

theorem Expr.endsInRun_of_every : (e : Expr) → e.every (!·.isRun) = true → e.endsInRun = false
  | ⟨_, form⟩, h => by
    rw [Expr.every, Bool.and_eq_true] at h
    exact form.endsInRun_of_every (by simpa using h.1) h.2

theorem ExprForm.endsInRun_of_every :
    (form : ExprForm) → form.isRun = false → form.inside (!·.isRun) = true →
      form.endsInRun = false
  | .negate operand, _, h => operand.operandEndsInRun_of_every 6 h
  | .arithmetic _ _ right, _, h => right.operandEndsInRun_of_every 4 (Bool.and_eq_true_iff.mp h).2
  | .compare _ _ right, _, h => right.operandEndsInRun_of_every 2 (Bool.and_eq_true_iff.mp h).2
  | .equal _ _ right, _, h => right.operandEndsInRun_of_every 3 (Bool.and_eq_true_iff.mp h).2
  | .assign _ value, _, h => value.endsInRun_of_every (Bool.and_eq_true_iff.mp h).2
  | .conditional _ _ alternate, _, h => alternate.endsInRun_of_every (Bool.and_eq_true_iff.mp h).2
  | .range _ last, _, h => last.operandEndsInRun_of_every 6 (Bool.and_eq_true_iff.mp h).2
  | .wait awaited, _, h => awaited.operandEndsInRun_of_every 6 h
  | .run _ _, hrun, _ => nomatch hrun
  | .literal _, _, _ => rfl
  | .name _, _, _ => rfl
  | .template _ _, _, _ => rfl
  | .array _, _, _ => rfl
  | .object _, _, _ => rfl
  | .lambda _ _, _, _ => rfl
  | .call _ _, _, _ => rfl
  | .member _ _, _, _ => rfl
  | .index _ _, _, _ => rfl
  | .switch _ _, _, _ => rfl

theorem Expr.operandEndsInRun_of_every (least : Nat) :
    (e : Expr) → e.every (!·.isRun) = true → e.operandEndsInRun least = false
  | ⟨_, form⟩, h => by
    rw [Expr.every, Bool.and_eq_true] at h
    rw [Expr.operandEndsInRun, form.endsInRun_of_every (by simpa using h.1) h.2, Bool.and_false]

end

mutual

theorem Stmt.endsInRun_of_every : (s : Stmt) → s.every (!·.isRun) = true → s.endsInRun = false
  | ⟨_, _, form⟩, h => form.endsInRun_of_every h

theorem StmtForm.endsInRun_of_every : (form : StmtForm) → form.every (!·.isRun) = true → form.endsInRun = false
  | .expose declaration, h => declaration.endsInRun_of_every h
  | .declare _ _ value, h => value.endsInRun_of_every h
  | .give (some value), h => value.endsInRun_of_every h
  | .expression e, h => e.endsInRun_of_every h
  | .useModule _ _ _, _ => rfl
  | .declareTask _ _ _, _ => rfl
  | .declareFunction _ _ _, _ => rfl
  | .branch _ _ _, _ => rfl
  | .loop _ _ _ _, _ => rfl
  | .give none, _ => rfl
  | .comment _, _ => rfl
  | .blankLine, _ => rfl

end

theorem Block.endsInRun_of_every {b : Block} (h : b.every (!·.isRun) = true) : b.endsInRun = false := by
  rw [Block.every_eq] at h
  rw [Block.endsInRun]
  generalize b.body = body at h
  induction body with
  | nil => rfl
  | cons s rest ih =>
    rw [Stmt.everyOf, Bool.and_eq_true] at h
    rw [Stmt.endsInRunOf, s.endsInRun_of_every h.1, ih h.2, Bool.and_false, Bool.or_false]

theorem Continuation.runsApart_of_every {cs : List Continuation}
    (h : Continuation.everyOf (!·.isRun) cs = true) : Continuation.runsApart cs = true := by
  induction cs with
  | nil => rfl
  | cons c rest ih =>
    obtain ⟨span, params, body⟩ := c
    rw [Continuation.everyOf, Bool.and_eq_true] at h
    cases rest with
    | nil => rfl
    | cons next others =>
      rw [Continuation.runsApart, ih h.2, Block.endsInRun_of_every h.1]
      rfl

theorem ExprForm.isPlain_of_conditions {form : ExprForm} (hnumber : form.numberRereads = true)
    (hreceiver : form.receiverStands = true) (hruns : form.continuesWithoutRuns = true) :
    form.isPlain = true := by
  cases form with
  | literal value =>
    cases value with
    | number x => exact hnumber
    | _ => rfl
  | call callee arguments => exact hreceiver
  | member receiver key => exact hreceiver
  | index receiver key => exact hreceiver
  | run call continuations => exact Continuation.runsApart_of_every hruns
  | _ => rfl

theorem Program.isPlain_of_conditions {p : Program} (hnumbers : p.every ExprForm.numberRereads = true)
    (hreceivers : p.every ExprForm.receiverStands = true)
    (hruns : p.every ExprForm.continuesWithoutRuns = true) : p.every ExprForm.isPlain = true := by
  rw [Program.every_iff] at hnumbers hreceivers hruns ⊢
  exact fun e he => ExprForm.isPlain_of_conditions (hnumbers e he) (hreceivers e he) (hruns e he)

end Trellis
