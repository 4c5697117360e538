import Trellis.Script.Operator
import Trellis.Span

/-!
# Scripts as trees

A script that has been read is a tree of statements and expressions. Every expression and statement is
split into its *form*, which is what it means, and where it stands. Statements, blocks and the program
also carry an identity, a number that is unique within the work of one parser, by which tables about a
tree refer to them.

The tree is general: it has room for a program that assigns to a number or runs something that is no
call. The grammar makes no such trees, and that is a theorem about the grammar and not a feature of the
type.
-/

namespace Trellis

/-- The identity of a statement, a block or a program. -/
abbrev NodeId := Nat

structure Ident where
  name : String
  span : Span

inductive Literal where
  | number (x : Float)
  | text (s : String)
  | bool (b : Bool)
  | nil
  | nan

/-- A name taken out of a module, and what it is called by the importer if that differs. -/
structure Pick where
  name : Ident
  called : Option Ident

def Pick.localName (p : Pick) : Ident :=
  p.called.getD p.name

mutual

structure Expr where
  span : Span
  form : ExprForm

inductive ExprForm where
  | literal (value : Literal)
  | name (name : String)
  /-- A text with expressions in it. The text is kept as it was written, beside the parts it splits
  into. -/
  | template (raw : String) (parts : List TemplatePart)
  | array (elements : List Expr)
  | object (properties : List Property)
  | lambda (params : List Ident) (body : Block)
  | negate (operand : Expr)
  | arithmetic (left : Expr) (operator : Arithmetic) (right : Expr)
  | compare (left : Expr) (operator : Comparison) (right : Expr)
  | equal (left : Expr) (negated : Bool) (right : Expr)
  /-- The grammar makes only targets that are names or members. -/
  | assign (target value : Expr)
  | conditional (condition consequent alternate : Expr)
  | range (first last : Expr)
  | call (callee : Expr) (arguments : List Expr)
  | member (receiver : Expr) (key : Ident)
  | index (receiver key : Expr)
  | switch (subject : Expr) (cases : List Case)
  /-- The grammar makes only calls to be run. -/
  | run (call : Expr) (continuations : List Continuation)
  | wait (awaited : Expr)

/-- A part of a template. -/
inductive TemplatePart where
  | text (s : String)
  | slot (e : Expr)

/-- A property of an object. A property in short form is the name of its value. -/
structure Property where
  key : String
  short : Bool
  value : Expr

/-- A case of a switch. The case without a test is the default. -/
structure Case where
  span : Span
  test : Option Expr
  body : Block

/-- What is done with the result of a task. -/
structure Continuation where
  span : Span
  params : List Ident
  body : Block

structure Block where
  id : NodeId
  span : Span
  body : List Stmt

structure Stmt where
  id : NodeId
  span : Span
  form : StmtForm

inductive StmtForm where
  | useModule (source : String) (called : Option Ident) (picks : List Pick)
  /-- The grammar makes only declarations to be exposed. -/
  | expose (declaration : Stmt)
  | declareTask (name : Ident) (params : List Ident) (body : Block)
  | declareFunction (name : Ident) (params : List Ident) (body : Block)
  | declare (name : Ident) (constant : Bool) (value : Expr)
  | branch (condition : Expr) (consequent : Block) (alternate : Option Alternate)
  | loop (key : Ident) (value : Option Ident) (iterated : Expr) (body : Block)
  | give (value : Option Expr)
  | expression (e : Expr)
  | comment (text : String)
  | blankLine

/-- What is done when a condition does not hold. -/
inductive Alternate where
  | block (b : Block)
  /-- Another condition. The grammar makes only branches here. -/
  | branch (s : Stmt)

end

structure Program where
  id : NodeId
  body : List Stmt

namespace StmtForm

def isTrivia : StmtForm → Bool
  | comment _ => true
  | blankLine => true
  | _ => false

def declaredName? : StmtForm → Option Ident
  | declare name _ _ => some name
  | declareFunction name _ _ => some name
  | declareTask name _ _ => some name
  | _ => none

/-- Is it a statement that gives the result of the block it is in? -/
def isGive : StmtForm → Bool
  | give _ => true
  | _ => false

end StmtForm

/-- Is the last statement of a block, comments and blank lines aside, one that gives its result? -/
def Block.endsInGive (b : Block) : Bool :=
  match b.body.reverse.find? (fun s => !s.form.isTrivia) with
  | some s => s.form.isGive
  | none => false

namespace ExprForm

def isCall : ExprForm → Bool
  | call _ _ => true
  | _ => false

def isTarget : ExprForm → Bool
  | name _ => true
  | member _ _ => true
  | index _ _ => true
  | _ => false

end ExprForm

end Trellis
