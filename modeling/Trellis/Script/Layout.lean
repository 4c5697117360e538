import Trellis.Number.Decimal
import Trellis.Script
import Trellis.Text.Letter

/-!
# Layout

The layout of a tree is its canonical text. Every statement stands on lines of its own, blocks are
indented, keywords have their canonical spellings, and an expression is put in parentheses exactly where
it binds less tightly than its surroundings ask for.
-/

namespace Trellis

namespace Layout

/-- **How tightly an expression binds**: 6 for those without an operator in the middle. -/
def strength : ExprForm → Nat
  | .conditional _ _ _ => 1
  | .assign _ _ => 1
  | .compare _ _ _ => 2
  | .equal _ _ _ => 3
  | .arithmetic _ _ _ => 4
  | .range _ _ => 5
  | _ => 6

def isBareKey (key : String) : Bool :=
  match key.toList with
  | [] => false
  | c :: cs => Text.startsWord c && cs.all Text.continuesWord

def quoted (text : String) : String :=
  if text.toList.contains '\x22' then "'" ++ text ++ "'" else "\"" ++ text ++ "\""

def paramList (params : List Ident) : String :=
  ", ".intercalate (params.map (·.name))

/-- A text in parentheses if its strength falls short of what is asked for. -/
def guarded (form : ExprForm) (least : Nat) (text : String) : String :=
  if strength form < least then "(" ++ text ++ ")" else text

def literal : Literal → String
  | .number x => Number.text "inf" x
  | .text s => quoted s
  | .bool b => if b then "true" else "false"
  | .nil => "nil"
  | .nan => "NaN"

def pick (p : Pick) : String :=
  match p.called with
  | some other => p.name.name ++ " as " ++ other.name
  | none => p.name.name

def useModule (source : String) (called : Option Ident) (picks : List Pick) : String :=
  let name := (called.map fun n => " as " ++ n.name).getD ""
  let list :=
    if picks.isEmpty then "" else " pick (" ++ ", ".intercalate (picks.map pick) ++ ")"
  "use " ++ quoted source ++ name ++ list

end Layout

structure Layout where
  indent : String := "    "

namespace Layout

def pad (l : Layout) (depth : Nat) : String :=
  String.join (List.replicate depth l.indent)

mutual

def expr (l : Layout) (depth : Nat) : Expr → String
  | ⟨_, form⟩ => l.exprForm depth form

def exprForm (l : Layout) (depth : Nat) : ExprForm → String
  | .literal value => literal value
  | .name name => name
  | .template raw _ => quoted raw
  | .array elements => "[" ++ ", ".intercalate (l.exprs depth elements) ++ "]"
  | .object properties =>
    "\x7b" ++ ", ".intercalate (l.properties depth properties) ++ "\x7d"
  | .lambda params body =>
    "fn(" ++ paramList params ++ "):\n" ++ l.block (depth + 1) body ++ l.pad depth ++ "end"
  | .negate operand => "-" ++ l.operand depth 6 operand
  | .arithmetic left operator right =>
    l.operand depth 5 left ++ " " ++ operator.symbol ++ " " ++ l.operand depth 4 right
  | .compare left operator right =>
    l.operand depth 3 left ++ " " ++ operator.symbol ++ " " ++ l.operand depth 2 right
  | .equal left negated right =>
    l.operand depth 4 left ++ (if negated then " != " else " == ") ++ l.operand depth 3 right
  | .assign target value => l.operand depth 6 target ++ " = " ++ l.expr depth value
  | .conditional condition consequent alternate =>
    l.operand depth 2 condition ++ " ? " ++ l.expr depth consequent ++ " : " ++
      l.expr depth alternate
  | .range first last => l.operand depth 6 first ++ ".." ++ l.operand depth 6 last
  | .call callee arguments =>
    l.operand depth 6 callee ++ "(" ++ ", ".intercalate (l.exprs depth arguments) ++ ")"
  | .member receiver key => l.operand depth 6 receiver ++ "." ++ key.name
  | .index receiver key => l.operand depth 6 receiver ++ "[" ++ l.expr depth key ++ "]"
  | .switch subject cases =>
    "switch " ++ l.expr depth subject ++ ":\n" ++ l.cases depth cases ++ l.pad depth ++ "end"
  | .run call [] => "run " ++ l.expr depth call
  | .run call (first :: rest) =>
    "run " ++ l.expr depth call ++ "\n" ++ l.continuation depth first ++
      l.continuations depth rest ++ l.pad depth ++ "end"
  | .wait awaited => "wait " ++ l.operand depth 6 awaited

/-- The text of an expression where at least the given strength is asked for. -/
def operand (l : Layout) (depth least : Nat) : Expr → String
  | ⟨_, form⟩ => guarded form least (l.exprForm depth form)

def exprs (l : Layout) (depth : Nat) : List Expr → List String
  | [] => []
  | e :: rest => l.expr depth e :: l.exprs depth rest

def properties (l : Layout) (depth : Nat) : List Property → List String
  | [] => []
  | ⟨key, short, value⟩ :: rest =>
    (if short then key
      else (if isBareKey key then key else quoted key) ++ ": " ++ l.expr depth value) ::
      l.properties depth rest

def cases (l : Layout) (depth : Nat) : List Case → String
  | [] => ""
  | ⟨_, none, body⟩ :: rest =>
    l.pad (depth + 1) ++ "default:\n" ++ l.caseBody depth body ++ l.cases depth rest
  | ⟨_, some test, body⟩ :: rest =>
    l.pad (depth + 1) ++ "case " ++ l.expr (depth + 1) test ++ ":\n" ++ l.caseBody depth body ++
      l.cases depth rest

def caseBody (l : Layout) (depth : Nat) : Block → String
  | ⟨id, span, body⟩ =>
    l.statements (depth + 2) body ++
      if Block.endsInGive ⟨id, span, body⟩ then "" else l.pad (depth + 2) ++ "break\n"

def continuation (l : Layout) (depth : Nat) : Continuation → String
  | ⟨_, params, body⟩ =>
    l.pad depth ++ "to (" ++ paramList params ++ "):\n" ++ l.block (depth + 1) body

def continuations (l : Layout) (depth : Nat) : List Continuation → String
  | [] => ""
  | c :: rest => l.continuation depth c ++ l.continuations depth rest

def block (l : Layout) (depth : Nat) : Block → String
  | ⟨_, _, body⟩ => l.statements depth body

/-- **The text of statements** at a depth, each on lines of its own. -/
def statements (l : Layout) (depth : Nat) : List Stmt → String
  | [] => ""
  | ⟨_, _, form⟩ :: rest =>
    (match form with
      | .blankLine => ""
      | _ => l.pad depth) ++
      l.stmtForm depth form ++ "\n" ++ l.statements depth rest

/-- The text of a statement, without the indentation of its first line. -/
def stmt (l : Layout) (depth : Nat) : Stmt → String
  | ⟨_, _, form⟩ => l.stmtForm depth form

def stmtForm (l : Layout) (depth : Nat) : StmtForm → String
  | .useModule source called picks => useModule source called picks
  | .expose declaration => "expose " ++ l.stmt depth declaration
  | .declareTask name params body =>
    "task fn " ++ name.name ++ "(" ++ paramList params ++ "):\n" ++ l.block (depth + 1) body ++
      l.pad depth ++ "end"
  | .declareFunction name params body =>
    "fn " ++ name.name ++ "(" ++ paramList params ++ "):\n" ++ l.block (depth + 1) body ++
      l.pad depth ++ "end"
  | .declare name constant value =>
    (if constant then "const " else "let ") ++ name.name ++ " = " ++ l.expr depth value
  | .branch condition consequent none =>
    "if " ++ l.expr depth condition ++ ":\n" ++ l.block (depth + 1) consequent ++ l.pad depth ++
      "end"
  | .branch condition consequent (some alternate) =>
    "if " ++ l.expr depth condition ++ ":\n" ++ l.block (depth + 1) consequent ++ l.pad depth ++
      l.alternate depth alternate
  | .loop key value iterated body =>
    "for " ++ key.name ++ ((value.map fun v => ", " ++ v.name).getD "") ++ " in " ++
      l.expr depth iterated ++ ":\n" ++ l.block (depth + 1) body ++ l.pad depth ++ "end"
  | .give none => "return"
  | .give (some value) => "return " ++ l.expr depth value
  | .expression e => l.expr depth e
  | .comment text => text
  | .blankLine => ""

def alternate (l : Layout) (depth : Nat) : Alternate → String
  | .block b => "else:\n" ++ l.block (depth + 1) b ++ l.pad depth ++ "end"
  | .branch s => "else " ++ l.stmt depth s

end

def program (l : Layout) (p : Program) : String :=
  l.statements 0 p.body

end Layout

end Trellis
