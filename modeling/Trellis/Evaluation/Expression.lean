import Trellis.Evaluation.Basic
import Trellis.Text.EditDistance
import Trellis.Value.Member
import Trellis.Value.Operation

/-!
# Evaluating expressions

The value of an expression, form by form. Operands are evaluated from left to right, the value of an
assignment before its target. A fault on the way is recorded with the place of every expression it passes.
-/

namespace Trellis

/-! ## Suggestions -/

namespace Machine

/-- The most edits by which a name that is suggested may differ from the one that was used. -/
def suggestionLimit : Nat := 2

/-- Is one candidate for a suggestion better than another? The nearer one is, and of two equally near ones
the one that comes first. -/
def betterCandidate (a b : Nat × String) : Bool :=
  a.1 < b.1 || (a.1 == b.1 && a.2 < b.2)

/-- The visible name that is nearest to a name, if one is near enough. -/
def nearestName? (m : Machine) (name : String) : Option String :=
  let candidates := (m.scopes.visibleNames m.current).filterMap fun other =>
    let distance := Text.editDistance name other
    if other != name && distance ≤ suggestionLimit && distance < name.length then
      some (distance, other)
    else none
  (candidates.foldl (fun (best : Option (Nat × String)) candidate =>
    match best with
    | some b => if betterCandidate candidate b then some candidate else best
    | none => some candidate) none).map (·.2)

/-- Attach a suggestion to a fault about a name that is not declared. -/
def suggest (m : Machine) (name : String) (fault : Fault) : Fault :=
  if fault.isNotDeclared && fault.hint.isNone then
    match m.nearestName? name with
    | some other => { fault with hint := some ("did you mean '" ++ other ++ "'?") }
    | none => fault
  else fault

end Machine

namespace Evaluator

/-! ## Names and members -/

def readName (name : String) : Run Value := fun m =>
  match m.scopes.lookup m.current name with
  | .ok v => .done v m
  | .error fault => .failed (m.suggest name fault) m

def assignName (name : String) (v : Value) : Run Unit := fun m =>
  match m.scopes.assignee m.current name with
  | .ok owner => .done () { m with scopes := m.scopes.replace owner name v }
  | .error fault => .failed (m.suggest name fault) m

def readModule (root : ScopeId) (name : String) : Run Value := fun m =>
  match m.scopes.lookup root name with
  | .ok v => .done v m
  | .error fault => .failed fault m

def readMember (receiver key : Value) (span : Span) : Run Value := do
  match receiver with
  | .module root => readModule root (← Run.textOf key)
  | _ =>
    match ← Action.read fun m => Member.read m.heap receiver key with
    | .ok v => return v
    | .error fault => Run.fail (.member fault) span

def writeMember (receiver key value : Value) (span : Span) : Run Unit := fun m =>
  match Member.edit m.heap receiver key value with
  | .ok edit => .done () { m with heap := m.heap.apply edit }
  | .error cause => .failed (.running cause span) m

/-! ## Methods -/

/-- The methods of arrays that call a function on every element. -/
inductive Traversal where
  | map
  | filter
  | forEach
deriving DecidableEq, Repr

def Traversal.ofName? : String → Option Traversal
  | "map" => some .map
  | "filter" => some .filter
  | "forEach" => some .forEach
  | _ => none

def Traversal.name : Traversal → String
  | .map => "map"
  | .filter => "filter"
  | .forEach => "forEach"

/-- Call a function on elements and their positions, and collect what the traversal keeps. -/
def traverse (ev : Evaluator) (t : Traversal) (callback : Value) (span : Span) (i : Nat)
    (kept : Array Value) : List Value → Run (Array Value)
  | [] => return kept
  | element :: rest => do
    let result ← ev.call callback [element, .ofNat i] span
    match t with
    | .map => traverse ev t callback span (i + 1) (kept.push result) rest
    | .forEach => traverse ev t callback span (i + 1) kept rest
    | .filter =>
      match result with
      | .bool true => traverse ev t callback span (i + 1) (kept.push element) rest
      | .bool false => traverse ev t callback span (i + 1) kept rest
      | other => Run.fail (.notFilterResult (← Run.tagOf other)) span

/-- Call a method of an array that calls a function on every element. -/
def callTraversal (ev : Evaluator) (t : Traversal) (ref : Ref) (arguments : List Value)
    (span : Span) : Run Value := do
  let elements ← Action.read fun m => m.heap.elements ref
  match arguments.head? with
  | some callback =>
    if callback.isCallable then
      let kept ← ev.traverse t callback span 0 #[] elements.toList
      match t with
      | .forEach => return .nil
      | _ => Run.alloc fun h => h.newArray kept
    else Run.fail (.notCallback t.name) span
  | none => Run.fail (.notCallback t.name) span

def callPlain (receiver : Value) (name : String) (arguments : List Value) (span : Span) : Run Value := fun m =>
  match Member.reply m.heap receiver name arguments with
  | .ok reply =>
    let (v, heap) := m.heap.take reply
    .done v { m with heap }
  | .error fault => .failed (.running (.member fault) span) m

/-- The function that a method call means if it means one: a name of a module, or a field of an object
that can be called. -/
def ownFunction? (receiver : Value) (name : String) : Run (Option Value) := do
  match receiver with
  | .module root => return some (← readModule root name)
  | .object ref =>
    let field ← Action.read fun m => (m.heap.fields ref).get? name
    return field.filter Value.isCallable
  | _ => return none

def callMethod (ev : Evaluator) (receiver key : Value) (arguments : List Value) (span : Span) : Run Value := do
  let name ← Run.textOf key
  match ← ownFunction? receiver name with
  | some f => ev.call f arguments span
  | none =>
    match receiver, Traversal.ofName? name, key with
    | .array ref, some t, _ => ev.callTraversal t ref arguments span
    | .array _, none, .number _ =>
      let element ← readMember receiver key span
      ev.call element arguments span
    | _, _, _ => callPlain receiver name arguments span

/-! ## Forms -/

def literal : Literal → Value
  | .number x => .ofFloat x
  | .text s => .text s
  | .bool b => .bool b
  | .nil => .nil
  | .nan => .nan

def templateText (ev : Evaluator) (before : String) : List TemplatePart → Run String
  | [] => return before
  | .text s :: rest => templateText ev (before ++ s) rest
  | .slot e :: rest => do
    let v ← ev.evaluate e
    templateText ev (before ++ (← Run.textOf v)) rest

def objectFields (ev : Evaluator) (fields : Fields Value) : List Property → Run (Fields Value)
  | [] => return fields
  | p :: rest => do
    let v ← ev.evaluate p.value
    objectFields ev (fields.insert p.key v) rest

def condition (ev : Evaluator) (e : Expr) : Run Bool := do
  match ← ev.evaluate e with
  | .bool b => return b
  | other => Run.fail (.notCondition (← Run.tagOf other)) e.span

def makeFunction (kind : FunctionKind) (name : String) (params : List Ident) (body : Block) : Run Value := fun m =>
  let f : Closure := { kind, name, params := params.map (·.name), body, scope := m.current }
  let (v, heap) := m.heap.newFunction f
  .done v { m with heap }

def switchCases (ev : Evaluator) (subject : Value) : List Case → Run Value
  | [] => return .nil
  | c :: rest => do
    let matched ←
      match c.test with
      | none => pure true
      | some test => do
        let v ← ev.evaluate test
        pure (v.same subject)
    if matched then return (← ev.innerBlock c.body).result
    else switchCases ev subject rest

def schedule (callee : Value) (arguments : List Value) (continuations : List Continuation)
    (span : Span) : Run Value := fun m =>
  let (task, tasks) := m.tasks.reserve
  let tasks := tasks.push { task, callee, arguments, continuations, scope := m.current, span }
  .done (.task task) ({ m with tasks }.note (.scheduled task))

@[inline] def orFail (span : Span) (f : Heap → Except Cause Value) : Run Value := fun m =>
  match f m.heap with
  | .ok v => .done v m
  | .error cause => .failed (.running cause span) m

def assignTo (ev : Evaluator) (target : Expr) (v : Value) (span : Span) : Run Unit := do
  match target.form with
  | .name name => assignName name v
  | .member receiver key =>
    let receiver ← ev.evaluate receiver
    writeMember receiver (.text key.name) v span
  | .index receiver key =>
    let receiver ← ev.evaluate receiver
    let key ← ev.evaluate key
    writeMember receiver key v span
  | _ => Run.fail .invalidTarget target.span

/-- The value of a call. A call of a member is a call of a method. -/
def callForm (ev : Evaluator) (callee : Expr) (arguments : List Expr) (span : Span) : Run Value := do
  match callee.form with
  | .member receiver key =>
    let receiver ← ev.evaluate receiver
    let arguments ← ev.evaluateAll arguments
    ev.callMethod receiver (.text key.name) arguments span
  | .index receiver key =>
    let receiver ← ev.evaluate receiver
    let key ← ev.evaluate key
    let arguments ← ev.evaluateAll arguments
    ev.callMethod receiver key arguments span
  | _ =>
    let callee ← ev.evaluate callee
    let arguments ← ev.evaluateAll arguments
    ev.call callee arguments span

def evaluateForm (ev : Evaluator) (span : Span) (form : ExprForm) : Run Value := do
  match form with
  | .literal value => return literal value
  | .name name => readName name
  | .template _ parts => return .text (← ev.templateText "" parts)
  | .array elements =>
    let values ← ev.evaluateAll elements
    Run.alloc fun h => h.newArray values.toArray
  | .object properties =>
    let fields ← ev.objectFields {} properties
    Run.alloc fun h => h.newObject fields
  | .lambda params body => makeFunction .lambda "lambda" params body
  | .negate operand =>
    let v ← ev.evaluate operand
    match v.toNumber? with
    | some x => return .ofFloat (-x)
    | none => Run.fail (.notNegatable (← Run.tagOf v)) span
  | .arithmetic left operator right =>
    let left ← ev.evaluate left
    let right ← ev.evaluate right
    orFail span fun h => Operation.arithmetic h operator left right
  | .compare left operator right =>
    let left ← ev.evaluate left
    let right ← ev.evaluate right
    orFail span fun h => Operation.compare h operator left right
  | .equal left negated right =>
    let left ← ev.evaluate left
    let right ← ev.evaluate right
    return .bool (left.equal right != negated)
  | .assign target value =>
    let v ← ev.evaluate value
    ev.assignTo target v span
    return v
  | .conditional condition consequent alternate =>
    if ← ev.condition condition then ev.evaluate consequent else ev.evaluate alternate
  | .range first last =>
    let first ← ev.evaluate first
    let last ← ev.evaluate last
    match first, last with
    | .number a, .number b => return .range a b
    | _, _ => Run.fail (.badBounds (← Run.tagOf first) (← Run.tagOf last)) span
  | .member receiver key =>
    let receiver ← ev.evaluate receiver
    readMember receiver (.text key.name) span
  | .index receiver key =>
    let receiver ← ev.evaluate receiver
    let key ← ev.evaluate key
    readMember receiver key span
  | .call callee arguments => ev.callForm callee arguments span
  | .switch subject cases =>
    let subject ← ev.evaluate subject
    ev.switchCases subject cases
  | .run call continuations =>
    match call.form with
    | .call callee arguments =>
      let callee ← ev.evaluate callee
      let arguments ← ev.evaluateAll arguments
      schedule callee arguments continuations span
    | _ => Run.fail .notRunnable span
  | .wait awaited =>
    match ← ev.evaluate awaited with
    | .task task => ev.waitFor task span
    | other => return other

def evaluateStep (ev : Evaluator) (e : Expr) : Run Value :=
  Run.recorded e.span (ev.evaluateForm e.span e.form)

end Evaluator

end Trellis
