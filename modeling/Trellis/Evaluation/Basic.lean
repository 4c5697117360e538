import Trellis.Library.Call

/-!
# Evaluators

Evaluation is recursive through the tree, through calls and through the tasks that waiting sets off. As in
the grammar, each part of it is a plain function of an *evaluator*, the record of what it may go back to,
and the knot is tied once by a recursion on a depth.

A statement has a *flow*: either it comes to a value and the next statement follows, or it gives a result,
and the statements behind it are left out.
-/

namespace Trellis

inductive Flow where
  | value (v : Value)
  /-- The result of the surrounding function, case, continuation or module is given. -/
  | give (v : Value)

def Flow.result : Flow → Value
  | value v => v
  | give v => v

structure Evaluator where
  evaluate : Expr → Run Value
  /-- Execute a statement, with everybody who observes the run being told. -/
  execute : Stmt → Run Flow
  perform : Stmt → Run Flow
  work : Job → Run Unit
  rounds : Nat

namespace Evaluator

/-! ## Statements in a row -/

/-- **Execute statements one after another.** They come to the value of the last one. -/
def statements (ev : Evaluator) (last : Value) : List Stmt → Run Flow
  | [] => return .value last
  | s :: rest => do
    if s.form.isTrivia then statements ev last rest
    else
      match ← ev.execute s with
      | .value v => statements ev v rest
      | .give v => return .give v

def block (ev : Evaluator) (b : Block) (scope : ScopeId) : Run Flow :=
  Run.within scope (ev.statements .nil b.body)

def innerBlock (ev : Evaluator) (b : Block) : Run Flow := do
  ev.block b (← Run.newScope)

def evaluateAll (ev : Evaluator) : List Expr → Run (List Value)
  | [] => return []
  | e :: rest => do
    let v ← ev.evaluate e
    let vs ← evaluateAll ev rest
    return v :: vs

/-! ## Calls -/

def bindParams (scope : ScopeId) : List String → List Value → Run Unit
  | param :: params, argument :: arguments => do
    Run.declare scope param argument false
    bindParams scope params arguments
  | _, _ => return ()

/-- The arguments that a function sees: a single array is spread over several parameters. -/
def spread (h : Heap) (f : Closure) (arguments : List Value) : List Value :=
  match arguments with
  | [.array ref] => if f.params.length > 1 then (h.elements ref).toList else arguments
  | _ => arguments

def callClosure (ev : Evaluator) (f : Closure) (arguments : List Value) : Run Value := do
  Action.change fun m => m.note (.called f)
  let scope ← fun m =>
    let (id, scopes) := m.scopes.addChild f.scope
    Outcome.done id { m with scopes }
  let arguments ← Action.read fun m => spread m.heap f arguments
  bindParams scope f.params arguments
  return (← ev.block f.body scope).result

def callBuiltin (b : Builtin) (arguments : List Value) (span : Span) : Run Value :=
  match b.leastArguments? with
  | some least =>
    if arguments.length < least then
      Run.fail (.tooFewArguments b.name least arguments.length) span
    else Library.call b arguments span
  | none => Library.call b arguments span

def refuseCall (callee : Value) (span : Span) : Run Value := do
  Run.fail (.notCallable (← Run.textOf callee)) span

def call (ev : Evaluator) (callee : Value) (arguments : List Value) (span : Span) : Run Value := do
  match callee with
  | .function ref =>
    match ← Action.read fun m => m.heap.functions[ref]? with
    | some f => ev.callClosure f arguments
    | none => refuseCall callee span
  | .builtin ref =>
    match ← Action.read fun m => m.heap.builtins[ref]? with
    | some b => callBuiltin b arguments span
    | none => refuseCall callee span
  | other => refuseCall other span

/-! ## Tasks -/

def nextJob? : Run (Option Job) := fun m =>
  match m.tasks.pop? with
  | some (job, tasks) => .done (some job) { m with tasks }
  | none => .done none m

/-- Do jobs until a task has a result, in at most the given number of rounds. -/
def waitIn (ev : Evaluator) (task : TaskId) (span : Span) : Nat → Run Value
  | 0 => Action.exhaust
  | bound + 1 => do
    match ← Action.read fun m => m.tasks.result? task with
    | some v => return v
    | none =>
      match ← nextJob? with
      | some job =>
        ev.work job
        waitIn ev task span bound
      | none => Run.fail .neverResolved span

/-- **Wait for the result of a task.** Meanwhile the jobs that wait are done. -/
def waitFor (ev : Evaluator) (task : TaskId) (span : Span) : Run Value :=
  ev.waitIn task span ev.rounds

/-- Do jobs until none is left, in at most the given number of rounds. -/
def drainIn (ev : Evaluator) : Nat → Run Unit
  | 0 => Action.exhaust
  | bound + 1 => do
    match ← nextJob? with
    | some job =>
      ev.work job
      drainIn ev bound
    | none => return ()

def drain (ev : Evaluator) : Run Unit :=
  ev.drainIn ev.rounds

/-- Wait for a value as long as it is a task, in at most the given number of rounds. -/
def settleIn (ev : Evaluator) (span : Span) : Nat → Value → Run Value
  | 0, _ => Action.exhaust
  | bound + 1, v => do
    match v with
    | .task inner => settleIn ev span bound (← ev.waitFor inner span)
    | other => return other

/-- Do what is to be done with a result, which comes to the value of the last continuation. -/
def continueWith (ev : Evaluator) (result : Value) (last : Value) : List Continuation → Run Value
  | [] => return last
  | c :: rest => do
    let scope ← Run.newScope
    match c.params.head? with
    | some param => Run.declare scope param.name result false
    | none => pure ()
    let flow ← Run.recorded c.span (ev.block c.body scope)
    continueWith ev result flow.result rest

/-- What a job comes to: the result of its call, and then of its continuations. -/
def pipeline (ev : Evaluator) (job : Job) : Run Value := do
  let called ← ev.call job.callee job.arguments job.span
  let result ← ev.settleIn job.span ev.rounds called
  ev.continueWith result result job.continuations

def workStep (ev : Evaluator) (job : Job) : Run Unit := do
  Action.change fun m => m.note (.started job.task)
  let v ← Run.within job.scope (ev.pipeline job)
  Action.change fun m =>
    { m with tasks := m.tasks.resolve job.task v }.note (.resolved job.task v)

end Evaluator

end Trellis
