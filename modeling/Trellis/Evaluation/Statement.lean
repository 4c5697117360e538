import Trellis.Evaluation.Expression
import Trellis.Script.Reading

/-!
# Executing statements

What statements do, form by form. Blocks get a scope of their own, and so does every round of a loop. The
use of a module evaluates it, unless that was done before, and then binds names to it.
-/

namespace Trellis

namespace Evaluator

/-! ## Modules -/

def bindExports (root : ScopeId) : List (String × Value) → Run Unit
  | [] => return ()
  | (name, v) :: rest => do
    Run.declare root name v true
    Action.change fun m => { m with scopes := m.scopes.expose root name }
    bindExports root rest

def newRoot (file : Option Path) : Run ScopeId := fun m =>
  let (root, scopes) := m.scopes.addRoot file
  .done root { m with scopes }

def finishModule (key : ModuleKey) (root : ScopeId) : Run Unit :=
  Action.change fun m => { m with modules := m.modules.finish key root }

def loadBuiltin (name : String) : Run ScopeId := do
  let key := ModuleKey.builtin name
  match ← Action.read fun m => m.modules.root? key with
  | some root => return root
  | none =>
    match ← Action.read fun m => m.registry.build? name m.clock.now m.heap with
    | none =>
      let mark ← Action.read (·.settings.builtinMark)
      Action.fail (.managing (.noModule (mark ++ name)))
    | some (exports, heap) =>
      Action.change fun m => { m with heap }
      let root ← newRoot none
      bindExports root exports
      finishModule key root
      return root

/-- The path of the file of a module, seen from the current file. -/
def modulePath (source : String) : Run Path := do
  let m ← Action.state
  let written : Path := ⟨source⟩
  let named :=
    if written.extension?.isNone then written.withExtension m.settings.moduleExtension else written
  match m.files.canonical ((Path.directoryOf m.currentFile).join named.text) with
  | .ok path => return path
  | .error _ => Action.fail (.managing (.noModule source))

def readModuleFile (path : Path) : Run Program := fun m =>
  match m.files.read path with
  | .error reason => .failed (.managing (.unreadableModule path reason)) m
  | .ok source =>
    match readScript m.keywords m.settings.matching source with
    | .done program _ => .done program (m.note (.moduleRead path program))
    | .failed fault _ => .failed (fault.inFile (some path)) m
    | .exhausted => .exhausted

def evaluateModule (ev : Evaluator) (path : Path) : Run ScopeId := do
  let program ← readModuleFile path
  let root ← newRoot (some path)
  Action.change fun m => m.addPrelude root
  let _ ← Run.within root (ev.statements .nil program.body)
  return root

def loadFile (ev : Evaluator) (source : String) : Run ScopeId := do
  let path ← modulePath source
  let key := ModuleKey.file path
  match ← Action.read fun m => m.modules.root? key with
  | some root => return root
  | none =>
    let modules ← Action.ofExcept ((← Action.read (·.modules)).start key)
    Action.change fun m => { m with modules }
    let root ← (ev.evaluateModule path).onFault fun fault m =>
      (fault, { m with modules := m.modules.abandon key })
    finishModule key root
    return root

/-- **The root of a module.** Names with the mark of built-in modules are those of built-in ones. -/
def loadModule (ev : Evaluator) (source : String) : Run ScopeId := do
  let mark := (← Action.read (·.settings.builtinMark)).toList
  if mark.isPrefixOf source.toList then
    loadBuiltin (String.ofList (source.toList.drop mark.length))
  else ev.loadFile source

/-- Link picked names to a module. A name that the module does not have is a fault right away. -/
def linkPicks (root : ScopeId) : List Pick → Run Unit
  | [] => return ()
  | p :: rest => do
    let _ ← readModule root p.name.name
    let current ← Action.read (·.current)
    let name := p.localName.name
    Run.onScopes fun scopes => scopes.link current name root
    if p.called.isSome then
      Action.change fun m => { m with scopes := m.scopes.setAlias current name p.name.name }
    linkPicks root rest

def useModule (ev : Evaluator) (source : String) (called : Option Ident) (picks : List Pick) : Run Flow := do
  let root ← ev.loadModule source
  let current ← Action.read (·.current)
  match called with
  | some name => Run.declare current name.name (.module root) true
  | none => pure ()
  linkPicks root picks
  if called.isNone && picks.isEmpty then
    Run.onScopes fun scopes => scopes.link current "*" root
  return .value .nil

/-! ## Loops -/

/-- What a round of a loop binds: its key and its element, and which of them a single variable is. -/
structure LoopRound where
  key : Value
  element : Value
  keyed : Bool := false

def loopRound (ev : Evaluator) (key : Ident) (value : Option Ident) (body : Block) (r : LoopRound) : Run Flow := do
  let scope ← Run.newScope
  match value with
  | some value =>
    Run.declare scope key.name r.key false
    Run.declare scope value.name r.element false
  | none => Run.declare scope key.name (if r.keyed then r.key else r.element) false
  ev.block body scope

def loopOver (ev : Evaluator) (key : Ident) (value : Option Ident) (body : Block) : List LoopRound → Run Flow
  | [] => return .value .nil
  | r :: rest => do
    match ← ev.loopRound key value body r with
    | .value _ => loopOver ev key value body rest
    | .give v => return .give v

def loopRange (ev : Evaluator) (key : Ident) (value : Option Ident) (body : Block) (last : Float) :
    Nat → Float → Float → Run Flow
  | 0, _, _ => Action.exhaust
  | bound + 1, x, i => do
    if x ≤ last then
      match ← ev.loopRound key value body { key := .number i, element := .number x } with
      | .value _ => loopRange ev key value body last bound (x + 1) (i + 1)
      | .give v => return .give v
    else return .value .nil

/-- A loop. The elements of an array and the fields of an object are those at the start. -/
def loop (ev : Evaluator) (key : Ident) (value : Option Ident) (iterated : Expr) (body : Block) : Run Flow := do
  match ← ev.evaluate iterated with
  | .range first last => ev.loopRange key value body last ev.rounds first 0
  | .array ref =>
    let elements ← Action.read fun m => m.heap.elements ref
    ev.loopOver key value body
      (elements.toList.zipIdx.map fun (v, i) => { key := .ofNat i, element := v })
  | .object ref =>
    let fields ← Action.read fun m => m.heap.fields ref
    ev.loopOver key value body
      (fields.entries.map fun (name, v) => { key := .text name, element := v, keyed := true })
  | other => Run.fail (.notIterable (← Run.tagOf other)) iterated.span

/-! ## Forms -/

def declareFunction (kind : FunctionKind) (name : Ident) (params : List Ident) (body : Block) : Run Flow := do
  let f ← makeFunction kind name.name params body
  Run.declare (← Action.read (·.current)) name.name f false
  return .value .nil

def performStep (ev : Evaluator) (s : Stmt) : Run Flow := do
  match s.form with
  | .useModule source called picks => ev.useModule source called picks
  | .expose declaration =>
    let flow ← ev.perform declaration
    match declaration.form.declaredName? with
    | some name =>
      Action.change fun m => { m with scopes := m.scopes.expose m.current name.name }
      return flow
    | none => return flow
  | .declareTask name params body => declareFunction .task name params body
  | .declareFunction name params body => declareFunction .plain name params body
  | .declare name constant value =>
    let v ← ev.evaluate value
    Run.declare (← Action.read (·.current)) name.name v constant
    return .value .nil
  | .branch condition consequent alternate =>
    if ← ev.condition condition then ev.innerBlock consequent
    else
      match alternate with
      | some (.block b) => ev.innerBlock b
      | some (.branch s) => ev.execute s
      | none => return .value .nil
  | .loop key value iterated body => ev.loop key value iterated body
  | .give none => return .give .nil
  | .give (some value) => return .give (← ev.evaluate value)
  | .expression e => return .value (← ev.evaluate e)
  | .comment _ => return .value .nil
  | .blankLine => return .value .nil

/-- **Execute a statement**: whoever observes the run is told, and then it is done. -/
def executeStep (ev : Evaluator) (s : Stmt) : Run Flow := do
  Run.observe s
  Run.recorded s.span (ev.perform s)

end Evaluator

end Trellis
