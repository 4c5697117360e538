import Trellis.Proofs.Run.Errands

/-!
# Using modules

What has to be shown of the use of a module differs from one property of runs to the next, but how its parts are put
together does not. So that is told once: if a property of actions is kept where actions are put in a row, and if the
parts have it, then the use of a module has it (`Evaluator.Modular.useModule`).
-/

namespace Trellis.Evaluator

/-- **A property of actions that the use of modules has**, since its parts have it. What the use of a module comes
to may be known as well, and is told by the second property. -/
structure Modular (ev : Evaluator) (K : ∀ {α : Type}, Run α → Prop) (L : Run Flow → Prop) : Prop where
  pure : ∀ {α : Type} (a : α), K (Pure.pure a : Run α)
  bind : ∀ {α β : Type} {x : Run α} {f : α → Run β}, K x → (∀ a, K (f a)) → K (x >>= f)
  last : L (Pure.pure (.value .nil))
  lead : ∀ {α : Type} {x : Run α} {f : α → Run Flow}, K x → (∀ a, L (f a)) → L (x >>= f)
  raise : ∀ {α : Type} (cause : Cause), K (Action.fail (.managing cause) : Run α)
  read : ∀ {α : Type} (f : Settings → ModuleTable → ScopeId → α),
    K (Action.read fun m => f m.settings m.modules m.current)
  table : ∀ f : ModuleTable → ModuleTable, K (Action.change fun m => { m with modules := f m.modules })
  path : ∀ source, K (modulePath source)
  builtin : ∀ name, K (loadBuiltin name)
  evaluated : ∀ path, K ((ev.evaluateModule path).onFault fun fault m =>
    (fault, { m with modules := m.modules.abandon (.file path) }))
  declare : ∀ scope name root, K (Run.declare scope name (.module root) true)
  picks : ∀ root picks, K (linkPicks root picks)
  link : ∀ scope root, K (Run.onScopes fun scopes => scopes.link scope "*" root)

namespace Modular

variable {ev : Evaluator} {K : ∀ {α : Type}, Run α → Prop} {L : Run Flow → Prop}

theorem loadFile (h : ev.Modular K L) (source : String) : K (ev.loadFile source) := by
  refine h.bind (h.path source) fun path => h.bind (h.read fun _ modules _ => modules.root? (.file path)) fun root? => ?_
  cases root? with
  | some root => exact h.pure root
  | none =>
    refine h.bind (h.read fun _ modules _ => modules) fun modules => h.bind ?_ fun modules =>
      h.bind (h.table fun _ => modules) fun _ => h.bind (h.evaluated path) fun root =>
        h.bind (h.table fun modules => modules.finish (.file path) root) fun _ => h.pure root
    unfold ModuleTable.start
    split
    · exact h.raise _
    · exact h.pure _

theorem loadModule (h : ev.Modular K L) (source : String) : K (ev.loadModule source) := by
  refine h.bind (h.read fun settings _ _ => settings.builtinMark) fun mark => ?_
  dsimp only
  split
  · exact h.builtin _
  · exact h.loadFile source

theorem useModule (h : ev.Modular K L) (source : String) (called : Option Ident) (picks : List Pick) :
    L (ev.useModule source called picks) := by
  refine h.lead (h.loadModule source) fun root => h.lead (h.read fun _ _ current => current) fun current => ?_
  have links (all : Bool) : L (do
      linkPicks root picks
      if all then
        Run.onScopes fun scopes => scopes.link current "*" root
      return .value .nil) := by
    refine h.lead (h.picks root picks) fun _ => ?_
    cases all with
    | false => exact h.last
    | true => exact h.lead (h.link current root) fun _ => h.last
  cases called with
  | none => exact links _
  | some name => exact h.lead (h.declare current name.name root) fun _ => links _

end Modular

end Trellis.Evaluator
