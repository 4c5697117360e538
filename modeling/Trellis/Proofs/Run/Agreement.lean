import Trellis.Proofs.Run.Core

/-!
# Actions that agree

Two actions are carried out side by side, on machines with the same core that nobody observes. They *agree*
(`Run.Agrees`) if both are done with the same value, or both fail with faults that differ in their places at
most, or both are exhausted, and the machines behind them have the same core again.

Agreement is symmetric and transitive, so two actions agree if both of them agree with a third one
(`Run.Agrees.meet`).
-/

namespace Trellis

/-- Two options that a function does not tell apart are both empty, or hold things that it does not tell
apart. -/
theorem rel_of_map_eq {α β : Type} {f : α → β} {o o' : Option α} (h : o.map f = o'.map f) :
    Option.Rel (fun a a' => f a = f a') o o' := by
  cases o with
  | none =>
    cases o' with
    | none => exact .none
    | some a' => cases h
  | some a =>
    cases o' with
    | none => cases h
    | some a' => exact .some (Option.some.inj h)

/-! ## Machines and outcomes -/

/-- **Two machines are alike** if they have the same core and nobody observes them. -/
structure Machine.Like (m m' : Machine) : Prop where
  core : m.core = m'.core
  unobserved : m.observer = .nobody

namespace Machine.Like

variable {m m' m'' : Machine}

theorem symm (h : m.Like m') : m'.Like m where
  core := h.core.symm
  unobserved := (congrArg Machine.observer h.core).symm.trans h.unobserved

theorem trans (h : m.Like m') (h' : m'.Like m'') : m.Like m'' :=
  ⟨h.core.trans h'.core, h.unobserved⟩

variable (h : m.Like m')

include h

theorem reads {α : Type} {f : Machine → α} (hf : ∀ n : Machine, f n.core = f n) : f m = f m' := by
  rw [← hf m, h.core, hf]

theorem scopes : m.scopes = m'.scopes := h.reads fun _ => rfl

theorem current : m.current = m'.current := h.reads fun _ => rfl

theorem settings : m.settings = m'.settings := h.reads fun _ => rfl

theorem files : m.files = m'.files := h.reads fun _ => rfl

theorem currentFile : m.currentFile = m'.currentFile := h.reads fun _ => rfl

theorem heap : m.heap.core = m'.heap.core := congrArg Machine.heap h.core

theorem tasks : m.tasks.core = m'.tasks.core := congrArg Machine.tasks h.core

theorem log : m.log.core = m'.log.core := congrArg Machine.log h.core

theorem onHeap {α : Type} {f : Heap → α} (hf : ∀ heap, f heap.core = f heap) : f m.heap = f m'.heap := by
  rw [← hf m.heap, h.heap, hf]

theorem function? (ref : Ref) :
    Option.Rel (fun f f' => f.core = f'.core) m.heap.functions[ref]? m'.heap.functions[ref]? := by
  apply rel_of_map_eq
  rw [← Heap.getElem?_functions_core, ← Heap.getElem?_functions_core, h.heap]

theorem pop? :
    Option.Rel (fun popped popped' => (popped.1.core, popped.2.core) = (popped'.1.core, popped'.2.core))
      m.tasks.pop? m'.tasks.pop? := by
  apply rel_of_map_eq
  rw [← TaskQueue.pop?_core, ← TaskQueue.pop?_core, h.tasks]

theorem build? (name : String) :
    Option.Rel (fun built built' => (built.1, built.2.core) = (built'.1, built'.2.core))
      (m.registry.build? name m.clock.now m.heap) (m'.registry.build? name m'.clock.now m'.heap) := by
  apply rel_of_map_eq
  rw [← Registry.build?_core, ← Registry.build?_core]
  exact congrArg (fun n : Machine => n.registry.build? name n.clock.now n.heap) h.core

theorem change {f : Machine → Machine} (core : ∀ n, (f n).core = f n.core)
    (observer : ∀ n, (f n).observer = n.observer) : (f m).Like (f m') where
  core := by rw [core, core, h.core]
  unobserved := (observer m).trans h.unobserved

theorem moveTo (scope : ScopeId) : { m with current := scope }.Like { m' with current := scope } :=
  h.change (f := fun n => { n with current := scope }) (fun _ => rfl) fun _ => rfl

theorem withScopes (scopes : Scopes) : { m with scopes }.Like { m' with scopes } :=
  h.change (f := fun n => { n with scopes }) (fun _ => rfl) fun _ => rfl

theorem withHeap {heap heap' : Heap} (hheap : heap.core = heap'.core) :
    { m with heap }.Like { m' with heap := heap' } where
  core := by
    show { m.core with heap := heap.core } = { m'.core with heap := heap'.core }
    rw [h.core, hheap]
  unobserved := h.unobserved

theorem withTasks {tasks tasks' : TaskQueue} (htasks : tasks.core = tasks'.core) :
    { m with tasks }.Like { m' with tasks := tasks' } where
  core := by
    show { m.core with tasks := tasks.core } = { m'.core with tasks := tasks'.core }
    rw [h.core, htasks]
  unobserved := h.unobserved

theorem withLog {log log' : FaultLog} (hlog : log.core = log'.core) :
    { m with log }.Like { m' with log := log' } where
  core := by
    show { m.core with log := log.core } = { m'.core with log := log'.core }
    rw [h.core, hlog]
  unobserved := h.unobserved

theorem note {event event' : Event} (hevent : event.core = event'.core) : (m.note event).Like (m'.note event') where
  core := by
    show m.core.note event.core = m'.core.note event'.core
    rw [h.core, hevent]
  unobserved := h.unobserved

end Machine.Like

/-- **Two outcomes are alike**: the same value or faults with the same core, and machines that are alike. -/
inductive Outcome.Alike {α : Type} : Outcome Machine α → Outcome Machine α → Prop
  | done (a : α) {m m'} (h : m.Like m') : Alike (.done a m) (.done a m')
  | failed {fault fault' m m'} (hfault : fault.core = fault'.core) (h : m.Like m') :
    Alike (.failed fault m) (.failed fault' m')
  | exhausted : Alike .exhausted .exhausted

namespace Outcome.Alike

variable {α : Type} {o o' o'' : Outcome Machine α}

theorem symm (h : o.Alike o') : o'.Alike o := by
  cases h with
  | done a h => exact .done a h.symm
  | failed hfault h => exact .failed hfault.symm h.symm
  | exhausted => exact .exhausted

theorem trans (h : o.Alike o') (h' : o'.Alike o'') : o.Alike o'' := by
  cases h with
  | done a h =>
    cases h' with
    | done _ h' => exact .done a (h.trans h')
  | failed hfault h =>
    cases h' with
    | failed hfault' h' => exact .failed (hfault.trans hfault') (h.trans h')
  | exhausted => exact h'

end Outcome.Alike

/-! ## Actions -/

namespace Run

variable {α β : Type}

/-- **Two actions agree**: on machines that are alike they have outcomes that are alike. -/
def Agrees (x x' : Run α) : Prop :=
  ∀ m m', m.Like m' → (x m).Alike (x' m')

/-- **An action is indifferent** if it agrees with itself: it does not depend on what a core leaves out. -/
abbrev IsIndifferent (x : Run α) : Prop :=
  Agrees x x

namespace Agrees

theorem meet {x x' y : Run α} (h : Agrees x y) (h' : Agrees x' y) : Agrees x x' :=
  fun m m' hm => (h m m' hm).trans (h' m' m' (hm.symm.trans hm)).symm

theorem pure (a : α) : IsIndifferent (Pure.pure a) := fun _ _ hm => .done a hm

theorem exhaust : Agrees (Action.exhaust : Run α) Action.exhaust := fun _ _ _ => .exhausted

theorem raise (fault : Fault) : IsIndifferent (Action.fail fault : Run α) :=
  fun _ _ hm => .failed rfl hm

theorem fail (cause : Cause) (span span' : Span) : Agrees (Run.fail cause span : Run α) (Run.fail cause span') :=
  fun _ _ hm => .failed rfl hm

variable {x x' : Run α}

theorem bind {f f' : α → Run β} (hx : Agrees x x') (hf : ∀ a, Agrees (f a) (f' a)) :
    Agrees (x >>= f) (x' >>= f') := by
  intro m m' hm
  rw [Action.bind_apply, Action.bind_apply]
  have first := hx m m' hm
  generalize x m = o at first ⊢
  generalize x' m' = o' at first ⊢
  cases first with
  | done a h => exact hf a _ _ h
  | failed hfault h => exact .failed hfault h
  | exhausted => exact .exhausted

theorem read_bind {f f' : Machine → α} {R : α → α → Prop} {k k' : α → Run β}
    (hf : ∀ m m', m.Like m' → R (f m) (f' m')) (hk : ∀ a a', R a a' → Agrees (k a) (k' a')) :
    Agrees (Action.read f >>= k) (Action.read f' >>= k') :=
  fun m m' hm => hk (f m) (f' m') (hf m m' hm) m m' hm

theorem read {f f' : Machine → α} (hf : ∀ m m', m.Like m' → f m = f' m') :
    Agrees (Action.read f) (Action.read f') := by
  intro m m' hm
  rw [Action.read_apply, Action.read_apply, hf m m' hm]
  exact .done _ hm

theorem readCore {f : Machine → α} (hf : ∀ n : Machine, f n.core = f n) : IsIndifferent (Action.read f) :=
  read fun _ _ hm => hm.reads hf

theorem change {f f' : Machine → Machine} (hf : ∀ m m', m.Like m' → (f m).Like (f' m')) :
    Agrees (Action.change f) (Action.change f') :=
  fun m m' hm => .done () (hf m m' hm)

theorem changeCore {f : Machine → Machine} (core : ∀ n, (f n).core = f n.core)
    (observer : ∀ n, (f n).observer = n.observer) : IsIndifferent (Action.change f) :=
  change fun _ _ hm => hm.change core observer

theorem alloc {f : Heap → α × Heap} (hf : ∀ h, f h.core = ((f h).1, (f h).2.core)) : IsIndifferent (Run.alloc f) := by
  intro m m' hm
  have same : ((f m.heap).1, (f m.heap).2.core) = ((f m'.heap).1, (f m'.heap).2.core) := by
    rw [← hf, hm.heap, hf]
  obtain ⟨value, heap⟩ := Prod.mk.inj same
  show Outcome.Alike (.done (f m.heap).1 _) (.done (f m'.heap).1 _)
  rw [value]
  exact .done _ (hm.withHeap heap)

theorem onScopes (f : Scopes → Except Fault Scopes) : IsIndifferent (Run.onScopes f) := by
  intro m m' hm
  unfold Run.onScopes
  rw [hm.scopes]
  cases f m'.scopes with
  | ok scopes => exact .done () (hm.withScopes scopes)
  | error fault => exact .failed rfl hm

theorem declare (scope : ScopeId) (name : String) (v : Value) (static : Bool) :
    IsIndifferent (Run.declare scope name v static) := by
  intro m m' hm
  unfold Run.declare
  rw [hm.scopes]
  cases m'.scopes.declareFault? scope name with
  | some fault => exact .failed rfl hm
  | none => exact .done () (hm.withScopes _)

theorem newScope : IsIndifferent Run.newScope := by
  intro m m' hm
  have same : m.scopes.addChild m.current = m'.scopes.addChild m'.current := by
    rw [hm.scopes, hm.current]
  unfold Run.newScope
  dsimp only
  rw [same]
  exact .done _ (hm.withScopes _)

theorem within (h : Agrees x x') (scope : ScopeId) : Agrees (Run.within scope x) (Run.within scope x') := by
  intro m m' hm
  unfold Run.within
  have inside := h _ _ (hm.moveTo scope)
  rw [hm.current]
  dsimp only
  generalize x _ = o at inside ⊢
  generalize x' _ = o' at inside ⊢
  cases inside with
  | done a h => exact .done a (h.moveTo _)
  | failed hfault h => exact .failed hfault (h.moveTo _)
  | exhausted => exact .exhausted

theorem onFault {f f' : Fault → Machine → Fault × Machine} (h : Agrees x x')
    (hf : ∀ fault fault' m m', fault.core = fault'.core → m.Like m' →
      (f fault m).1.core = (f' fault' m').1.core ∧ (f fault m).2.Like (f' fault' m').2) :
    Agrees (x.onFault f) (x'.onFault f') := by
  intro m m' hm
  unfold Action.onFault
  have inside := h m m' hm
  generalize x m = o at inside ⊢
  generalize x' m' = o' at inside ⊢
  cases inside with
  | done a h => exact .done a h
  | failed hfault h =>
    obtain ⟨sameFault, like⟩ := hf _ _ _ _ hfault h
    exact .failed sameFault like
  | exhausted => exact .exhausted

theorem recorded (h : Agrees x x') (span span' : Span) : Agrees (Run.recorded span x) (Run.recorded span' x') := by
  refine h.onFault fun fault fault' m m' hfault hm => ?_
  -- the places are given up in the core, and the file depends on the scopes alone
  have same : ((fault.located span).inFile m.currentFile).core =
      ((fault'.located span').inFile m'.currentFile).core := by
    rw [Fault.core_inFile, Fault.core_inFile, Fault.core_located, Fault.core_located, hfault,
      hm.currentFile]
  refine ⟨same, hm.withLog ?_⟩
  rw [FaultLog.core_record, FaultLog.core_record, same, hm.log]

end Agrees

end Run

end Trellis
