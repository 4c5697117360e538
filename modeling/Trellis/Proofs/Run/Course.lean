import Trellis.Evaluation
import Trellis.Proofs.Script.Every

/-!
# Courses of a run

What a piece of a run does to the machine is a *course*: a sequence of single changes, some of which are brackets
around a course of their own. A block is a bracket: a scope is made, a course follows with that scope as the current
one, and then the former scope is the current one again. So are the call of a function, the loading of a module and
the work on a job. The relation `Course` says once what evaluation can do; an invariant of runs is an induction on
courses. A course has three marks.

* Its *reach*: a course that stays `inside` declares names only in scopes that it makes itself, while one
  that goes on `here` may also declare them in the current scope.
* Whether the code that is executed *waits* anywhere. Only then are jobs taken out of the queue.
* Whether it is *whole*. A fault breaks off a course, with all brackets around it, at the place where it is
  raised. The brackets are still closed, though not in the same way.
-/

namespace Trellis

def ExprForm.isWaitless : ExprForm → Bool
  | wait _ => false
  | _ => true

def ModuleTable.HasRoot (t : ModuleTable) (root : ScopeId) : Prop :=
  ∃ key, (key, root) ∈ t.loaded

namespace Machine

def moveTo (m : Machine) (scope : ScopeId) : Machine :=
  { m with current := scope }

def enter (m : Machine) (made : ScopeId × Scopes) : Machine :=
  { m with scopes := made.2, current := made.1 }

/-- **A change that is no concern of scopes, functions, tasks and modules.** Arrays and objects may be
made and written, texts written, files changed, faults recorded, and observers told. -/
structure Quiet (m m' : Machine) : Prop where
  settings : m'.settings = m.settings
  keywords : m'.keywords = m.keywords
  registry : m'.registry = m.registry
  scopes : m'.scopes = m.scopes
  current : m'.current = m.current
  functions : m'.heap.functions = m.heap.functions
  tasks : m'.tasks = m.tasks
  modules : m'.modules = m.modules
  journal : m'.journal = m.journal

theorem Quiet.refl (m : Machine) : m.Quiet m :=
  ⟨rfl, rfl, rfl, rfl, rfl, rfl, rfl, rfl, rfl⟩

theorem Quiet.trans {m m₁ m₂ : Machine} (h₁ : m.Quiet m₁) (h₂ : m₁.Quiet m₂) : m.Quiet m₂ where
  settings := h₂.settings.trans h₁.settings
  keywords := h₂.keywords.trans h₁.keywords
  registry := h₂.registry.trans h₁.registry
  scopes := h₂.scopes.trans h₁.scopes
  current := h₂.current.trans h₁.current
  functions := h₂.functions.trans h₁.functions
  tasks := h₂.tasks.trans h₁.tasks
  modules := h₂.modules.trans h₁.modules
  journal := h₂.journal.trans h₁.journal

def schedule (m : Machine) (callee : Value) (arguments : List Value)
    (continuations : List Continuation) (span : Span) : Machine :=
  let job : Job :=
    { task := m.tasks.reserve.1, callee, arguments, continuations, scope := m.current, span }
  { m with tasks := m.tasks.reserve.2.push job }.note (.scheduled m.tasks.reserve.1)

def begin (m : Machine) (job : Job) : Machine :=
  (m.note (.started job.task)).moveTo job.scope

def complete (m : Machine) (job : Job) (v : Value) : Machine :=
  { m with tasks := m.tasks.resolve job.task v }.note (.resolved job.task v)

end Machine

inductive Reach where
  /-- Only in scopes that it makes itself. -/
  | inside
  | here
deriving DecidableEq, Repr

/-- **What a piece of a run can do to a machine.** The marks are whether the code waits, the reach, and
whether the course is whole. -/
inductive Course : Bool → Reach → Bool → Machine → Machine → Prop where
  | quiet {w r m m'} (h : m.Quiet m') : Course w r true m m'
  | seq {w r whole m m₁ m₂} (first : Course w r true m m₁) (second : Course w r whole m₁ m₂) : Course w r whole m m₂
  | stop {w r m m'} (h : Course w r true m m') : Course w r false m m'
  /-- A fault is recorded on its way out. -/
  | pass {w r m m₁ m₂} (h : Course w r false m m₁) (record : m₁.Quiet m₂) : Course w r false m m₂
  | widen {w whole m m'} (h : Course w .inside whole m m') : Course w .here whole m m'
  | assign {w m owner} (name : String) (v : Value)
      (h : m.scopes.assignee m.current name = .ok owner) :
      Course w .inside true m { m with scopes := m.scopes.replace owner name v }
  /-- A function is made in the current scope. -/
  | function {w m} (f : Closure) (scope : f.scope = m.current)
      (code : w = true ∨ f.body.every ExprForm.isWaitless = true) :
      Course w .inside true m { m with heap := (m.heap.newFunction f).2 }
  | schedule {w m} (callee : Value) (arguments : List Value) (continuations : List Continuation)
      (span : Span) : Course w .inside true m (m.schedule callee arguments continuations span)
  /-- The oldest job is taken out of the queue and done. -/
  | work {m m₁ job tasks} (v : Value) (pop : m.tasks.pop? = some (job, tasks))
      (pipeline : Course true .inside true ({ m with tasks }.begin job) m₁) :
      Course true .inside true m ((m₁.moveTo m.current).complete job v)
  | workStopped {m m₁ job tasks} (pop : m.tasks.pop? = some (job, tasks))
      (pipeline : Course true .inside false ({ m with tasks }.begin job) m₁) :
      Course true .inside false m (m₁.moveTo m.current)
  /-- Something is done in a new scope inside of the current one. -/
  | block {w whole m m₁}
      (body : Course w .here whole (m.enter (m.scopes.addChild m.current)) m₁) :
      Course w .inside whole m (m₁.moveTo m.current)
  /-- A function is called, in a new scope inside of the one it was made in. -/
  | call {w whole m m₁} (f : Closure) (made : f ∈ m.heap.functions)
      (body : Course (!f.body.every ExprForm.isWaitless) .here whole
        ((m.note (.called f)).enter (m.scopes.addChild f.scope)) m₁) :
      Course w .inside whole m (m₁.moveTo m.current)
  | declare {w m} (name : String) (v : Value) (static : Bool)
      (h : m.scopes.declareFault? m.current name = none) :
      Course w .here true m { m with scopes := m.scopes.addBinding m.current name v static }
  | expose {w m} (name : String) : Course w .here true m { m with scopes := m.scopes.expose m.current name }
  /-- A name, or all names, are linked to a module that was evaluated. -/
  | link {w m root scopes} (name : String)
      (loaded : m.modules.HasRoot root)
      (h : m.scopes.link m.current name root = .ok scopes) :
      Course w .here true m { m with scopes }
  | setAlias {w m} (name remote : String) :
      Course w .here true m { m with scopes := m.scopes.setAlias m.current name remote }
  /-- A built-in module is made in a root of its own. -/
  | builtin {w m m₁} (name : String) (miss : m.modules.root? (.builtin name) = none)
      (exports : Course w .here true (m.enter (m.scopes.addRoot none)) m₁) :
      Course w .inside true m
        { m₁.moveTo m.current with
          modules := m₁.modules.finish (.builtin name) (m.scopes.addRoot none).1 }
  | builtinStopped {w m m₁} (name : String) (miss : m.modules.root? (.builtin name) = none)
      (exports : Course w .here false (m.enter (m.scopes.addRoot none)) m₁) :
      Course w .inside false m (m₁.moveTo m.current)
  /-- A module is read from its file and evaluated in a root of its own. -/
  | load {w m m₁ modules} (path : Path) (program : Program)
      (miss : m.modules.root? (.file path) = none)
      (start : m.modules.start (.file path) = .ok modules)
      (body : Course (!program.every ExprForm.isWaitless) .here true
        (({ m with modules }.note (.moduleRead path program)).enter
          (m.scopes.addRoot (some path))) m₁) :
      Course w .inside true m
        { m₁.moveTo m.current with
          modules := m₁.modules.finish (.file path) (m.scopes.addRoot (some path)).1 }
  | loadStopped {w m m₁ modules} (path : Path) (program : Program)
      (miss : m.modules.root? (.file path) = none)
      (start : m.modules.start (.file path) = .ok modules)
      (body : Course (!program.every ExprForm.isWaitless) .here false
        (({ m with modules }.note (.moduleRead path program)).enter
          (m.scopes.addRoot (some path))) m₁) :
      Course w .inside false m
        { m₁.moveTo m.current with modules := m₁.modules.abandon (.file path) }
  /-- The file of a module cannot be read. -/
  | unread {w m modules} (path : Path) (miss : m.modules.root? (.file path) = none)
      (start : m.modules.start (.file path) = .ok modules) :
      Course w .inside false m { m with modules := modules.abandon (.file path) }

namespace Course

variable {w : Bool} {r : Reach} {whole : Bool} {m m' m₁ : Machine}

theorem refl (m : Machine) : Course w r true m m :=
  .quiet (.refl m)

theorem reaching (h : Course w .inside whole m m') (r : Reach) : Course w r whole m m' := by
  cases r with
  | inside => exact h
  | here => exact .widen h

theorem current (h : Course w r whole m m') : m'.current = m.current := by
  induction h with
  | quiet h => exact h.current
  | seq _ _ ih₁ ih₂ => exact ih₂.trans ih₁
  | stop _ ih => exact ih
  | pass _ record ih => exact record.current.trans ih
  | widen _ ih => exact ih
  | _ => rfl

theorem journal (h : Course w r whole m m') : ∃ new, m'.journal = new ++ m.journal := by
  have behind {j j' : List Event} {event : Event} (h : ∃ new, j' = new ++ event :: j) : ∃ new, j' = new ++ j := by
    obtain ⟨new, hj⟩ := h
    exact ⟨new ++ [event], hj.trans (List.append_cons _ _ _)⟩
  induction h with
  | quiet h => exact ⟨[], h.journal⟩
  | seq _ _ ih₁ ih₂ =>
    obtain ⟨new₁, h₁⟩ := ih₁
    obtain ⟨new₂, h₂⟩ := ih₂
    exact ⟨new₂ ++ new₁, by rw [h₂, h₁, List.append_assoc]⟩
  | stop _ ih => exact ih
  | pass _ record ih => rw [record.journal]; exact ih
  | widen _ ih => exact ih
  | schedule callee arguments continuations span => exact ⟨[_], rfl⟩
  | work v _ _ ih =>
    obtain ⟨new, hj⟩ := behind ih
    exact ⟨_ :: new, congrArg (_ :: ·) hj⟩
  | workStopped _ _ ih => exact behind ih
  | block _ ih => exact ih
  | call _ _ _ ih => exact behind ih
  | builtin _ _ _ ih => exact ih
  | builtinStopped _ _ _ ih => exact ih
  | load _ _ _ _ _ ih => exact behind ih
  | loadStopped _ _ _ _ _ ih => exact behind ih
  | _ => exact ⟨[], rfl⟩

theorem hasRoot {root : ScopeId} (h : Course w r whole m m') (hm : m.modules.HasRoot root) :
    m'.modules.HasRoot root := by
  have started {t t' : ModuleTable} {key : ModuleKey} (h : t.start key = .ok t')
      (ht : t.HasRoot root) : t'.HasRoot root := by
    unfold ModuleTable.start at h
    split at h
    · cases h
    · cases h
      exact ht
  have finished {t : ModuleTable} (key : ModuleKey) (other : ScopeId) (ht : t.HasRoot root) :
      (t.finish key other).HasRoot root := by
    obtain ⟨own, h⟩ := ht
    exact ⟨own, .tail _ h⟩
  induction h with
  | quiet h => rw [h.modules]; exact hm
  | seq _ _ ih₁ ih₂ => exact ih₂ (ih₁ hm)
  | stop _ ih => exact ih hm
  | pass _ record ih => rw [record.modules]; exact ih hm
  | widen _ ih => exact ih hm
  | work _ _ _ ih => exact ih hm
  | workStopped _ _ ih => exact ih hm
  | block _ ih => exact ih hm
  | call _ _ _ ih => exact ih hm
  | builtin name _ _ ih => exact finished _ _ (ih hm)
  | builtinStopped name _ _ ih => exact ih hm
  | load path _ _ start _ ih => exact finished _ _ (ih (started start hm))
  | loadStopped path _ _ start _ ih => exact ih (started start hm)
  | unread path _ start =>
    obtain ⟨own, h⟩ := started start hm
    exact ⟨own, h⟩
  | _ => exact hm

end Course

/-! ## Actions that follow courses -/

/-- How an outcome ends, unless it is exhausted: whether it is done, and with which state. -/
def Outcome.Ends {σ α : Type} (P : Bool → σ → Prop) : Outcome σ α → Prop
  | .done _ s => P true s
  | .failed _ s => P false s
  | .exhausted => True

variable {σ α : Type} {o : Outcome σ α}

theorem Outcome.Ends.done {P : Bool → σ → Prop} (h : o.Ends P) {a : α} {s : σ} (ho : o = .done a s) : P true s := by
  rw [ho] at h
  exact h

theorem Outcome.Ends.failed {P : Bool → σ → Prop} (h : o.Ends P) {fault : Fault} {s : σ} (ho : o = .failed fault s) :
    P false s := by
  rw [ho] at h
  exact h

theorem Outcome.Ends.imp {P Q : Bool → σ → Prop} (h : o.Ends P) (hpq : ∀ whole s, P whole s → Q whole s) :
    o.Ends Q := by
  cases o with
  | done a s => exact hpq true s h
  | failed fault s => exact hpq false s h
  | exhausted => trivial

theorem Action.ends_bind {σ α β : Type} {x : Action σ α} {f : α → Action σ β} {s : σ}
    {P Q : Bool → σ → Prop} (hx : (x s).Ends Q) (stop : ∀ t, Q false t → P false t)
    (next : ∀ a t, x s = .done a t → Q true t → (f a t).Ends P) : ((x >>= f) s).Ends P := by
  rw [Action.bind_apply]
  cases hs : x s with
  | done a t => exact next a t hs (by rw [hs] at hx; exact hx)
  | failed fault t => exact stop t (by rw [hs] at hx; exact hx)
  | exhausted => trivial

theorem Action.ends_onFault {x : Action σ α} {g : Fault → σ → Fault × σ} {s : σ} {P Q : Bool → σ → Prop}
    (hx : (x s).Ends Q) (done : ∀ t, Q true t → P true t) (failed : ∀ fault t, Q false t → P false (g fault t).2) :
    (x.onFault g s).Ends P := by
  unfold Action.onFault
  cases hs : x s with
  | done a t => exact done t (by rw [hs] at hx; exact hx)
  | failed fault t => exact failed fault t (by rw [hs] at hx; exact hx)
  | exhausted => trivial

namespace Machine

variable {m m' : Machine} {depth : Nat} {p : Program}

/-- **A program is run in a pass.** If the pass fails, the fault that was recorded first is shown, and the jobs that
wait are dropped. -/
theorem interpretTo_eq (depth : Nat) (p : Program) (m : Machine) : interpretTo depth p m =
    (pass (.ofDepth depth) p).onFault (fun fault m =>
      (m.log.surface fault, { m with tasks := m.tasks.clear, log := {} })) { m with log := {} } := by
  unfold interpretTo Action.onFault
  cases pass (.ofDepth depth) p { m with log := {} } <;> rfl

theorem ends_interpretTo {P Q : Bool → Machine → Prop}
    (h : (pass (.ofDepth depth) p { m with log := {} }).Ends Q) (done : ∀ m', Q true m' → P true m')
    (failed : ∀ m', Q false m' → P false { m' with tasks := m'.tasks.clear, log := {} }) :
    (interpretTo depth p m).Ends P := by
  rw [interpretTo_eq]
  exact Action.ends_onFault h done fun _ => failed

theorem pass_of_done {v : Value} (h : interpretTo depth p m = .done v m') :
    pass (.ofDepth depth) p { m with log := {} } = .done v m' := by
  unfold interpretTo at h
  cases hpass : pass (.ofDepth depth) p { m with log := {} } <;> rw [hpass] at h <;> cases h
  rfl

theorem pass_of_failed {shown : Fault} (h : interpretTo depth p m = .failed shown m') :
    ∃ fault m₁, pass (.ofDepth depth) p { m with log := {} } = .failed fault m₁ ∧ shown = m₁.log.surface fault ∧
      m' = { m₁ with tasks := m₁.tasks.clear, log := {} } := by
  unfold interpretTo at h
  cases hpass : pass (.ofDepth depth) p { m with log := {} } <;> rw [hpass] at h <;> cases h
  exact ⟨_, _, rfl, rfl, rfl⟩

end Machine

namespace Run

variable {α β : Type} {w : Bool} {r : Reach} {m : Machine} {x : Run α} {f : α → Run β}

def FollowsAt (w : Bool) (r : Reach) (x : Run α) (m : Machine) : Prop :=
  (x m).Ends fun whole m' => Course w r whole m m'

def Follows (w : Bool) (r : Reach) (x : Run α) : Prop :=
  ∀ m, FollowsAt w r x m

def FollowsIn (w : Bool) (r : Reach) (scope : ScopeId) (x : Run α) : Prop :=
  ∀ m, (x m).Ends fun whole m' =>
    ∃ m₁, Course w r whole (m.moveTo scope) m₁ ∧ m' = m₁.moveTo m.current

def IsQuiet (x : Run α) : Prop :=
  ∀ m, (x m).Ends fun _ m' => m.Quiet m'

namespace IsQuiet

theorem pure (a : α) : IsQuiet (Pure.pure a) := fun m => .refl m

theorem read (f : Machine → α) : IsQuiet (Action.read f) := fun m => .refl m

theorem fail (cause : Cause) (span : Span) : IsQuiet (Run.fail cause span : Run α) :=
  fun m => .refl m

theorem follows (h : IsQuiet x) : Follows w r x := by
  intro m
  refine (h m).imp fun whole m' hq => ?_
  cases whole with
  | true => exact .quiet hq
  | false => exact .stop (.quiet hq)

end IsQuiet

/-! ### Actions in a row -/

theorem FollowsAt.bind (hx : FollowsAt w r x m) (hf : ∀ a m₁, x m = .done a m₁ → FollowsAt w r (f a) m₁) :
    FollowsAt w r (x >>= f) m :=
  Action.ends_bind hx (fun _ h => h)
    (fun a t hs h₁ => (hf a t hs).imp fun _ _ h₂ => .seq h₁ h₂)

namespace Follows

theorem pure (a : α) : Follows w r (Pure.pure a) := (IsQuiet.pure a).follows

theorem read (f : Machine → α) : Follows w r (Action.read f) := (IsQuiet.read f).follows

theorem fail (cause : Cause) (span : Span) : Follows w r (Run.fail cause span : Run α) :=
  (IsQuiet.fail cause span).follows

theorem exhaust : Follows w r (Action.exhaust : Run α) := fun _ => trivial

theorem bind (hx : Follows w r x) (hf : ∀ a, Follows w r (f a)) : Follows w r (x >>= f) :=
  fun m => (hx m).bind fun a m₁ _ => hf a m₁

theorem read_bind {g : Machine → α} (hf : ∀ m, FollowsAt w r (f (g m)) m) : Follows w r (Action.read g >>= f) :=
  fun m => hf m

theorem reaching (h : Follows w .inside x) (r : Reach) : Follows w r x :=
  fun m => (h m).imp fun _ _ h₁ => h₁.reaching r

theorem here (h : Follows w r x) : Follows w .here x := by
  cases r with
  | inside => exact h.reaching .here
  | here => exact h

theorem recorded (h : Follows w r x) (span : Span) : Follows w r (Run.recorded span x) := fun m =>
  Action.ends_onFault (h m) (fun _ h₁ => h₁)
    (fun _ _ h₁ => .pass h₁ ⟨rfl, rfl, rfl, rfl, rfl, rfl, rfl, rfl, rfl⟩)

end Follows

/-! ### Actions in another scope -/

namespace FollowsIn

variable {scope : ScopeId}

theorem pure (a : α) : FollowsIn w r scope (Pure.pure a) :=
  fun m => ⟨m.moveTo scope, .refl _, rfl⟩

theorem bind (hx : FollowsIn w r scope x) (hf : ∀ a, FollowsIn w r scope (f a)) : FollowsIn w r scope (x >>= f) := by
  intro m
  refine Action.ends_bind (hx m) (fun _ h => h) ?_
  rintro a _ _ ⟨n₁, c₁, rfl⟩
  have h₂ := hf a (n₁.moveTo m.current)
  -- the first action left the scope as the current one, so the second goes on from there
  have back : (n₁.moveTo m.current).moveTo scope = n₁ := by
    show { n₁ with current := scope } = n₁
    rw [show scope = n₁.current from c₁.current.symm]
  rw [back] at h₂
  refine h₂.imp ?_
  rintro whole _ ⟨n₂, c₂, rfl⟩
  exact ⟨n₂, .seq c₁ c₂, rfl⟩

theorem within (h : Follows w r x) : FollowsIn w r scope (Run.within scope x) := by
  intro m
  have inner : (x { m with current := scope }).Ends fun whole m₁ =>
    Course w r whole (m.moveTo scope) m₁ := h (m.moveTo scope)
  unfold Run.within
  cases hm : x { m with current := scope } with
  | done a m₁ =>
    rw [hm] at inner
    exact ⟨m₁, inner, rfl⟩
  | failed fault m₁ =>
    rw [hm] at inner
    exact ⟨m₁, inner, rfl⟩
  | exhausted => trivial

theorem declare (name : String) (v : Value) (static : Bool) :
    FollowsIn w .here scope (Run.declare scope name v static) := by
  intro m
  unfold Run.declare
  cases h : m.scopes.declareFault? scope name with
  | some fault => exact ⟨m.moveTo scope, .stop (.refl _), rfl⟩
  | none => exact ⟨_, .declare name v static h, rfl⟩

theorem recorded (h : FollowsIn w r scope x) (span : Span) : FollowsIn w r scope (Run.recorded span x) := by
  intro m
  refine Action.ends_onFault (h m) (fun _ h₁ => h₁) ?_
  rintro fault _ ⟨n₁, c₁, rfl⟩
  exact ⟨{ n₁ with log := (Run.record span fault (n₁.moveTo m.current)).2.log },
    .pass c₁ ⟨rfl, rfl, rfl, rfl, rfl, rfl, rfl, rfl, rfl⟩, rfl⟩

theorem newScope_bind {f : ScopeId → Run α} (hf : ∀ scope, FollowsIn w .here scope (f scope)) :
    Follows w .inside (Run.newScope >>= f) := by
  intro m
  refine (hf (m.scopes.addChild m.current).1
    { m with scopes := (m.scopes.addChild m.current).2 }).imp ?_
  rintro whole _ ⟨n₁, c₁, rfl⟩
  exact .block c₁

end FollowsIn

end Run

end Trellis
