import Trellis.Proofs.Run.Modules

/-!
# A run does not depend on the layout of its code

The layout of a script is where its parts stand, how they are numbered, and the comments and blank lines between
them. None of this matters to a run that nobody observes: two programs with the same core, run on machines with the
same core, come to the same value or to faults that differ in their places only, and leave machines with the same
core behind (`Machine.agrees_interpretTo`).

Each piece of code is compared with its core (`Evaluator.Indifferent`, `Errand.Doing.agrees`). Two pieces of code with
the same core then agree because both agree with it. This is how a function on one heap is compared with that on the
other. Statements in a row leave out comments and blank lines at no cost of depth, so a script and its core get by
with the same depth.
-/

namespace Trellis

open Run

/-! ## The evaluators that are gone back to -/

/-- **An evaluator is indifferent to layout** if it does the same with a piece of code and with its core. -/
structure Evaluator.Indifferent (ev : Evaluator) : Prop where
  evaluate : ∀ e, Agrees (ev.evaluate e) (ev.evaluate (e.core nowhere))
  execute : ∀ s, Agrees (ev.execute s) (ev.execute (s.core nowhere))
  perform : ∀ s, Agrees (ev.perform s) (ev.perform (s.core nowhere))
  work : ∀ job, Agrees (ev.work job) (ev.work job.core)

namespace Evaluator

variable {ev : Evaluator}

theorem Indifferent.sameJob (hev : ev.Indifferent) {job job' : Job} (h : job.core = job'.core) :
    Agrees (ev.work job) (ev.work job') :=
  (hev.work job).meet (h ▸ hev.work job')

/-! ## Names, functions and jobs -/

theorem isIndifferent_assignName (name : String) (v : Value) : IsIndifferent (assignName name v) := by
  intro m m' hm
  have same : m.scopes.assignee m.current name = m'.scopes.assignee m'.current name := by
    rw [hm.scopes, hm.current]
  unfold assignName
  rw [same, hm.scopes]
  cases m'.scopes.assignee m'.current name with
  | ok owner => exact .done () (hm.withScopes _)
  | error fault => exact .failed (congrArg Fault.core (hm.suggest name fault)) hm

theorem agrees_makeFunction (kind : FunctionKind) (name : String) (params : List Ident)
    (body : Block) :
    Agrees (makeFunction kind name params body)
      (makeFunction kind name (params.map (Ident.core nowhere)) (body.core nowhere)) := by
  intro m m' hm
  unfold makeFunction
  rw [Ident.names_core]
  -- the functions that are stored have the same core, and are stored at the same place
  have stored : (Closure.mk kind name (params.map (·.name)) body m.current).core =
      (Closure.mk kind name (params.map (·.name)) (body.core nowhere) m'.current).core := by
    rw [hm.current]
    exact (Closure.core_core _).symm
  obtain ⟨value, heap⟩ := Heap.core_newFunction m.heap
    (Closure.mk kind name (params.map (·.name)) body m.current)
  obtain ⟨value', heap'⟩ := Heap.core_newFunction m'.heap
    (Closure.mk kind name (params.map (·.name)) (body.core nowhere) m'.current)
  rw [stored, hm.heap] at value heap
  dsimp only
  rw [value.trans value'.symm]
  exact .done _ (hm.withHeap (heap.trans heap'.symm))

theorem agrees_schedule (callee : Value) (arguments : List Value)
    (continuations : List Continuation) (span span' : Span) :
    Agrees (schedule callee arguments continuations span)
      (schedule callee arguments (Continuation.coreOf nowhere continuations) span') := by
  intro m m' hm
  obtain ⟨task, tasks⟩ : m.tasks.reserve.1 = m'.tasks.reserve.1 ∧ m.tasks.reserve.2.core = m'.tasks.reserve.2.core :=
    Prod.mk.inj (congrArg TaskQueue.reserve hm.tasks)
  have job : (Job.mk m.tasks.reserve.1 callee arguments continuations m.current span).core =
      (Job.mk m'.tasks.reserve.1 callee arguments (Continuation.coreOf nowhere continuations)
        m'.current span').core := by
    rw [task, hm.current]
    simp only [Job.core, Continuation.coreOf_coreOf]
    rfl
  show Outcome.Alike (.done (Value.task m.tasks.reserve.1) _) (.done (Value.task m'.tasks.reserve.1) _)
  rw [task]
  refine .done _ (.note (hm.withTasks ?_) (congrArg Event.scheduled task))
  have pushed := congr (congrArg TaskQueue.push tasks) job
  exact pushed

theorem agrees_afterJob {α : Type} (hev : ev.Indifferent) {x x' y y' : Run α} (hx : Agrees x x') (hy : Agrees y y') :
    Agrees (ev.afterJob x y) (ev.afterJob x' y') := by
  intro m m' hm
  rw [afterJob_eq, afterJob_eq]
  have popped := hm.pop?
  generalize m.tasks.pop? = o at popped ⊢
  generalize m'.tasks.pop? = o' at popped ⊢
  cases popped with
  | none => exact hy m m' hm
  | some h =>
    obtain ⟨job, tasks⟩ := Prod.mk.inj h
    exact Agrees.bind (hev.sameJob job) (fun _ => hx) _ _ (hm.withTasks tasks)

end Evaluator

theorem Errand.Doing.agrees {ev : Evaluator} (hev : ev.Indifferent) {E : Errand} {p : Place} {α : Type}
    {P : α → Prop} {x x' : Run α} (h : Doing .core False ev ev E p P x x') : Agrees x x' := by
  have inBlock {b : Block} (scope : ScopeId) (h : Agrees (ev.statements .nil b.body)
      (ev.statements .nil (Stmt.coreOf nowhere b.body))) :
      Agrees (ev.block b scope) (ev.block (b.core nowhere) scope) := by
    unfold Evaluator.block
    rw [Block.body_core]
    exact h.within scope
  induction h with
  | pure _ => exact .pure _
  | exhaust => exact .exhaust
  | bind _ _ hx hf => exact .bind hx fun a => hf a nofun
  | still _ h => exact h.agrees id _ _
  | write text => exact .changeCore (fun _ => rfl) fun _ => rfl
  | misassigned _ _ => exact .fail _ _ _
  | misrun _ _ => exact .fail _ _ _
  | evaluate _ => exact hev.evaluate _
  | execute _ _ => exact hev.execute _
  | assign _ name _ => exact Evaluator.isIndifferent_assignName name _
  | function _ kind name params => exact Evaluator.agrees_makeFunction kind name params _
  | schedule _ _ _ => exact Evaluator.agrees_schedule _ _ _ _ _
  | declare _ _ name _ static _ ih =>
    exact .bind (.readCore fun _ => rfl) fun _ => .bind (.declare _ _ _ _) fun _ => ih
  | bindName _ scope b name _ static => exact .declare _ _ _ _
  | block scope _ ih => exact inBlock scope ih
  | recordedBlock scope span _ ih => exact .recorded (inBlock scope ih) _ _
  | newScope _ _ ih => exact .bind .newScope ih
  | call _ ref arguments _ ih =>
    intro m m' hm
    rw [Evaluator.call_function, Evaluator.call_function]
    have found := hm.function? ref
    generalize m.heap.functions[ref]? = o at found ⊢
    generalize m'.heap.functions[ref]? = o' at found ⊢
    cases found with
    | none => exact (Evaluator.isStill_refuseCall (P := fun _ => True) _).agrees id _ _ m m' hm
    | @some f f' h =>
      have same (scope : ScopeId) : Agrees (ev.calling f arguments scope) (ev.calling f' arguments scope) := by
        have own : Agrees (ev.calling f arguments scope) (ev.calling f.core arguments scope) := ih f scope
        rw [h] at own
        exact own.meet (ih f' scope)
      have scope : f.scope = f'.scope := by
        show f.core.scope = f'.core.scope
        rw [h]
      -- the journals differ in the code of the function that they say was called
      have called : (Event.called f).core = (Event.called f').core := congrArg Event.called h
      dsimp only
      rw [scope, hm.scopes]
      exact same _ _ _ ((hm.note called).withScopes _)
  | work _ _ _ hx hy => exact Evaluator.agrees_afterJob hev hx hy

namespace Evaluator

variable {ev : Evaluator}

theorem agrees_statements (hev : ev.Indifferent) (last : Value) (body : List Stmt) :
    Agrees (ev.statements last body) (ev.statements last (Stmt.coreOf nowhere body)) :=
  (doing_body last nofun body).agrees hev

theorem agrees_workStep (hev : ev.Indifferent) (job : Job) : Agrees (ev.workStep job) (ev.workStep job.core) :=
  .bind (.change fun _ _ hm => hm.note rfl) fun _ =>
    .bind (.within ((doing_pipeline rfl job nofun).agrees hev) job.scope) fun _ =>
      .changeCore (fun _ => rfl) fun _ => rfl

theorem agrees_evaluateStep (hev : ev.Indifferent) (e : Expr) :
    Agrees (ev.evaluateStep e) (ev.evaluateStep (e.core nowhere)) := by
  obtain ⟨span, form⟩ := e
  exact .recorded ((doing_evaluateForm rfl ⟨span, form⟩).agrees hev) _ _

/-! ## Modules -/

theorem linkPicks_core (root : ScopeId) (picks : List Pick) :
    linkPicks root (picks.map (Pick.core nowhere)) = linkPicks root picks := by
  induction picks with
  | nil => rfl
  | cons p rest ih =>
    simp only [List.map_cons, linkPicks, Pick.name_core, Pick.localName_core, Pick.isSome_called_core, ih]

theorem isIndifferent_linkPicks (root : ScopeId) (picks : List Pick) : IsIndifferent (linkPicks root picks) := by
  induction picks with
  | nil => exact .pure _
  | cons p rest ih =>
    refine .bind ((isStill_readModule _ _).agrees id {} {}) fun _ => .bind (.readCore fun _ => rfl) fun current =>
      .bind (.onScopes _) fun _ => ?_
    cases p.called with
    | none => exact ih
    | some other => exact .bind (.changeCore (fun _ => rfl) fun _ => rfl) fun _ => ih

theorem isIndifferent_readModuleFile (path : Path) : IsIndifferent (readModuleFile path) := by
  intro m m' hm
  have keywords : m.keywords = m'.keywords := hm.reads fun _ => rfl
  unfold readModuleFile
  rw [hm.files, keywords, hm.settings]
  cases m'.files.read path with
  | error reason => exact .failed rfl hm
  | ok source =>
    dsimp only
    cases readScript m'.keywords m'.settings.matching source with
    | done program _ => exact .done program (hm.note rfl)
    | failed fault _ => exact .failed rfl hm
    | exhausted => exact .exhausted

theorem isIndifferent_newRoot (file : Option Path) : IsIndifferent (newRoot file) := by
  intro m m' hm
  unfold newRoot
  rw [hm.scopes]
  exact .done _ (hm.withScopes _)

theorem isIndifferent_bindExports (root : ScopeId) (exports : List (String × Value)) :
    IsIndifferent (bindExports root exports) := by
  induction exports with
  | nil => exact .pure _
  | cons entry rest ih =>
    exact .bind (.declare _ _ _ _) fun _ =>
      .bind (.changeCore (fun _ => rfl) fun _ => rfl) fun _ => ih

theorem isIndifferent_evaluateModule (hev : ev.Indifferent) (path : Path) :
    IsIndifferent (ev.evaluateModule path) := by
  have prelude (root : ScopeId) : IsIndifferent (Action.change fun m => m.addPrelude root) :=
    .changeCore (Machine.core_addPrelude · root) (Machine.observer_addPrelude · root)
  refine .bind (isIndifferent_readModuleFile path) fun program =>
    .bind (isIndifferent_newRoot (some path)) fun root => .bind (prelude root) fun _ => ?_
  -- the program is the same on both sides, so it is compared with its core twice
  have body := agrees_statements hev .nil program.body
  exact .bind (.within (body.meet body) root) fun _ => .pure root

theorem isIndifferent_finishModule (key : ModuleKey) (root : ScopeId) : IsIndifferent (finishModule key root) :=
  .changeCore (fun _ => rfl) fun _ => rfl

theorem isIndifferent_loadBuiltin (name : String) : IsIndifferent (loadBuiltin name) := by
  refine .bind (.readCore fun _ => rfl) fun known => ?_
  cases known with
  | some root => exact .pure root
  | none =>
    refine .read_bind (fun m m' hm => hm.build? name) fun built built' h => ?_
    cases h with
    | none => exact .bind (.readCore fun _ => rfl) fun _ => .raise _
    | @some built built' h =>
      obtain ⟨exports, heap⟩ := Prod.mk.inj h
      dsimp only
      rw [exports]
      exact .bind (.change fun m m' hm => hm.withHeap heap) fun _ =>
        .bind (isIndifferent_newRoot none) fun root =>
          .bind (isIndifferent_bindExports root built'.1) fun _ =>
            .bind (isIndifferent_finishModule _ root) fun _ => .pure root

theorem modular_isIndifferent (hev : ev.Indifferent) : ev.Modular IsIndifferent IsIndifferent where
  pure := .pure
  bind := .bind
  last := .pure _
  lead := .bind
  raise _ := .raise _
  read _ := .readCore fun _ => rfl
  table _ := .changeCore (fun _ => rfl) fun _ => rfl
  path source := (isStill_modulePath source).agrees id {} {}
  builtin := isIndifferent_loadBuiltin
  evaluated path := .onFault (isIndifferent_evaluateModule hev path) fun _ _ _ _ hfault hm =>
    ⟨hfault, hm.change (f := fun n => { n with modules := n.modules.abandon (.file path) })
      (fun _ => rfl) fun _ => rfl⟩
  declare _ _ _ := .declare _ _ _ _
  picks := isIndifferent_linkPicks
  link _ _ := .onScopes _

theorem useModule_core (source : String) (called : Option Ident) (picks : List Pick) :
    ev.useModule source (called.map (Ident.core nowhere)) (picks.map (Pick.core nowhere)) =
      ev.useModule source called picks := by
  unfold useModule
  rw [Option.isNone_map, List.isEmpty_map]
  cases called <;> simp only [linkPicks_core] <;> rfl

/-! ## Statements -/

theorem agrees_performStep (hev : ev.Indifferent) (s : Stmt) :
    Agrees (ev.performStep s) (ev.performStep (s.core nowhere)) := by
  cases hform : s.form with
  | useModule source called picks =>
    obtain ⟨id, span, form⟩ := s
    cases hform
    show Agrees (ev.useModule source called picks) (ev.useModule source (called.map _) (picks.map _))
    rw [useModule_core]
    exact (modular_isIndifferent hev).useModule source called picks
  | expose declaration =>
    obtain ⟨id, span, form⟩ := s
    cases hform
    refine .bind (hev.perform declaration) fun flow => ?_
    rw [Stmt.form_core, StmtForm.declaredName?_core]
    cases declaration.form.declaredName? with
    | none => exact .pure _
    | some name => exact .bind (.changeCore (fun _ => rfl) fun _ => rfl) fun _ => .pure _
  | _ => exact (doing_performStep rfl (by simp [hform]) (by simp [hform])).agrees hev

theorem agrees_observe (s s' : Stmt) : Agrees (Run.observe s) (Run.observe s') := by
  intro m m' hm
  unfold Run.observe
  rw [hm.unobserved, hm.symm.unobserved]
  exact .done () hm

theorem agrees_executeStep (hev : ev.Indifferent) (s : Stmt) :
    Agrees (ev.executeStep s) (ev.executeStep (s.core nowhere)) :=
  .bind (agrees_observe _ _) fun _ => .recorded (hev.perform s) _ _

theorem indifferent_ofDepth (depth : Nat) : (ofDepth depth).Indifferent := by
  induction depth with
  | zero => exact ⟨fun _ => .exhaust, fun _ => .exhaust, fun _ => .exhaust, fun _ => .exhaust⟩
  | succ depth ih =>
    exact ⟨agrees_evaluateStep ih, agrees_executeStep ih, agrees_performStep ih, agrees_workStep ih⟩

end Evaluator

/-! ## Runs -/

structure Fault.SameUpToPlace (f f' : Fault) : Prop where
  stage : f.stage = f'.stage
  cause : f.cause = f'.cause
  /-- They are both about a name that is not declared, or neither is. -/
  notDeclared : f.isNotDeclared = f'.isNotDeclared
  message : f.message = f'.message
  hint : f.hint = f'.hint
  file : f.file = f'.file

theorem Fault.sameUpToPlace_of_core {f f' : Fault} (h : f.core = f'.core) : f.SameUpToPlace f' := by
  simp only [Fault.core, Fault.mk.injEq] at h
  obtain ⟨stage, cause, -, file, hint⟩ := h
  refine ⟨stage, cause, ?_, congrArg Cause.message cause, hint, file⟩
  unfold Fault.isNotDeclared
  rw [cause]

/-- **Two machines are the same up to layout**: the same was written, as many tasks are pending, and the things
on the heap are the same up to the layout of functions. So is all the rest. -/
structure Machine.SameUpToLayout (m m' : Machine) : Prop where
  output : m.output = m'.output
  pending : m.tasks.pending = m'.tasks.pending
  heap : m.heap.core = m'.heap.core
  core : m.core = m'.core

/-- **Two runs come to the same up to layout**: to one value that has the same tag and the same text on both
sides, or to faults that are the same up to their places, or both are exhausted. -/
inductive Outcome.SameUpToLayout : Outcome Machine Value → Outcome Machine Value → Prop
  | done {v m m'} (tag : m.heap.tag v = m'.heap.tag v)
    (text : m.heap.text v = m'.heap.text v) (state : m.SameUpToLayout m') :
    SameUpToLayout (.done v m) (.done v m')
  | failed {fault fault' m m'} (same : fault.SameUpToPlace fault')
    (state : m.SameUpToLayout m') : SameUpToLayout (.failed fault m) (.failed fault' m')
  | exhausted : SameUpToLayout .exhausted .exhausted

namespace Machine

theorem Like.sameUpToLayout {m m' : Machine} (h : m.Like m') : m.SameUpToLayout m' where
  output := h.reads fun _ => rfl
  pending := h.reads (f := (·.tasks.pending)) fun _ => rfl
  heap := h.heap
  core := h.core

theorem agrees_pass {ev : Evaluator} (hev : ev.Indifferent) (p : Program) :
    Agrees (pass ev p) (pass ev (p.core nowhere)) :=
  .bind (Evaluator.agrees_statements hev .nil p.body) fun _ =>
    .bind ((Evaluator.doing_drainIn ev.rounds).agrees hev) fun _ => .pure _

/-- Programs with the same core are run alike. Of the faults recorded on both sides the first ones are shown,
and these have the same core. -/
theorem agrees_interpretTo (depth : Nat) {p p' : Program} (h : p.core nowhere = p'.core nowhere) :
    Agrees (interpretTo depth p) (interpretTo depth p') := by
  intro m m' hm
  have hev := Evaluator.indifferent_ofDepth depth
  have passes := (agrees_pass hev p).meet (h ▸ agrees_pass hev p')
  have inside := passes { m with log := {} } { m' with log := {} } (hm.withLog rfl)
  unfold interpretTo
  generalize pass (.ofDepth depth) p { m with log := {} } = o at inside ⊢
  generalize pass (.ofDepth depth) p' { m' with log := {} } = o' at inside ⊢
  cases inside with
  | done v h => exact .done v h
  | @failed fault fault' n n' hfault h =>
    have cleared : n.tasks.clear.core = n'.tasks.clear.core := by
      rw [TaskQueue.core_clear, TaskQueue.core_clear, h.tasks]
    refine .failed ?_ ((h.withTasks cleared).withLog rfl)
    rw [FaultLog.core_surface, FaultLog.core_surface, h.log, hfault]
  | exhausted => exact .exhausted

/-- **The layout of a program does not matter to a run that nobody observes.** Two programs that differ in the
places and the identities of their parts and in comments and blank lines only, run on machines that are the same
up to the layout of the code in them, come to the same up to layout. This goes for every depth, and hence for
`Machine.interpret`. -/
theorem interpretTo_ignores_layout {p p' : Program} (code : p.core nowhere = p'.core nowhere)
    {m m' : Machine} (state : m.core = m'.core) (unobserved : m.observer = .nobody) (depth : Nat) :
    (interpretTo depth p m).SameUpToLayout (interpretTo depth p' m') := by
  have alike := agrees_interpretTo depth code m m' ⟨state, unobserved⟩
  generalize interpretTo depth p m = o at alike ⊢
  generalize interpretTo depth p' m' = o' at alike ⊢
  cases alike with
  | done v h =>
    exact .done (h.onHeap (f := (·.tag v)) fun heap => heap.tag_core v)
      (h.onHeap (f := (·.text v)) fun heap => congrFun heap.text_core v) h.sameUpToLayout
  | failed hfault h => exact .failed (Fault.sameUpToPlace_of_core hfault) h.sameUpToLayout
  | exhausted => exact .exhausted

/-- A program that declares a function and calls it, in any layout: all its parts have the given identity and
the given place, and the given statements stand in front of all others. -/
def greeting (id : NodeId) (span : Span) (between : List Stmt) : Program :=
  let print : Stmt :=
    ⟨id, span, .expression ⟨span, .call ⟨span, .name "print"⟩ [⟨span, .name "name"⟩]⟩⟩
  let greet : Stmt :=
    ⟨id, span, .declareFunction ⟨"greet", span⟩ [⟨"name", span⟩] ⟨id, span, between ++ [print]⟩⟩
  let call : Stmt :=
    ⟨id, span, .expression ⟨span, .call ⟨span, .name "greet"⟩ [⟨span, .literal (.text "you")⟩]⟩⟩
  ⟨id, between ++ [greet] ++ between ++ [call]⟩

def trivia : List Stmt :=
  [⟨4, ⟨1, 1, 8⟩, .comment " hello"⟩, ⟨5, ⟨2, 1, 0⟩, .blankLine⟩]

/-- The program with a comment and a blank line in front of every statement does what it does without them. -/
theorem interpretTo_ignores_layout_greeting :
    (greeting 3 ⟨2, 5, 7⟩ trivia).core nowhere = (greeting 0 {} []).core nowhere ∧
      (interpretTo 8 (greeting 3 ⟨2, 5, 7⟩ trivia) (({} : Machine).start none)).doneWith
        (fun m => m.output == "you\n") = true ∧
      (interpretTo 8 (greeting 3 ⟨2, 5, 7⟩ trivia) (({} : Machine).start none)).SameUpToLayout
        (interpretTo 8 (greeting 0 {} []) (({} : Machine).start none)) := by
  have code : (greeting 3 ⟨2, 5, 7⟩ trivia).core nowhere = (greeting 0 {} []).core nowhere := rfl
  have unobserved : (({} : Machine).start none).observer = .nobody := observer_addPrelude _ _
  exact ⟨code, by decide +kernel, interpretTo_ignores_layout code rfl unobserved 8⟩

end Machine

end Trellis
