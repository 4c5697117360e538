import Trellis.Proofs.Run.Modules
import Trellis.Proofs.Run.Traces

/-!
# Tracing faults through evaluation

The faults that come out of the pieces that evaluation is made of are traced back (`Errand.Doing.traces`), and the knot
is tied by the recursion on the depth (`Evaluator.traces_ofDepth`). Most of what can go wrong is raised by actions that
leave code alone. The others make scopes, functions and jobs, and it is there that code comes to be housed: a function
is made and a call is put off in the scope that houses the expression, and a module is evaluated in a root with its
own file.
-/

namespace Trellis

open Run

/-! ## Actions that leave code alone -/

variable {src : Sources} {m : Machine} {span : Span}

theorem Machine.Still.goesOn {m m' : Machine} (h : m.Still m') (housed : src.Housed m) :
    src.GoesOn m m' where
  later := .same h.scopes h.journal
  current := h.current
  housed := housed.mono (.same h.scopes h.journal) (fun _ hf => h.functions ▸ hf)
    (fun _ hjob => h.tasks ▸ hjob) fun c => h.observer ▸ housed.unseen c
  log := h.log
  underWay := congrArg (Event.underWay []) h.journal

def Admits (site : Fault → Machine → Prop) (span : Span) : Prop :=
  ∀ f m, f.IsAt span → site f m

theorem Node.admits {n c : Node} (h : c ∈ n.all) : Admits n.Site c.span :=
  fun _ _ hf => .inl ⟨c, h, hf⟩

namespace Run.Traces

variable {α : Type} {src : Sources} {code other : Passage} {κ : Stopping} {site : Fault → Machine → Prop} {span : Span}
  {x : Run α}

theorem raise {f : Fault} (h : f.IsAt span) (admits : Admits site span) :
    Traces src code (.raised site) (Action.fail f : Run α) :=
  fun m ready => ready.stopped (admits f m h)

theorem mono (h : Traces src other κ x) (less : ∀ n, other.Has n → code.Has n) : Traces src code κ x :=
  fun m ready => h m ⟨ready.housed, fun n hn => ready.code n (less n hn), ready.log⟩

theorem ofRecorded (h : Traces src code .recorded x) : Traces src code κ x := by
  intro m ready
  have hx := h m ready
  cases hs : x m with
  | exhausted => trivial
  | done a m' => rw [hs] at hx; exact hx
  | failed f m' =>
    rw [hs] at hx
    obtain ⟨keeps, ⟨h⟩⟩ := hx
    exact ⟨keeps, .recorded h⟩

end Run.Traces

theorem Run.IsStill.traces {α : Type} {code : Passage} {site : Fault → Machine → Prop}
    {P : α → Prop} {x : Span → Run α} (h : IsStill False P x) (admits : Admits site span) :
    Traces src code (.raised site) (x span) := by
  intro m ready
  have hx := h.still id span m
  cases hs : x span m with
  | exhausted => trivial
  | done a m' => rw [hs] at hx; exact hx.goesOn ready.housed
  | failed f m' =>
    rw [hs] at hx
    have on := hx.1.goesOn ready.housed
    exact ⟨on.toKeeps, .raised (on.log.trans ready.log) on.underWay (admits f m' hx.2.isAt)⟩

/-! ## The evaluator that is gone back to -/

/-- **An evaluator of which faults are traced back.** Expressions and statements record the faults that come out
of them. What a statement does may raise a fault itself, and a job may let one loose. -/
structure Evaluator.Traces (src : Sources) (ev : Evaluator) : Prop where
  evaluate : ∀ {code : Passage} {κ : Stopping} {e : Expr}, code.Has (.expr e) →
    Run.Traces src code κ (ev.evaluate e)
  execute : ∀ {code : Passage} {κ : Stopping} {s : Stmt}, code.Has (.stmt s) →
    Run.Traces src code κ (ev.execute s)
  perform : ∀ {code : Passage} {s : Stmt}, code.Has (.stmt s) →
    Run.Traces src code (.raised (Node.stmt s).Site) (ev.perform s)
  work : ∀ {job : Job} {m : Machine}, src.Housed m → m.log = {} → src.PutOff m job →
    (ev.work job m).Traced src .loose m

/-! ## Errands -/

theorem Passage.has_below (code : Passage) {c : Node} (n : Node) (h : code.Has n) (hc : c ∈ n.all) : code.Has c := by
  induction n using Node.byParts with
  | step n ih =>
    obtain rfl | ⟨part, hpart, below⟩ := Node.mem_all.mp hc
    · exact h
    · exact ih part hpart (code.part h hpart) below

namespace Errand

def passage (E : Errand) : Passage :=
  ⟨E.Has, Has.part⟩

def stopping : Errand → Stopping
  | expr e => .raised (Node.expr e).Site
  | stmt s => .raised (Node.stmt s).Site
  | body _ => .recorded
  | job j => .raised fun f _ => f.IsAt j.span
  | rest => .loose

def Tracing {α : Type} (src : Sources) (E : Errand) (p : Place) (x : Run α) : Prop :=
  match p with
  | .here => Run.Traces src E.passage E.stopping x
  | .made scope b => TracesIn src E.passage E.stopping scope (.block b) x

variable {src : Sources} {E : Errand} {p : Place} {α : Type} {x : Run α}

theorem Tracing.of_traces (h : Run.Traces src E.passage E.stopping x) : E.Tracing src p x := by
  cases p with
  | here => exact h
  | made scope b => exact h.inScope

theorem Marks.exists_site (h : E.Marks span) : ∃ site, E.stopping = .raised site ∧ Admits site span := by
  cases E with
  | expr e =>
    obtain ⟨c, below, rfl⟩ := h
    exact ⟨_, rfl, Node.admits below⟩
  | stmt s =>
    obtain ⟨c, below, rfl⟩ := h
    exact ⟨_, rfl, Node.admits below⟩
  | body statements => exact h.elim
  | job j => exact ⟨_, rfl, fun f m isAt => by rw [← show span = j.span from h]; exact isAt⟩
  | rest => exact h.elim

theorem Waits.traced (h : E.Waits) {o : Outcome Machine α} (ho : o.Traced src .loose m) :
    o.Traced src E.stopping m := by
  cases E with
  | expr e => exact ho.raising
  | stmt s => exact h.elim
  | body statements => exact h.elim
  | job j => exact ho.raising
  | rest => exact ho

end Errand

namespace Evaluator

variable {src : Sources} {code : Passage} {site : Fault → Machine → Prop} {span : Span}

theorem traces_declare (admits : Admits site span) (scope : ScopeId) (name : String) (v : Value)
    (static : Bool) : Run.Traces src code (.raised site) (Run.declare scope name v static) := by
  intro m ready
  unfold Run.declare
  cases hfault : m.scopes.declareFault? scope name with
  | none => exact .ofScopes ready.housed (.addBinding _ _ _ _ _)
  | some fault => exact ready.stopped (admits _ _ ((Scopes.isPlain_of_declareFault? _ hfault).isAt))

theorem nextJob?_spec (housed : src.Housed m) :
    ∃ job? m₁, nextJob? m = .done job? m₁ ∧ src.GoesOn m m₁ ∧ ∀ job, job? = some job → src.PutOff m₁ job := by
  unfold nextJob?
  cases hpop : m.tasks.pop? with
  | none => exact ⟨none, m, rfl, .refl housed, fun job h => by cases h⟩
  | some popped =>
    obtain ⟨job, tasks⟩ := popped
    obtain ⟨housed, putOff⟩ := housed.pop hpop
    refine ⟨some job, _, rfl, ⟨⟨.same rfl rfl, rfl, housed⟩, rfl, rfl⟩, fun other h => ?_⟩
    cases h
    exact putOff

end Evaluator

theorem Errand.Doing.tracing {ev ev' : Evaluator} (hev : ev.Traces src) {E : Errand} {p : Place} {α : Type}
    {P : α → Prop} {x x' : Run α} (h : Doing .same False ev ev' E p P x x') : E.Tracing src p x := by
  -- a block is executed in a scope that houses it
  have inBlock {κ : Stopping} {code : Passage} (b : Block) (scope : ScopeId)
      (h : Run.Traces src (body b.body).passage .recorded (ev.statements .nil b.body)) :
      TracesIn src code κ scope (.block b) (ev.block b scope) := by
    intro m ready houses
    refine traced_within (h _ ⟨ready.housed.moveTo scope, fun n hn => ?_, ready.log⟩)
    obtain ⟨_, hs, below⟩ := hn
    exact houses.below (Node.mem_all.mpr (.inr ⟨_, hs, below⟩))
  induction h with
  | pure _ => exact .of_traces (.pure _)
  | exhaust => exact .of_traces .exhaust
  | @bind _ _ E p _ _ _ _ _ _ _ _ hx hf =>
    cases p with
    | here => exact Run.Traces.bind hx fun a => hf a nofun
    | made scope b => exact TracesIn.bind hx fun a => hf a nofun
  | still marks h =>
    obtain ⟨site, stopping, admits⟩ := marks.exists_site
    refine .of_traces ?_
    rw [stopping]
    exact h.traces admits
  | write text =>
    refine .of_traces fun m ready => ?_
    exact Machine.Still.goesOn ⟨⟨rfl, rfl, rfl, rfl, rfl, rfl, rfl, rfl, rfl⟩, rfl, rfl⟩ ready.housed
  | @misassigned _ _ e target value form _ =>
    have below : Node.expr target ∈ (Node.expr e).all := by
      refine Node.mem_all_of_part ?_
      show _ ∈ e.form.parts
      rw [form]
      exact .head _
    exact Run.Traces.raise ⟨rfl, rfl⟩ (Node.admits below)
  | @misrun _ _ _ e _ _ _ => exact Run.Traces.raise ⟨rfl, rfl⟩ (Node.admits (Node.self_mem_all (.expr e)))
  | evaluate has => exact hev.evaluate has
  | execute has _ => exact hev.execute has
  | assign marks name _ =>
    obtain ⟨site, stopping, admits⟩ := marks.exists_site
    intro m ready
    unfold Evaluator.assignName
    rw [stopping]
    cases h : m.scopes.assignee m.current name with
    | ok owner => exact .ofScopes ready.housed (.replace _ _ _ _)
    | error fault => exact ready.stopped (admits _ _ ((Scopes.isPlain_of_assignee _ h).suggest m name).isAt)
  | function has kind name params =>
    -- a function is made in the scope that houses its body
    exact fun _ ready => ⟨⟨.same rfl rfl, rfl, ready.housed.newFunction (ready.code _ has)⟩, rfl, rfl⟩
  | @schedule _ e _ form callee arguments _ _ =>
    exact fun m ready => ⟨⟨⟨.refl _, fun _ h => .tail _ h⟩, rfl,
      ready.housed.schedule form (ready.code _ (has_root (.head _))) callee arguments⟩, rfl, rfl⟩
  | declare _ marks name _ static _ ih =>
    obtain ⟨site, stopping, admits⟩ := marks.exists_site
    refine Run.Traces.bind (.read _) fun scope => .bind ?_ fun _ => ih
    rw [stopping]
    exact Evaluator.traces_declare admits _ _ _ _
  | bindName marks scope b name _ static =>
    obtain ⟨site, stopping, admits⟩ := marks.exists_site
    refine Run.Traces.inScope ?_
    rw [stopping]
    exact Evaluator.traces_declare admits _ _ _ _
  | @block E b scope _ ih => exact inBlock b scope ih
  | @recordedBlock E b scope span _ ih => exact (inBlock b scope ih).recorded span
  | newScope has _ ih => exact TracesIn.newScope_bind has ih
  | call marks ref arguments _ ih =>
    obtain ⟨site, stopping, admits⟩ := marks.exists_site
    intro m ready
    rw [Evaluator.call_function]
    cases hf : m.heap.functions[ref]? with
    | none =>
      rw [stopping]
      exact (Evaluator.isStill_refuseCall (P := fun _ => True) _).traces admits m ready
    | some f =>
      -- the scope of the call is inside of the one that houses the body
      have called : src.GoesOn m (m.note (.called f)) := ⟨⟨.note _ _, rfl, ready.housed.note _⟩, rfl, rfl⟩
      have houses := (ready.housed.functions f (Array.mem_of_getElem? hf)).mono called.later
      have entered := Sources.GoesOn.after
        (.ofScopes called.housed (.addChild (m.note (.called f)).scopes f.scope)) called
      exact (ih f _ _ (ready.on entered) houses.child).after entered
  | work waits _ _ hx hy =>
    intro m ready
    obtain ⟨job?, m₁, next, on, putOff⟩ := Evaluator.nextJob?_spec ready.housed
    unfold Evaluator.afterJob
    rw [Action.bind_apply, next]
    refine Outcome.Traced.after ?_ on
    have ready₁ := ready.on on
    cases job? with
    | none => exact hy m₁ ready₁
    | some job =>
      exact Action.traced_bind (waits.traced (hev.work on.housed ready₁.log (putOff job rfl)))
        fun _ m₂ _ done => hx m₂ (ready₁.on done)

theorem Errand.Doing.traces {ev ev' : Evaluator} (hev : ev.Traces src) {E : Errand} {α : Type} {P : α → Prop}
    {x x' : Run α} (h : Doing .same False ev ev' E .here P x x') : Run.Traces src E.passage E.stopping x :=
  h.tracing hev

namespace Evaluator

variable {src : Sources} {ev : Evaluator} {code : Passage} {κ : Stopping}
  {site : Fault → Machine → Prop} {span : Span} {depth : Nat}

theorem traces_statements (hev : ev.Traces src) (last : Value) (body : List Stmt)
    (h : ∀ s ∈ body, code.Has (.stmt s)) : Run.Traces src code κ (ev.statements last body) := by
  refine Run.Traces.ofRecorded (.mono ((doing_body (W := ev) last nofun body).traces hev) ?_)
  rintro n ⟨_, hs, below⟩
  obtain ⟨s, mem, rfl⟩ := List.mem_map.mp hs
  exact code.has_below _ (h s mem) below

theorem traces_drainIn (hev : ev.Traces src) (bound : Nat) : Run.Traces src code .loose (ev.drainIn bound) :=
  .mono ((doing_drainIn (W := ev) bound).traces hev) fun n hn => by
    obtain ⟨root, mem, -⟩ := hn
    cases mem

theorem has_continuation {e started : Expr} {continuations : List Continuation} {c : Continuation}
    (form : e.form = .run started continuations) (hc : c ∈ continuations) :
    (Passage.below (.expr e)).Has (.block c.body) := by
  refine Passage.part _ (Passage.has_self _) ?_
  show _ ∈ e.form.parts
  rw [form]
  exact .tail _ (List.mem_map.mpr ⟨c, hc, rfl⟩)

theorem traced_workStep (hev : (ofDepth depth).Traces src) {job : Job} (housed : src.Housed m) (log : m.log = {})
    (putOff : src.PutOff m job) : ((ofDepth depth).workStep job m).Traced src .loose m := by
  obtain ⟨e, started, hspan, form, houses⟩ := putOff
  have begun : m.Extends (m.begin job) := ⟨.refl _, fun _ h => .tail _ h⟩
  have ready : src.Ready (Errand.job job).passage (m.begin job) := by
    refine ⟨(housed.note _).moveTo _, fun n hn => ?_, log⟩
    obtain ⟨_, hc, below⟩ := hn
    obtain ⟨c, mem, rfl⟩ := List.mem_map.mp hc
    exact ((houses.below (has_continuation form mem)).below below).mono begun
  have pipeline := (doing_pipeline (W := ofDepth depth) rfl job nofun).traces hev _ ready
  -- the job is the innermost one under way until its task has got the result
  have underWay : (m.begin job).underWay = job.task :: m.underWay := rfl
  have within : Run.within job.scope ((ofDepth depth).pipeline job) (m.note (.started job.task)) =
      ((ofDepth depth).pipeline job).ending (·.moveTo m.current) (m.begin job) := within_eq _ _ _
  show Outcome.Traced src .loose m ((Run.within job.scope ((ofDepth depth).pipeline job) >>= _)
    (m.note (.started job.task)))
  rw [Action.bind_apply, within]
  unfold Action.ending
  cases hs : (ofDepth depth).pipeline job (m.begin job) with
  | exhausted => trivial
  | done v m₁ =>
    rw [hs] at pipeline
    have resolved : m₁.Extends ((m₁.moveTo m.current).complete job v) := ⟨.refl _, fun _ h => .tail _ h⟩
    refine ⟨⟨(begun.trans pipeline.later).trans resolved, rfl, ?_⟩, pipeline.log, ?_⟩
    · exact pipeline.housed.mono resolved (fun _ hf => hf) (fun _ hjob => hjob) pipeline.housed.unseen
    · show m₁.underWay.erase job.task = m.underWay
      rw [pipeline.underWay, underWay, List.erase_cons_head]
  | failed f m₁ =>
    rw [hs] at pipeline
    obtain ⟨keeps, whence⟩ := pipeline
    refine ⟨⟨⟨(begun.trans keeps.later).scopes, (begun.trans keeps.later).journal⟩, rfl,
      keeps.housed.moveTo _⟩, ?_⟩
    cases whence with
    | recorded h => exact .recorded (h.left _)
    | passing h => exact .loose (h.left _)
    | raised log' underWay' site =>
      refine .loose ⟨log', job, m₁, ⟨⟨depth, _, hs, log, log', underWay'⟩, ?_, ?_, keeps.current, site⟩,
        .left .raised _⟩
      · rw [underWay', underWay]
        exact .head _
      · exact ⟨e, started, hspan, form, houses.mono (begun.trans keeps.later)⟩

theorem traces_evaluateStep (hev : (ofDepth depth).Traces src) {e : Expr} (h : code.Has (.expr e)) :
    Run.Traces src code κ ((ofDepth depth).evaluateStep e) := by
  refine Run.Traces.recorded (n := .expr e) h (fun own => own)
    (.mono ((doing_evaluateForm (W := ofDepth depth) rfl e).traces hev) ?_)
  rintro n ⟨_, hroot, below⟩
  cases List.mem_singleton.mp hroot
  exact code.has_below _ h below

/-! ## Modules -/

theorem traces_modules (g : Machine → ModuleTable) :
    Run.Traces src code κ (Action.change fun m => { m with modules := g m }) := fun _ ready =>
  ⟨⟨.same rfl rfl, rfl, ready.housed.mono (.same rfl rfl) (fun _ hf => hf) (fun _ hjob => hjob) ready.housed.unseen⟩,
    rfl, rfl⟩

theorem traces_newRoot (file : Option Path) : Run.Traces src code κ (newRoot file) :=
  fun _ ready => .ofScopes ready.housed (.addRoot _ _)

theorem traces_bindExports (admits : Admits site span) (root : ScopeId) (exports : List (String × Value)) :
    Run.Traces src code (.raised site) (bindExports root exports) := by
  induction exports with
  | nil => exact .pure _
  | cons entry rest ih =>
    exact .bind (traces_declare admits _ _ _ _) fun _ =>
      .bind (fun _ ready => .ofScopes ready.housed (.expose _ _ _)) fun _ => ih

theorem traces_loadBuiltin (admits : Admits site span) (name : String) :
    Run.Traces src code (.raised site) (loadBuiltin name) := by
  refine .bind (.read _) fun cached => ?_
  cases cached with
  | some root => exact .pure _
  | none =>
    intro m ready
    show Outcome.Traced src _ m ((Action.read _ >>= _) m)
    rw [Action.bind_apply, Action.read_apply]
    cases built : m.registry.build? name m.clock.now m.heap with
    | none =>
      have fails : Run.Traces src code (.raised site) (do
          let mark ← Action.read (·.settings.builtinMark)
          Action.fail (.managing (.noModule (mark ++ name))) : Run ScopeId) :=
        .bind (.read _) fun mark => .raise ⟨rfl, rfl⟩ admits
      exact fails m ready
    | some made =>
      obtain ⟨exports, heap⟩ := made
      have on : src.GoesOn m { m with heap } := (Machine.Still.heap m (functions_build? built)).goesOn ready.housed
      have rest : Run.Traces src code (.raised site) (do
          let root ← newRoot none
          bindExports root exports
          finishModule (.builtin name) root
          return root) :=
        .bind (traces_newRoot none) fun root => .bind (traces_bindExports admits root exports) fun _ =>
          .bind (traces_modules _) fun _ => .pure _
      exact (rest _ (ready.on on)).after on

variable {n : Node}

/-- **A module that was read** is entered into the journal, and one that cannot be read is told of by a place in
its text. -/
theorem traces_readModuleFile (path : Path) : Run.Traces src code (.raised n.Site) (readModuleFile path) := by
  intro m ready
  unfold readModuleFile
  cases hread : m.files.read path with
  | error reason => exact ready.stopped (.inl ⟨n, n.self_mem_all, rfl, rfl⟩)
  | ok source =>
    dsimp only
    cases hscript : readScript m.keywords m.settings.matching source with
    | exhausted => trivial
    | done program p => exact ⟨⟨.note _ _, rfl, ready.housed.note _⟩, rfl, rfl⟩
    | failed fault p =>
      obtain ⟨cause, span, rfl⟩ := isOfReading_readScript hscript
      exact ready.stopped (.inr ⟨path, source, cause, span, p, hread, hscript, rfl⟩)

theorem moduleRead_of_readModuleFile {path : Path} {program : Program} {m m' : Machine}
    (h : readModuleFile path m = .done program m') : .moduleRead path program ∈ m'.journal := by
  unfold readModuleFile at h
  split at h
  · cases h
  · split at h
    · cases h
      exact .head _
    · cases h
    · cases h

theorem goesOn_addPrelude (housed : src.Housed m) (root : ScopeId) : src.GoesOn m (m.addPrelude root) := by
  have kept : m.scopes.KeepsFiles (m.addPrelude root).scopes ∧ (m.addPrelude root).journal = m.journal ∧
      (m.addPrelude root).current = m.current ∧ (m.addPrelude root).log = m.log := by
    unfold Machine.addPrelude
    split
    · exact ⟨.refl _, rfl, rfl, rfl⟩
    · exact ⟨.declareConstants _ _ _, rfl, rfl, rfl⟩
  obtain ⟨scopes, journal, current, log⟩ := kept
  exact ⟨⟨⟨scopes, fun _ h => journal ▸ h⟩, current, housed.addPrelude root⟩, log,
    congrArg (Event.underWay []) journal⟩

theorem traces_evaluateModule (hev : ev.Traces src) (path : Path) :
    Run.Traces src code (.raised n.Site) (ev.evaluateModule path) := by
  intro m ready
  refine Action.traced_bind (traces_readModuleFile path m ready) fun program m₁ hread on => ?_
  have ready₁ := ready.on on
  -- the root has the file that the journal names, so it houses the program that was read
  have entry := moduleRead_of_readModuleFile hread
  have rooted : src.GoesOn m₁ { m₁ with scopes := (m₁.scopes.addRoot (some path)).2 } :=
    .ofScopes on.housed (.addRoot _ _)
  have known := goesOn_addPrelude rooted.housed (m₁.scopes.addRoot (some path)).1
  have houses {k : Node} (hk : (Passage.ofProgram program).Has k) :
      src.Houses { m₁ with scopes := (m₁.scopes.addRoot (some path)).2 }
        (m₁.scopes.addRoot (some path)).1 k :=
    ⟨m₁.scopes.addRoot_lt_size _, path, m₁.scopes.file_addRoot _, program, hk, .inr entry⟩
  refine Outcome.Traced.after ?_ (known.after rooted)
  have ready₂ := ready₁.on (known.after rooted)
  refine Action.traced_bind (traced_within (traces_statements hev .nil program.body
    (fun s hs => Passage.has_body hs) _ ⟨known.housed.moveTo _, ?_, ready₂.log⟩)) ?_
  · exact fun k hk => (houses hk).mono (known.later.trans (.same rfl rfl))
  · exact fun _ m₂ _ done => .refl done.housed

theorem traces_abandoned (hev : ev.Traces src) (path : Path) :
    Run.Traces src code (.raised n.Site) ((ev.evaluateModule path).onFault fun fault m =>
      (fault, { m with modules := m.modules.abandon (.file path) })) := by
  intro m ready
  have evaluated := traces_evaluateModule (n := n) hev path m ready
  unfold Action.onFault
  cases hs : ev.evaluateModule path m with
  | exhausted => trivial
  | done root m₁ => rw [hs] at evaluated; exact evaluated
  | failed f m₁ =>
    rw [hs] at evaluated
    obtain ⟨keeps, whence⟩ := evaluated
    refine ⟨keeps.same m₁.log _, ?_⟩
    cases whence with
    | recorded h => exact .recorded (h.abandoned _)
    | passing h => exact .passing (h.abandoned _)
    | raised log underWay h => exact .raised log underWay h

theorem traces_link (admits : Admits site span) (id : ScopeId) (name : String) (root : ScopeId) :
    Run.Traces src code (.raised site) (Run.onScopes fun scopes => scopes.link id name root) := by
  intro m ready
  unfold Run.onScopes
  cases hlink : m.scopes.link id name root with
  | ok scopes =>
    simp only [hlink]
    exact .ofScopes ready.housed (.link hlink)
  | error fault =>
    simp only [hlink]
    exact ready.stopped (admits _ _ (Scopes.link_eq_error hlink ▸ ⟨rfl, rfl⟩))

theorem traces_linkPicks (admits : Admits site span) (root : ScopeId) (picks : List Pick) :
    Run.Traces src code (.raised site) (linkPicks root picks) := by
  induction picks with
  | nil => exact .pure _
  | cons p rest ih =>
    refine .bind ((isStill_readModule root p.name.name).traces admits) fun _ => .bind (.read _) fun current =>
      .bind (traces_link admits _ _ _) fun _ => ?_
    cases p.called with
    | none => exact ih
    | some other => exact .bind (fun _ ready => .ofScopes ready.housed (.setAlias _ _ _ _)) fun _ => ih

theorem modular_traces (hev : ev.Traces src) (here : Admits n.Site span) :
    ev.Modular (Run.Traces src code (.raised n.Site)) (Run.Traces src code (.raised n.Site)) where
  pure := .pure
  bind := .bind
  last := .pure _
  lead := .bind
  raise _ := .raise ⟨rfl, rfl⟩ here
  read _ := .read _
  table _ := traces_modules _
  path source := (isStill_modulePath source).traces here
  builtin := traces_loadBuiltin here
  evaluated := traces_abandoned hev
  declare _ _ _ := traces_declare here _ _ _ _
  picks := traces_linkPicks here
  link _ _ := traces_link here _ _ _

/-! ## Statements -/

theorem traces_observe (s : Stmt) : Run.Traces src code κ (Run.observe s) := by
  intro m ready
  unfold Run.observe
  split
  · exact .refl ready.housed
  · refine ⟨⟨.same rfl rfl, rfl, ?_⟩, rfl, rfl⟩
    exact ready.housed.mono (.same rfl rfl) (fun _ hf => hf) (fun _ hjob => hjob) fun c h => by cases h
  · rename_i c hc
    exact absurd hc (ready.housed.unseen c)

theorem traces_performStep (hev : ev.Traces src) {s : Stmt} (h : code.Has (.stmt s)) :
    Run.Traces src code (.raised (Node.stmt s).Site) (ev.performStep s) := by
  cases hform : s.form with
  | useModule source called picks =>
    obtain ⟨id, span, form⟩ := s
    cases hform
    exact (modular_traces hev (Node.admits (Node.self_mem_all _))).useModule source called picks
  | expose declaration =>
    obtain ⟨id, span, form⟩ := s
    cases hform
    have below : Node.stmt declaration ∈ (Node.stmt ⟨id, span, .expose declaration⟩).all :=
      Node.mem_all_of_part (.head _)
    refine .bind ((hev.perform (code.part h (.head _))).imp fun f m site => site.up below) fun flow => ?_
    cases declaration.form.declaredName? with
    | none => exact .pure _
    | some name => exact .bind (fun _ ready => .ofScopes ready.housed (.expose _ _ _)) fun _ => .pure _
  | _ =>
    refine Run.Traces.mono ((doing_performStep (W := ev) rfl (by simp [hform]) (by simp [hform])).traces hev) ?_
    rintro n ⟨_, hroot, below⟩
    cases List.mem_singleton.mp hroot
    exact code.has_below _ h below

theorem traces_executeStep (hev : (ofDepth depth).Traces src) {s : Stmt} (h : code.Has (.stmt s)) :
    Run.Traces src code κ ((ofDepth depth).executeStep s) :=
  .bind (traces_observe s) fun _ =>
    Run.Traces.recorded (n := .stmt s) h (fun own => own) (hev.perform h)

theorem traces_ofDepth (src : Sources) (depth : Nat) : (ofDepth depth).Traces src := by
  induction depth with
  | zero => exact ⟨fun _ => .exhaust, fun _ => .exhaust, fun _ => .exhaust, fun _ _ _ => trivial⟩
  | succ depth ih =>
    exact ⟨traces_evaluateStep ih, traces_executeStep ih, traces_performStep ih, traced_workStep ih⟩

end Evaluator

end Trellis
