import Trellis.Proofs.Run.Housed

/-!
# Tracing faults back

When a run is stopped by a fault, the fault was raised somewhere, and what is shown of it was recorded somewhere, and
the two need not be the same. Here each fault is traced back to what raised it.

An action raises a fault *itself* (`Run.RaisesItself`) if the fault comes out of it unrecorded, and if the same jobs
are under way as before. An expression or a statement that raises a fault itself records it at once, and the file that
it attaches is the one that its code stands in, because the current scope houses the code. Such a fault is *located*
(`Sources.Located`). So is a fault in the text of a module, which knows its own place and its own file.

What a job raises itself, by the call that was put off or by waiting for the result of it, is recorded by nobody as
long as it travels through jobs. The fault goes *astray* (`Sources.Astray`): it comes out of the run as it was raised,
without a file, or it passes code that waits for the job, and gets the file of that one.

Between being raised and being recorded a fault is on its way through the parts of evaluation, and how far it has
come is what is told of each part (`Run.Traces`).
-/

namespace Trellis

/-! ## What raises faults -/

def Machine.underWay (m : Machine) : List TaskId :=
  Event.underWay [] m.journal

/-- **An action raises a fault itself**: nothing was recorded before it, nothing was recorded since, and the
jobs under way are those of before. -/
structure Run.RaisesItself {α : Type} (x : Run α) (m : Machine) (f : Fault) (m' : Machine) : Prop where
  fails : x m = .failed f m'
  clear : m.log = {}
  unrecorded : m'.log = {}
  underWay : m'.underWay = m.underWay

/-- **A node raises a fault itself** when it is evaluated or executed. A block does nothing but to execute its
statements. -/
def Node.Raises (depth : Nat) (n : Node) (m : Machine) (f : Fault) (m' : Machine) : Prop :=
  match n with
  | .expr e => Run.RaisesItself ((Evaluator.ofDepth depth).evaluateForm e.span e.form) m f m'
  | .stmt s => Run.RaisesItself ((Evaluator.ofDepth depth).perform s) m f m'
  | .block _ => False

/-- **The text of a module cannot be read**, and the fault tells of a place in it. -/
def Machine.Garbles (m : Machine) (path : Path) (f : Fault) : Prop :=
  ∃ source cause span p, m.files.read path = .ok source ∧
    readScript m.keywords m.settings.matching source = .failed (.reading cause span) p ∧
    f = (Fault.reading cause span).inFile (some path)

/-- What a node raises itself: a fault at its own place or at one below it, or a fault in the text of a
module. -/
def Node.Site (n : Node) (f : Fault) (m : Machine) : Prop :=
  (∃ c ∈ n.all, f.IsAt c.span) ∨ ∃ path, m.Garbles path f

variable {m : Machine}

theorem Node.Site.up {n k : Node} {f : Fault} (h : n.Site f m) (below : n ∈ k.all) : k.Site f m := by
  rcases h with ⟨c, hc, placed⟩ | garbles
  · exact .inl ⟨c, Node.mem_all_trans n hc below, placed⟩
  · exact .inr garbles

namespace Sources

/-- **A fault that is shown is located.** It has the place and the file of the code that raised it, or those of
the text that cannot be read. -/
inductive Located (src : Sources) (shown raised : Fault) (m : Machine) : Prop where
  | code {depth n c m₀ file} (raises : n.Raises depth m₀ raised m)
      (current : m.currentFile = some file) (code : src.HasCode m file n) (below : c ∈ n.all)
      (span : shown.span = some c.span) (file : shown.file = some file)
  | text {path} (garbles : m.Garbles path raised) (same : shown = raised)

/-- **A job raises a fault itself**, while it is under way in the scope in which it was put off. -/
structure RaisedByJob (src : Sources) (job : Job) (raised : Fault) (m : Machine) : Prop where
  raises : ∃ depth m₀, Run.RaisesItself ((Evaluator.ofDepth depth).pipeline job) m₀ raised m
  underWay : job.task ∈ m.underWay
  putOff : src.PutOff m job
  current : m.current = job.scope
  site : raised.IsAt job.span

/-- **A fault that is shown went astray.** A job raised it, and then either nobody recorded it, or some code did
that waited for the job. -/
inductive Astray (src : Sources) (shown raised : Fault) (m : Machine) : Prop where
  | unrecorded {job} (raises : src.RaisedByJob job raised m) (same : shown = raised)
  | passing {job n file} (raises : src.RaisedByJob job raised m)
      (code : src.HasCode m file n) (shown_eq : shown = (raised.located n.span).inFile (some file))

end Sources

/-! ## How far faults have come -/

inductive Stopping where
  | recorded
  /-- It has been recorded, or a job raised it. -/
  | loose
  /-- It has been recorded, or a job raised it, or the action raised it itself. -/
  | raised (site : Fault → Machine → Prop)

namespace Sources

variable (src : Sources)

def Recorded (f : Fault) (m : Machine) : Prop :=
  ∃ shown raised m₁, m.log.innermost? = some shown ∧ Fault.Travels raised m₁ f m ∧
    (src.Located shown raised m₁ ∨ src.Astray shown raised m₁)

def Loose (f : Fault) (m : Machine) : Prop :=
  m.log = {} ∧ ∃ job m₁, src.RaisedByJob job f m₁ ∧ Fault.Travels f m₁ f m

/-- **Where a fault comes from** by which an action is stopped that started on the given machine. -/
inductive Whence : Stopping → Machine → Fault → Machine → Prop where
  | recorded {κ m m' f} (h : src.Recorded f m') : Whence κ m f m'
  | loose {m m' f} (h : src.Loose f m') : Whence .loose m f m'
  | passing {site m m' f} (h : src.Loose f m') :
      Whence (.raised site) m f m'
  | raised {site m m' f} (log : m'.log = {})
      (underWay : m'.underWay = m.underWay) (h : site f m') : Whence (.raised site) m f m'

structure Keeps (m m' : Machine) : Prop where
  later : m.Extends m'
  current : m'.current = m.current
  housed : src.Housed m'

/-- **A machine goes on**: no fault is recorded, and the jobs under way are those of before. -/
structure GoesOn (m m' : Machine) : Prop extends src.Keeps m m' where
  log : m'.log = m.log
  underWay : m'.underWay = m.underWay

/-- **A machine is ready** to execute a passage: its code is housed, the current scope houses the passage, and
no fault has been recorded. -/
structure Ready (code : Passage) (m : Machine) : Prop where
  housed : src.Housed m
  code : ∀ n, code.Has n → src.Houses m m.current n
  log : m.log = {}

end Sources

def Outcome.Traced {α : Type} (src : Sources) (κ : Stopping) (m : Machine) : Outcome Machine α → Prop
  | .done _ m' => src.GoesOn m m'
  | .failed f m' => src.Keeps m m' ∧ src.Whence κ m f m'
  | .exhausted => True

/-- **An action of which faults are traced back**, when a machine is ready for a passage. -/
def Run.Traces {α : Type} (src : Sources) (code : Passage) (κ : Stopping) (x : Run α) : Prop :=
  ∀ m, src.Ready code m → (x m).Traced src κ m

def Run.TracesIn {α : Type} (src : Sources) (code : Passage) (κ : Stopping) (scope : ScopeId) (n : Node)
    (x : Run α) : Prop :=
  ∀ m, src.Ready code m → src.Houses m scope n → (x m).Traced src κ m

namespace Sources

variable {src : Sources} {code : Passage} {κ : Stopping} {m m' m₁ m₂ : Machine} {f : Fault}

theorem GoesOn.refl (h : src.Housed m) : src.GoesOn m m :=
  ⟨⟨.same rfl rfl, rfl, h⟩, rfl, rfl⟩

theorem Keeps.after (h : src.Keeps m₁ m') (before : src.GoesOn m m₁) : src.Keeps m m' :=
  ⟨before.later.trans h.later, h.current.trans before.current, h.housed⟩

theorem Keeps.same (h : src.Keeps m m₁) (log : FaultLog) (modules : ModuleTable) :
    src.Keeps m { m₁ with log, modules } where
  later := ⟨h.later.scopes, h.later.journal⟩
  current := h.current
  housed := h.housed.mono (.same rfl rfl) (fun _ hf => hf) (fun _ hjob => hjob) h.housed.unseen

theorem GoesOn.after (h : src.GoesOn m₁ m') (before : src.GoesOn m m₁) : src.GoesOn m m' :=
  ⟨h.toKeeps.after before, h.log.trans before.log, h.underWay.trans before.underWay⟩

theorem GoesOn.ofScopes (h : src.Housed m) {scopes : Scopes} (keeps : m.scopes.KeepsFiles scopes) :
    src.GoesOn m { m with scopes } :=
  ⟨⟨.ofScopes keeps, rfl, h.ofScopes keeps⟩, rfl, rfl⟩

theorem Ready.on (h : src.Ready code m) (on : src.GoesOn m m') : src.Ready code m' :=
  ⟨on.housed, fun n hn => on.current ▸ (h.code n hn).mono on.later, on.log.trans h.log⟩

theorem Ready.stopped {α : Type} {site : Fault → Machine → Prop} (h : src.Ready code m) (hsite : site f m) :
    (.failed f m : Outcome Machine α).Traced src (.raised site) m :=
  ⟨(GoesOn.refl h.housed).toKeeps, .raised h.log rfl hsite⟩

theorem Whence.after (h : src.Whence κ m₁ f m') (before : src.GoesOn m m₁) : src.Whence κ m f m' := by
  cases h with
  | recorded h => exact .recorded h
  | loose h => exact .loose h
  | passing h => exact .passing h
  | raised log underWay h => exact .raised log (underWay.trans before.underWay) h

/-! ### Recording -/

theorem journal_of_travels {raised : Fault} (h : Fault.Travels raised m f m') : m'.journal = m.journal := by
  induction h with
  | raised => rfl
  | recorded _ span ih => exact ih
  | left _ scope ih => exact ih
  | abandoned _ key ih => exact ih

theorem Recorded.record (h : src.Recorded f m) (span : Span) :
    src.Recorded (Run.record span f m).1 (Run.record span f m).2 := by
  obtain ⟨shown, raised, m₁, log, travels, told⟩ := h
  refine ⟨shown, raised, m₁, ?_, travels.recorded span, told⟩
  show (m.log.record _).innermost? = some shown
  rw [FaultLog.innermost?_record, log]
  rfl

theorem Recorded.left (h : src.Recorded f m) (scope : ScopeId) : src.Recorded f (m.moveTo scope) := by
  obtain ⟨shown, raised, m₁, log, travels, told⟩ := h
  exact ⟨shown, raised, m₁, log, travels.left scope, told⟩

theorem Recorded.abandoned (h : src.Recorded f m) (key : ModuleKey) :
    src.Recorded f { m with modules := m.modules.abandon key } := by
  obtain ⟨shown, raised, m₁, log, travels, told⟩ := h
  exact ⟨shown, raised, m₁, log, travels.abandoned key, told⟩

theorem Loose.left (h : src.Loose f m) (scope : ScopeId) : src.Loose f (m.moveTo scope) := by
  obtain ⟨log, job, m₁, raises, travels⟩ := h
  exact ⟨log, job, m₁, raises, travels.left scope⟩

theorem Loose.abandoned (h : src.Loose f m) (key : ModuleKey) :
    src.Loose f { m with modules := m.modules.abandon key } := by
  obtain ⟨log, job, m₁, raises, travels⟩ := h
  exact ⟨log, job, m₁, raises, travels.abandoned key⟩

theorem innermost?_record_clear (log : m.log = {}) (span : Span) {file : Path}
    (current : m.currentFile = some file) :
    (Run.record span f m).2.log.innermost? = some ((f.located span).inFile (some file)) := by
  show (m.log.record ((f.located span).inFile m.currentFile)).innermost? = _
  rw [log, current]
  rfl

theorem Loose.record (h : src.Loose f m) {n : Node} (houses : src.Houses m m.current n) :
    src.Recorded (Run.record n.span f m).1 (Run.record n.span f m).2 := by
  obtain ⟨log, job, m₁, raises, travels⟩ := h
  obtain ⟨-, file, current, hcode⟩ := houses
  refine ⟨_, f, m₁, innermost?_record_clear log n.span current, travels.recorded n.span, .inr ?_⟩
  exact .passing raises (hcode.mono fun _ he => journal_of_travels travels ▸ he) rfl

theorem recorded_of_raises {depth : Nat} {n : Node} {m₀ : Machine} (raises : n.Raises depth m₀ f m)
    (log : m.log = {}) (site : n.Site f m) (houses : src.Houses m m.current n) :
    src.Recorded (Run.record n.span f m).1 (Run.record n.span f m).2 := by
  obtain ⟨-, file, current, hcode⟩ := houses
  refine ⟨_, f, m, innermost?_record_clear log n.span current, .recorded .raised n.span, .inl ?_⟩
  rcases site with ⟨c, below, unfiled, placed⟩ | ⟨path, garbles⟩
  · have inFile : ((f.located n.span).inFile (some file)).file = some file := by
      show f.file.or (some file) = some file
      rw [unfiled]
      rfl
    cases hspan : f.span with
    | none =>
      refine .code raises current hcode n.self_mem_all ?_ inFile
      show f.span.or (some n.span) = some n.span
      rw [hspan]
      rfl
    | some span =>
      rw [hspan] at placed
      refine .code raises current hcode below ?_ inFile
      show f.span.or (some n.span) = some c.span
      rw [hspan]
      exact congrArg some placed
  · obtain ⟨source, cause, span, p, read, garbled, rfl⟩ := garbles
    exact .text ⟨source, cause, span, p, read, garbled, rfl⟩ rfl

end Sources

/-! ## Putting actions together -/

namespace Outcome.Traced

variable {α : Type} {src : Sources} {κ : Stopping} {m m₁ : Machine} {o : Outcome Machine α}

theorem after (h : o.Traced src κ m₁) (before : src.GoesOn m m₁) : o.Traced src κ m := by
  cases o with
  | done a m' => exact h.after before
  | failed f m' => exact ⟨h.1.after before, h.2.after before⟩
  | exhausted => trivial

theorem raising {site : Fault → Machine → Prop} (h : o.Traced src .loose m) : o.Traced src (.raised site) m := by
  cases o with
  | done a m' => exact h
  | exhausted => trivial
  | failed f m' =>
    refine ⟨h.1, ?_⟩
    cases h.2 with
    | recorded h => exact .recorded h
    | loose h => exact .passing h

end Outcome.Traced

theorem Action.traced_bind {α β : Type} {src : Sources} {κ : Stopping} {x : Run α} {f : α → Run β}
    (hx : (x m).Traced src κ m) (hf : ∀ a m₁, x m = .done a m₁ → src.GoesOn m m₁ → (f a m₁).Traced src κ m₁) :
    ((x >>= f) m).Traced src κ m := by
  rw [Action.bind_apply]
  cases hs : x m with
  | exhausted => trivial
  | failed fault m₁ => rw [hs] at hx; exact hx
  | done a m₁ =>
    rw [hs] at hx
    exact (hf a m₁ hs hx).after hx

namespace Run

variable {α β : Type} {src : Sources} {code : Passage} {κ : Stopping} {scope : ScopeId} {n : Node}
  {site : Fault → Machine → Prop}

namespace Traces

theorem pure (a : α) : Traces src code κ (Pure.pure a : Run α) := fun _ h => .refl h.housed

theorem read (f : Machine → α) : Traces src code κ (Action.read f) := fun _ h => .refl h.housed

theorem exhaust : Traces src code κ (Action.exhaust : Run α) := fun _ _ => trivial

theorem bind {x : Run α} {f : α → Run β} (hx : Traces src code κ x) (hf : ∀ a, Traces src code κ (f a)) :
    Traces src code κ (x >>= f) :=
  fun m h => Action.traced_bind (hx m h) fun a m₁ _ on => hf a m₁ (h.on on)

theorem imp {other : Fault → Machine → Prop} {x : Run α} (h : Traces src code (.raised site) x)
    (hsite : ∀ f m, site f m → other f m) : Traces src code (.raised other) x := by
  intro m ready
  have hx := h m ready
  cases hs : x m with
  | exhausted => trivial
  | done a m' => rw [hs] at hx; exact hx
  | failed f m' =>
    rw [hs] at hx
    refine ⟨hx.1, ?_⟩
    cases hx.2 with
    | recorded h => exact .recorded h
    | passing h => exact .passing h
    | raised log underWay h => exact .raised log underWay (hsite f m' h)

theorem inScope {x : Run α} (h : Traces src code κ x) : TracesIn src code κ scope n x :=
  fun m ready _ => h m ready

end Traces

namespace TracesIn

theorem bind {x : Run α} {f : α → Run β} (hx : TracesIn src code κ scope n x)
    (hf : ∀ a, TracesIn src code κ scope n (f a)) : TracesIn src code κ scope n (x >>= f) :=
  fun m h houses => Action.traced_bind (hx m h houses) fun a m₁ _ on =>
    hf a m₁ (h.on on) (houses.mono on.later)

theorem newScope_bind {f : ScopeId → Run α} (hn : code.Has n)
    (hf : ∀ scope, TracesIn src code κ scope n (f scope)) : Traces src code κ (Run.newScope >>= f) := by
  intro m h
  have made : src.GoesOn m { m with scopes := (m.scopes.addChild m.current).2 } :=
    .ofScopes h.housed (.addChild _ _)
  exact (hf _ _ (h.on made) (h.code n hn).child).after made

end TracesIn

theorem traced_within {x : Run α} (h : (x (m.moveTo scope)).Traced src .recorded (m.moveTo scope)) :
    (Run.within scope x m).Traced src κ m := by
  have inner : (x { m with current := scope }).Traced src .recorded (m.moveTo scope) := h
  unfold Run.within
  cases hs : x { m with current := scope } with
  | exhausted => trivial
  | done a m₁ =>
    rw [hs] at inner
    exact ⟨⟨⟨inner.later.scopes, inner.later.journal⟩, rfl, inner.housed.moveTo _⟩, inner.log, inner.underWay⟩
  | failed f m₁ =>
    rw [hs] at inner
    obtain ⟨keeps, whence⟩ := inner
    refine ⟨⟨⟨keeps.later.scopes, keeps.later.journal⟩, rfl, keeps.housed.moveTo _⟩, ?_⟩
    cases whence with
    | recorded h => exact .recorded (h.left _)

theorem TracesIn.recorded {x : Run α} (h : TracesIn src code .recorded scope n x) (span : Span) :
    TracesIn src code κ scope n (Run.recorded span x) := by
  intro m ready houses
  have hx := h m ready houses
  unfold Run.recorded Action.onFault
  cases hs : x m with
  | exhausted => trivial
  | done a m₁ => rw [hs] at hx; exact hx
  | failed f m₁ =>
    rw [hs] at hx
    obtain ⟨keeps, whence⟩ := hx
    refine ⟨keeps.same _ m₁.modules, ?_⟩
    cases whence with
    | recorded h => exact .recorded (h.record span)

theorem Traces.recorded {depth : Nat} {x : Run α} (hn : code.Has n)
    (own : ∀ {m f m'}, RaisesItself x m f m' → n.Raises depth m f m')
    (h : Traces src code (.raised n.Site) x) : Traces src code κ (Run.recorded n.span x) := by
  intro m ready
  have hx := h m ready
  unfold Run.recorded Action.onFault
  cases hs : x m with
  | exhausted => trivial
  | done a m₁ => rw [hs] at hx; exact hx
  | failed f m₁ =>
    rw [hs] at hx
    obtain ⟨keeps, whence⟩ := hx
    -- the current scope is the one of before again, so the file of the record is that of the node
    have houses : src.Houses m₁ m₁.current n := keeps.current ▸ (ready.code n hn).mono keeps.later
    refine ⟨keeps.same _ m₁.modules, .recorded ?_⟩
    cases whence with
    | recorded h => exact h.record n.span
    | passing h => exact h.record houses
    | raised log underWay h =>
      exact Sources.recorded_of_raises (own ⟨hs, ready.log, log, underWay⟩) log h houses

end Run

end Trellis
