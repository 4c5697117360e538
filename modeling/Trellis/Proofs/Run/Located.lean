import Trellis.Proofs.Run.Tracing

/-!
# Faults are located

Programs are run in a file, one pass after another, without a debugger. Whatever modules they use, a pass that fails
shows a fault with the place and the file of the code that raised it, with one exception: a job that is done raises
faults outside of all code, when what it is to call cannot be called, when it is called with the wrong arguments, and
when it waits for a result that never comes. Nobody records such a fault where it is raised.

So a fault is located whenever no job is under way (`Machine.RunsIn.fault_located`).
-/

namespace Trellis

/-- **A fault that was raised on a machine comes to be shown** by a run that is stopped by it. -/
def Fault.Surfaces (raised : Fault) (m₁ : Machine) (shown : Fault) (m' : Machine) : Prop :=
  ∃ stopped m₂, Fault.Travels raised m₁ stopped m₂ ∧ shown = m₂.log.surface stopped ∧
    m' = { m₂ with tasks := m₂.tasks.clear, log := {} }

theorem Fault.Surfaces.underWay {raised shown : Fault} {m₁ m' : Machine} (h : raised.Surfaces m₁ shown m') :
    m'.underWay = m₁.underWay := by
  obtain ⟨stopped, m₂, travels, -, rfl⟩ := h
  have journal := Sources.journal_of_travels travels
  exact congrArg (Event.underWay []) journal

theorem Sources.Astray.underWay_ne_nil {src : Sources} {shown raised : Fault} {m : Machine}
    (h : src.Astray shown raised m) : m.underWay ≠ [] := by
  have task {job : Job} (raises : src.RaisedByJob job raised m) : m.underWay ≠ [] :=
    List.ne_nil_of_mem raises.underWay
  cases h with
  | unrecorded raises same => exact task raises
  | passing raises code shown => exact task raises

namespace Machine

variable {src : Sources} {m m' : Machine} {p : Program}

/-- **A machine on which programs have been run in a file**, one pass after another and without a debugger,
whether they were done or failed. It started without functions and jobs, and between passes the code stays as
it is. -/
inductive RunsIn (src : Sources) : Machine → Prop where
  | start {m : Machine} (functions : m.heap.functions = #[]) (tasks : m.tasks = {}) (journal : m.journal = [])
      (unseen : ∀ c, m.observer ≠ .console c) :
      RunsIn src (m.start (some src.file))
  | between {m m' : Machine} (h : RunsIn src m) (scopes : m'.scopes = m.scopes)
      (current : m'.current = m.current) (functions : m'.heap.functions = m.heap.functions)
      (tasks : m'.tasks = m.tasks) (journal : m'.journal = m.journal)
      (unseen : ∀ c, m'.observer ≠ .console c) : RunsIn src m'
  | done {m m' : Machine} {v : Value} {p : Program} (h : RunsIn src m) (depth : Nat)
      (given : p ∈ src.programs) (ends : interpretTo depth p m = .done v m') : RunsIn src m'
  | failed {m m' : Machine} {fault : Fault} {p : Program} (h : RunsIn src m) (depth : Nat)
      (given : p ∈ src.programs) (ends : interpretTo depth p m = .failed fault m') : RunsIn src m'

/-- **A machine stands in a file**: its code is housed, and the file is the one of the current scope. -/
structure StandsIn (src : Sources) (m : Machine) : Prop where
  housed : src.Housed m
  current : m.current < m.scopes.all.size
  file : m.currentFile = some src.file

theorem StandsIn.keeps (h : m.StandsIn src) (keeps : src.Keeps m m') : m'.StandsIn src where
  housed := keeps.housed
  current := by
    rw [keeps.current]
    exact Nat.lt_of_lt_of_le h.current keeps.later.scopes.size
  file := by
    unfold currentFile
    rw [keeps.current, keeps.later.scopes.file _ h.current]
    exact h.file

theorem StandsIn.same (h : m.StandsIn src) (scopes : m'.scopes = m.scopes) (current : m'.current = m.current)
    (functions : m'.heap.functions = m.heap.functions)
    (jobs : ∀ job ∈ m'.tasks.jobs.toList, job ∈ m.tasks.jobs.toList) (journal : m'.journal = m.journal)
    (unseen : ∀ c, m'.observer ≠ .console c) : m'.StandsIn src :=
  h.keeps ⟨.same scopes journal, current,
    h.housed.mono (.same scopes journal) (fun _ hf => functions ▸ hf) jobs unseen⟩

theorem standsIn_start (functions : m.heap.functions = #[]) (tasks : m.tasks = {})
    (unseen : ∀ c, m.observer ≠ .console c) : (m.start (some src.file)).StandsIn src := by
  have rooted : (m.enter (m.scopes.addRoot (some src.file))).StandsIn src := by
    refine ⟨⟨fun f hf => ?_, fun job hjob => ?_, unseen⟩, m.scopes.addRoot_lt_size _, m.scopes.file_addRoot _⟩
    · have hf : f ∈ m.heap.functions := hf
      rw [functions] at hf
      cases Array.not_mem_empty f hf
    · have hjob : job ∈ m.tasks.jobs.toList := hjob
      rw [tasks] at hjob
      cases hjob
  exact rooted.keeps (Evaluator.goesOn_addPrelude rooted.housed _).toKeeps

theorem StandsIn.cleared (h : m.StandsIn src) : StandsIn src { m with log := {} } :=
  h.same rfl rfl rfl (fun _ hjob => hjob) rfl h.housed.unseen

theorem traces_pass {ev : Evaluator} (hev : ev.Traces src) (p : Program) :
    Run.Traces src (.ofProgram p) .loose (pass ev p) :=
  .bind (Evaluator.traces_statements hev .nil p.body fun _ hs => Passage.has_body hs) fun _ =>
    .bind (Evaluator.traces_drainIn hev ev.rounds) fun _ => .pure _

theorem StandsIn.traced_pass (h : m.StandsIn src) (given : p ∈ src.programs) (depth : Nat) :
    (pass (.ofDepth depth) p { m with log := {} }).Traced src .loose { m with log := {} } := by
  refine traces_pass (Evaluator.traces_ofDepth src depth) p _ ⟨h.cleared.housed, fun n hn => ?_, rfl⟩
  exact ⟨h.current, src.file, h.file, p, hn, .inl ⟨rfl, given⟩⟩

theorem StandsIn.interpretTo (h : m.StandsIn src) (given : p ∈ src.programs) (depth : Nat) :
    (interpretTo depth p m).Ends fun _ m' => m'.StandsIn src := by
  have traced := h.traced_pass given depth
  unfold Machine.interpretTo
  cases hpass : pass (.ofDepth depth) p { m with log := {} } with
  | exhausted => trivial
  | done v m₁ =>
    rw [hpass] at traced
    exact h.cleared.keeps traced.toKeeps
  | failed stopped m₁ =>
    rw [hpass] at traced
    have stands := h.cleared.keeps traced.1
    -- a pass that fails drops its jobs
    exact stands.same rfl rfl rfl (fun _ hjob => by cases hjob) rfl stands.housed.unseen

theorem RunsIn.standsIn (h : m.RunsIn src) : m.StandsIn src := by
  induction h with
  | start functions tasks journal unseen => exact standsIn_start functions tasks unseen
  | between _ scopes current functions tasks journal unseen ih =>
    exact ih.same scopes current functions (fun _ hjob => tasks ▸ hjob) journal unseen
  | done _ depth given ends ih =>
    exact (ih.interpretTo given depth).done ends
  | failed _ depth given ends ih =>
    exact (ih.interpretTo given depth).failed ends

theorem StandsIn.traced_interpretTo (h : m.StandsIn src) (given : p ∈ src.programs) {depth : Nat}
    {shown : Fault} (fails : Machine.interpretTo depth p m = .failed shown m') :
    ∃ raised m₁, raised.Surfaces m₁ shown m' ∧
      (src.Located shown raised m₁ ∨ src.Astray shown raised m₁) := by
  obtain ⟨stopped, m₂, hpass, rfl, rfl⟩ := pass_of_failed fails
  have traced := h.traced_pass given depth
  rw [hpass] at traced
  cases traced.2 with
  | recorded recorded =>
    obtain ⟨first, raised, m₁, log, travels, told⟩ := recorded
    have shown : m₂.log.surface stopped = first := by
      unfold FaultLog.surface
      rw [log]
      rfl
    exact ⟨raised, m₁, ⟨stopped, m₂, travels, rfl, rfl⟩, shown ▸ told⟩
  | loose loose =>
    obtain ⟨log, job, m₁, raises, travels⟩ := loose
    refine ⟨stopped, m₁, ⟨stopped, m₂, travels, rfl, rfl⟩, .inr (.unrecorded raises ?_)⟩
    rw [log]
    rfl

/-- **Faults are located.** A pass that fails shows a fault with the place and the file of the code that raised
it, or with those of a text that cannot be read, unless a job raised it that is under way. -/
theorem RunsIn.fault_located (h : m.RunsIn src) (given : p ∈ src.programs) {depth : Nat} {shown : Fault}
    (fails : interpretTo depth p m = .failed shown m') :
    ∃ raised m₁, raised.Surfaces m₁ shown m' ∧
      (src.Located shown raised m₁ ∨ src.Astray shown raised m₁) ∧
      (m'.underWay = [] → src.Located shown raised m₁) := by
  obtain ⟨raised, m₁, surfaces, told⟩ := h.standsIn.traced_interpretTo given fails
  refine ⟨raised, m₁, surfaces, told, fun idle => ?_⟩
  rw [surfaces.underWay] at idle
  exact told.resolve_right fun astray => astray.underWay_ne_nil idle

def failingModule : Machine :=
  { files := { nodes := [(["lib.vine"], .file "expose fn f():\nnil()\nend\n".toUTF8)] } }

def callingModule : Program :=
  ⟨3, [⟨1, ⟨1, 1, 3⟩, .useModule "lib" none [⟨⟨"f", ⟨1, 17, 1⟩⟩, none⟩]⟩,
    ⟨2, ⟨2, 1, 1⟩, .expression ⟨⟨2, 2, 1⟩, .call ⟨⟨2, 1, 1⟩, .name "f"⟩ []⟩⟩]⟩

/-- The program fails in the second line of the module, and the fault that is shown names the file of the
module. -/
theorem fault_located_callingModule :
    ∃ shown m' raised m₁, (failingModule.start (some ⟨"/main.vine"⟩)).RunsIn ⟨⟨"/main.vine"⟩, [callingModule]⟩ ∧
      interpretTo 8 callingModule (failingModule.start (some ⟨"/main.vine"⟩)) = .failed shown m' ∧
      shown.span = some ⟨2, 4, 1⟩ ∧ shown.file.map Path.text = some "/lib.vine" ∧
      raised.Surfaces m₁ shown m' ∧
      Sources.Located ⟨⟨"/main.vine"⟩, [callingModule]⟩ shown raised m₁ := by
  have runs : (failingModule.start (some ⟨"/main.vine"⟩)).RunsIn ⟨⟨"/main.vine"⟩, [callingModule]⟩ :=
    .start rfl rfl rfl fun c h => by cases h
  have run : (interpretTo 8 callingModule (failingModule.start (some ⟨"/main.vine"⟩))).failedWith
      (fun shown m' => shown.span == some ⟨2, 4, 1⟩ && shown.file.map Path.text == some "/lib.vine" &&
        m'.underWay == []) = true := by
    decide +kernel
  obtain ⟨shown, m', fails, checked⟩ := Outcome.of_failedWith run
  rw [Bool.and_eq_true, Bool.and_eq_true, beq_iff_eq, beq_iff_eq, beq_iff_eq] at checked
  obtain ⟨⟨span, file⟩, idle⟩ := checked
  obtain ⟨raised, m₁, surfaces, -, located⟩ := runs.fault_located (.head _) fails
  exact ⟨shown, m', raised, m₁, runs, fails, span, file, surfaces, located idle⟩

def runningNil : Program :=
  ⟨2, [⟨1, ⟨1, 1, 3⟩, .expression
    ⟨⟨1, 1, 3⟩, .run ⟨⟨1, 8, 1⟩, .call ⟨⟨1, 5, 3⟩, .literal .nil⟩ []⟩ []⟩⟩]⟩

/-- **A fault that a job raises is not always located**: the job is done behind the last statement of the
program, and its fault is shown without a file. -/
theorem not_all_faults_located :
    ¬ ∀ (src : Sources) (m m' : Machine) (p : Program) (depth : Nat) (shown : Fault), m.RunsIn src →
      p ∈ src.programs → interpretTo depth p m = .failed shown m' →
      shown.span.isSome = true ∧ shown.file.isSome = true := by
  intro h
  have runs : (({} : Machine).start (some ⟨"/main.vine"⟩)).RunsIn ⟨⟨"/main.vine"⟩, [runningNil]⟩ :=
    .start rfl rfl rfl fun c h => by cases h
  have run : (interpretTo 5 runningNil (({} : Machine).start (some ⟨"/main.vine"⟩))).failedWith
      (fun shown _ => shown.file.isNone) = true := by
    decide +kernel
  obtain ⟨shown, m', fails, lost⟩ := Outcome.of_failedWith run
  have filed := (h _ _ m' runningNil 5 shown runs (.head _) fails).2
  rw [Option.isNone_iff_eq_none.mp lost] at filed
  cases filed

end Machine

end Trellis
