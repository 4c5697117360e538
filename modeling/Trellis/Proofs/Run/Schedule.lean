import Trellis.Proofs.Run.Progress

/-!
# The schedule of tasks

Programs are run in passes, one after another, on one machine. Over all passes together the jobs are started in the
order in which their calls were put off, and none of them twice. A pass that is done leaves no job undone, and each
task that was made in it has got one result. No result is ever replaced. If the code of a pass does not wait anywhere,
then no job is started before the last statement has been executed.
-/

namespace Trellis

/-! ## Code that does not wait -/

/-- **The entries tell of no code that waits**: neither in a module that was read nor in a function that was
there before and was called. -/
def WaitlessCode (old : Array Closure) (new : List Event) : Prop :=
  (∀ path program, Event.moduleRead path program ∈ new →
    program.every ExprForm.isWaitless = true) ∧
  ∀ f ∈ old, Event.called f ∈ new → f.body.every ExprForm.isWaitless = true

namespace WaitlessCode

variable {old : Array Closure} {new new₁ new₂ : List Event}

theorem left (h : WaitlessCode old (new₂ ++ new₁)) : WaitlessCode old new₂ :=
  ⟨fun path program hmem => h.1 path program (List.mem_append_left _ hmem),
    fun f hf hmem => h.2 f hf (List.mem_append_left _ hmem)⟩

theorem right (h : WaitlessCode old (new₂ ++ new₁)) : WaitlessCode old new₁ :=
  ⟨fun path program hmem => h.1 path program (List.mem_append_right _ hmem),
    fun f hf hmem => h.2 f hf (List.mem_append_right _ hmem)⟩

end WaitlessCode

def Heap.OnlyOldWait (old : Array Closure) (h : Heap) : Prop :=
  ∀ f ∈ h.functions, f ∈ old ∨ f.body.every ExprForm.isWaitless = true

variable {new : List Event} {ev : Evaluator}

theorem WaitlessCode.bracket {old : Array Closure} {n n' : Machine} {event : Event} (hs : event.started? = none)
    (grows : ∃ inner, n'.journal = inner ++ event :: n.journal)
    (body : ∀ {inner : List Event}, n'.journal = inner ++ event :: n.journal → WaitlessCode old inner →
      event ∈ new → Event.tasks Event.started? inner = [] ∧ n'.heap.OnlyOldWait old)
    (hj : n'.journal = new ++ n.journal) (hc : WaitlessCode old new) :
    Event.tasks Event.started? new = [] ∧ n'.heap.OnlyOldWait old := by
  obtain ⟨inner, hinner⟩ := grows
  have split : new = inner ++ [event] :=
    List.append_cancel_right (hj.symm.trans (hinner.trans (List.append_cons _ _ _)))
  subst split
  obtain ⟨hstarted, hheap⟩ := body hinner hc.left (List.mem_append_right _ (.head _))
  exact ⟨by simp [hstarted, hs], hheap⟩

theorem Course.no_start {w : Bool} {r : Reach} {whole : Bool} {m m' : Machine} {old : Array Closure}
    (h : Course w r whole m m') (hw : w = false) (hf : m.heap.OnlyOldWait old) (hj : m'.journal = new ++ m.journal)
    (hc : WaitlessCode old new) : Event.tasks Event.started? new = [] ∧ m'.heap.OnlyOldWait old := by
  have nothing {j new : List Event} (h : j = new ++ j) : new = [] :=
    List.append_left_eq_self.mp h.symm
  induction h generalizing new with
  | quiet h =>
    cases nothing (h.journal.symm.trans hj)
    refine ⟨rfl, ?_⟩
    unfold Heap.OnlyOldWait
    rw [h.functions]
    exact hf
  | seq first second ih₁ ih₂ =>
    obtain ⟨new₁, h₁⟩ := first.journal
    obtain ⟨new₂, h₂⟩ := second.journal
    have split : new = new₂ ++ new₁ := by
      refine List.append_cancel_right (hj.symm.trans ?_)
      rw [h₂, h₁, List.append_assoc]
    subst split
    obtain ⟨hs₁, hf₁⟩ := ih₁ hw hf h₁ hc.right
    obtain ⟨hs₂, hf₂⟩ := ih₂ hw hf₁ h₂ hc.left
    exact ⟨by rw [Event.tasks_append, hs₁, hs₂]; rfl, hf₂⟩
  | stop _ ih => exact ih hw hf hj hc
  | pass _ record ih =>
    obtain ⟨hs, hf'⟩ := ih hw hf (record.journal.symm.trans hj) hc
    refine ⟨hs, ?_⟩
    unfold Heap.OnlyOldWait
    rw [record.functions]
    exact hf'
  | widen _ ih => exact ih hw hf hj hc
  | function f _ code =>
    cases nothing hj
    refine ⟨rfl, fun g hg => ?_⟩
    rcases Array.mem_push.mp hg with hg | rfl
    · exact hf g hg
    · exact .inr (code.resolve_left (by simp [hw]))
  | schedule callee arguments continuations span =>
    have : new = [_] := List.append_cancel_right (hj.symm.trans rfl)
    subst this
    exact ⟨rfl, hf⟩
  | work => cases hw
  | workStopped => cases hw
  | block _ ih => exact ih hw hf hj hc
  | call f made body ih =>
    refine WaitlessCode.bracket (show (Event.called f).started? = none from rfl) body.journal
      (fun hinner hcode hmem => ?_) hj hc
    have waitless : f.body.every ExprForm.isWaitless = true :=
      (hf f made).elim (fun hold => hc.2 f hold hmem) id
    exact ih (by rw [waitless]; rfl) hf hinner hcode
  | builtin _ _ _ ih => exact ih hw hf hj hc
  | builtinStopped _ _ _ ih => exact ih hw hf hj hc
  | load path program _ _ body ih | loadStopped path program _ _ body ih =>
    refine WaitlessCode.bracket (show (Event.moduleRead path program).started? = none from rfl)
      body.journal (fun hinner hcode hmem => ?_) hj hc
    have waitless : program.every ExprForm.isWaitless = true := hc.1 path program hmem
    exact ih (by rw [waitless]; rfl) hf hinner hcode
  | _ =>
    cases nothing hj
    exact ⟨rfl, hf⟩

/-! ## Passes -/

namespace Evaluator

theorem queued_of_drainIn {bound : Nat} {m m' : Machine} (h : ev.drainIn bound m = .done () m') :
    m'.tasks.queued = [] := by
  induction bound generalizing m with
  | zero => cases h
  | succ bound ih =>
    unfold drainIn at h
    obtain ⟨job, m₁, hnext, h⟩ := Action.done_bind h
    cases job with
    | some job =>
      obtain ⟨-, m₂, -, h⟩ := Action.done_bind h
      exact ih h
    | none =>
      cases h
      unfold nextJob? at hnext
      split at hnext
      · cases hnext
      · rename_i hpop
        cases hnext
        exact TaskQueue.queued_eq_nil_of_pop? hpop

end Evaluator

namespace Machine

variable {m m' : Machine} {depth : Nat} {p : Program} {v : Value} {task : TaskId}

theorem follows_pass (hev : ev.Follows) (p : Program) : Run.Follows true .here (pass ev p) :=
  .bind (Evaluator.follows_statements hev .nil p.body (by simp)) fun _ =>
    .bind (Evaluator.follows_drain hev).here fun _ => .pure _

theorem queued_of_pass (h : pass ev p m = .done v m') : m'.tasks.queued = [] := by
  obtain ⟨flow, m₁, -, h⟩ := Action.done_bind h
  obtain ⟨drained, m₂, hdrain, h⟩ := Action.done_bind h
  cases h
  exact Evaluator.queued_of_drainIn hdrain

/-- **The tasks of a machine are in order**, as they are whenever no pass is going on. -/
structure Orderly (m : Machine) : Prop where
  idle : m.tasks.queued = []
  scheduled : Event.tasks Event.scheduled? m.journal = List.range m.tasks.count
  started : (Event.tasks Event.started? m.journal).Pairwise (· < ·)
  bounded : ∀ task ∈ Event.tasks Event.started? m.journal, task < m.tasks.count
  resolved : ∀ task, (Event.tasks Event.resolved? m.journal).count task ≤
    (Event.tasks Event.started? m.journal).count task
  result : ∀ task, m.tasks.result? task = m.journal.findSome? (Event.result? task)

theorem progress_pass (h : m.Orderly) (depth : Nat) (p : Program) :
    (pass (.ofDepth depth) p { m with log := {} }).Ends fun whole m' =>
      ∃ new, m'.journal = new ++ m.journal ∧ m.tasks.Progress whole m'.tasks new := by
  refine (follows_pass (Evaluator.follows_ofDepth depth) p { m with log := {} }).imp fun _ _ course =>
    course.progress ?_
  show ∀ task ∈ m.tasks.queued, _
  rw [h.idle]
  exact nofun

namespace Orderly

variable {whole : Bool} {q : TaskQueue} {new : List Event}

theorem started_sublist (h : m.Orderly) (hp : m.tasks.Progress whole q new) :
    (Event.tasks Event.started? new).Sublist
      (List.range' m.tasks.count (q.count - m.tasks.count)) := by
  have := hp.queue
  rw [h.idle, List.nil_append, hp.scheduled] at this
  rw [← this]
  exact List.sublist_append_left _ _

theorem count_le_of_started (h : m.Orderly) (hp : m.tasks.Progress whole q new)
    (hmem : task ∈ Event.tasks Event.started? new) : m.tasks.count ≤ task :=
  (List.mem_range'_1.mp ((h.started_sublist hp).subset hmem)).1

theorem pass (h : m.Orderly) (hj : m'.journal = new ++ m.journal)
    (hp : m.tasks.Progress whole q new) (hidle : m'.tasks.queued = [])
    (hresults : m'.tasks.results = q.results) : m'.Orderly := by
  have hcount : m'.tasks.count = q.count := congrArg Array.size hresults
  have hsub := h.started_sublist hp
  have hsplit : m.tasks.count + (q.count - m.tasks.count) = q.count := Nat.add_sub_cancel' hp.count
  exact {
    idle := hidle
    scheduled := by
      rw [hj, Event.tasks_append, h.scheduled, hp.scheduled, hcount, List.range_eq_range',
        List.range_eq_range', ← hsplit, ← List.range'_append_1, Nat.zero_add, hsplit]
    started := by
      rw [hj, Event.tasks_append, List.pairwise_append]
      refine ⟨h.started, .sublist hsub List.pairwise_lt_range', fun a ha b hb => ?_⟩
      exact Nat.lt_of_lt_of_le (h.bounded a ha) (h.count_le_of_started hp hb)
    bounded := by
      intro task hmem
      rw [hj, Event.tasks_append] at hmem
      rw [hcount]
      rcases List.mem_append.mp hmem with before | since
      · exact Nat.lt_of_lt_of_le (h.bounded task before) hp.count
      · have := (List.mem_range'_1.mp (hsub.subset since)).2
        rwa [hsplit] at this
    resolved := fun task => by
      rw [hj, Event.tasks_append, Event.tasks_append, List.count_append, List.count_append]
      exact Nat.add_le_add (h.resolved task) (hp.resolved task)
    result := fun task => by
      rw [hj, List.findSome?_append, ← h.result, ← hp.result, TaskQueue.result?, hresults]
      rfl }

end Orderly

/-- **A machine on which programs have been run**, one pass after another, whether they were done or failed.
Between passes everything may change but the tasks and the journal. -/
inductive AfterPasses : Machine → Prop where
  | fresh {m : Machine} (tasks : m.tasks = {}) (journal : m.journal = []) : AfterPasses m
  | between {m m' : Machine} (h : AfterPasses m) (tasks : m'.tasks = m.tasks)
      (journal : m'.journal = m.journal) : AfterPasses m'
  | done {m m' : Machine} {v : Value} (h : AfterPasses m) (depth : Nat) (p : Program)
      (pass : interpretTo depth p m = .done v m') : AfterPasses m'
  | failed {m m' : Machine} {fault : Fault} (h : AfterPasses m) (depth : Nat) (p : Program)
      (pass : interpretTo depth p m = .failed fault m') : AfterPasses m'

theorem Orderly.done (h : m.Orderly) (hdone : interpretTo depth p m = .done v m') :
    m'.tasks.queued = [] ∧ ∃ new, m'.journal = new ++ m.journal ∧ m.tasks.Progress true m'.tasks new := by
  have hpass := pass_of_done hdone
  exact ⟨queued_of_pass hpass, (progress_pass h depth p).done hpass⟩

theorem Orderly.failed (h : m.Orderly) {fault : Fault}
    (hfailed : interpretTo depth p m = .failed fault m') :
    m'.tasks.queued = [] ∧ ∃ new q, m'.journal = new ++ m.journal ∧
      m.tasks.Progress false q new ∧ m'.tasks.results = q.results := by
  obtain ⟨stopped, m₁, hpass, -, rfl⟩ := pass_of_failed hfailed
  obtain ⟨new, hj, hp⟩ := (progress_pass h depth p).failed hpass
  exact ⟨rfl, new, m₁.tasks, hj, hp, rfl⟩

theorem AfterPasses.orderly (h : m.AfterPasses) : m.Orderly := by
  induction h with
  | fresh tasks journal =>
    constructor <;> simp [tasks, journal, TaskQueue.queued, TaskQueue.count, TaskQueue.result?]
  | between _ tasks journal ih =>
    rename_i n n' _
    exact ⟨tasks ▸ ih.idle, by rw [journal, tasks]; exact ih.scheduled,
      by rw [journal]; exact ih.started, by rw [journal, tasks]; exact ih.bounded,
      by rw [journal]; exact ih.resolved, by rw [journal, tasks]; exact ih.result⟩
  | done _ depth p pass ih =>
    obtain ⟨hidle, new, hj, hp⟩ := ih.done pass
    exact ih.pass hj hp hidle rfl
  | failed _ depth p pass ih =>
    obtain ⟨hidle, new, q, hj, hp, hresults⟩ := ih.failed pass
    exact ih.pass hj hp hidle hresults

namespace Orderly

theorem resolved_once (h : m.Orderly) (task : TaskId) : (Event.tasks Event.resolved? m.journal).count task ≤ 1 := by
  have distinct : (Event.tasks Event.started? m.journal).Nodup := h.started.imp Nat.ne_of_lt
  exact Nat.le_trans (h.resolved task) (List.nodup_iff_count.mp distinct task)

theorem done_once (h : m.Orderly) (hdone : interpretTo depth p m = .done v m') (hlow : m.tasks.count ≤ task)
    (hhigh : task < m'.tasks.count) :
    (Event.tasks Event.started? m'.journal).count task = 1 ∧
      (Event.tasks Event.resolved? m'.journal).count task = 1 := by
  obtain ⟨hidle, new, hj, hp⟩ := h.done hdone
  have hold : (Event.tasks Event.started? m.journal).count task = 0 :=
    List.count_eq_zero.mpr fun hmem => Nat.not_lt_of_le hlow (h.bounded task hmem)
  have hnew : Event.tasks Event.started? new = List.range' m.tasks.count (m'.tasks.count - m.tasks.count) := by
    have := hp.queue
    rwa [hidle, h.idle, List.append_nil, List.nil_append, hp.scheduled] at this
  have hmem : task ∈ Event.tasks Event.started? new := by
    rw [hnew, List.mem_range'_1, Nat.add_sub_cancel' hp.count]
    exact ⟨hlow, hhigh⟩
  have hone : (Event.tasks Event.started? new).count task = 1 := by
    rw [hnew] at hmem ⊢
    exact Nat.le_antisymm (List.nodup_iff_count.mp List.nodup_range' task)
      (List.count_pos_iff.mpr hmem)
  have hresolved : (Event.tasks Event.resolved? m.journal).count task = 0 :=
    Nat.le_zero.mp (hold ▸ h.resolved task)
  rw [hj, Event.tasks_append, Event.tasks_append, List.count_append, List.count_append, hold,
    hresolved, hp.balance rfl, hone]
  exact ⟨rfl, rfl⟩

theorem findSome?_new {whole : Bool} {q : TaskQueue} (h : m.Orderly) (hp : m.tasks.Progress whole q new)
    (hresult : m.tasks.result? task = some v) : new.findSome? (Event.result? task) = none := by
  have hresolved : task ∈ Event.tasks Event.resolved? m.journal :=
    Event.mem_tasks_resolved (h.result task ▸ hresult)
  have hstarted : task ∈ Event.tasks Event.started? m.journal :=
    List.count_pos_iff.mp
      (Nat.lt_of_lt_of_le (List.count_pos_iff.mpr hresolved) (h.resolved task))
  refine Event.findSome?_result? fun hmem => ?_
  have hagain : task ∈ Event.tasks Event.started? new :=
    List.count_pos_iff.mp (Nat.lt_of_lt_of_le (List.count_pos_iff.mpr hmem) (hp.resolved task))
  exact Nat.not_lt_of_le (h.count_le_of_started hp hagain) (h.bounded task hstarted)

theorem result_kept (h : m.Orderly) (hresult : m.tasks.result? task = some v) (depth : Nat) (p : Program) :
    (interpretTo depth p m).Ends fun _ m' => m'.tasks.result? task = some v := by
  have kept {whole : Bool} {q : TaskQueue} {new : List Event}
      (hp : m.tasks.Progress whole q new) : q.result? task = some v := by
    rw [hp.result, h.findSome?_new hp hresult]
    exact hresult
  cases hpass : interpretTo depth p m with
  | done w m' =>
    obtain ⟨-, new, -, hp⟩ := h.done hpass
    exact kept hp
  | failed fault m' =>
    obtain ⟨-, new, q, -, hp, hresults⟩ := h.failed hpass
    show m'.tasks.result? task = some v
    rw [TaskQueue.result?, hresults]
    exact kept hp
  | exhausted => trivial

end Orderly

theorem no_start_statements (depth : Nat) (hp : p.every ExprForm.isWaitless = true) (m : Machine) :
    ((Evaluator.ofDepth depth).statements .nil p.body m).Ends fun _ m' =>
      ∃ new, m'.journal = new ++ m.journal ∧
        (WaitlessCode m.heap.functions new → Event.tasks Event.started? new = []) := by
  have follows := Evaluator.follows_statements (w := false) (Evaluator.follows_ofDepth depth) .nil
    p.body hp
  refine (follows m).imp fun _ _ course => ?_
  obtain ⟨new, hj⟩ := course.journal
  exact ⟨new, hj, fun hc => (course.no_start rfl (fun _ hf => .inl hf) hj hc).1⟩

/-- **Tasks are done in the order of their schedule, once, and not too early.**

* Over all passes, the jobs that are started have ascending numbers, and tasks are numbered in the order in
  which their calls were put off.
* A pass that is done has started each task that was made in it once, and has given it one result.
* No task gets more than one result, the results are those that the journal tells of, and a later pass
  leaves them as they are.
* The statements of a program that does not wait start no job, unless they load a module that waits or call
  a function of an earlier pass that does. -/
theorem AfterPasses.tasks_in_order (h : m.AfterPasses) :
    ((Event.tasks Event.started? m.journal).Pairwise (· < ·) ∧
      Event.tasks Event.scheduled? m.journal = List.range m.tasks.count) ∧
    (∀ depth p v m', interpretTo depth p m = .done v m' →
      ∀ task, m.tasks.count ≤ task → task < m'.tasks.count →
        (Event.tasks Event.started? m'.journal).count task = 1 ∧
          (Event.tasks Event.resolved? m'.journal).count task = 1) ∧
    (∀ task, (Event.tasks Event.resolved? m.journal).count task ≤ 1 ∧
      m.tasks.result? task = m.journal.findSome? (Event.result? task) ∧
      ∀ v, m.tasks.result? task = some v → ∀ depth p,
        (interpretTo depth p m).Ends fun _ m' => m'.tasks.result? task = some v) ∧
    ∀ depth (p : Program), p.every ExprForm.isWaitless = true →
      ((Evaluator.ofDepth depth).statements .nil p.body { m with log := {} }).Ends fun _ m' =>
        ∃ new, m'.journal = new ++ m.journal ∧
          (WaitlessCode m.heap.functions new → Event.tasks Event.started? new = []) := by
  have orderly := h.orderly
  refine ⟨⟨orderly.started, orderly.scheduled⟩, ?_, fun task => ⟨?_, ?_, ?_⟩, ?_⟩
  · exact fun depth p v m' hdone task hlow hhigh => orderly.done_once hdone hlow hhigh
  · exact orderly.resolved_once task
  · exact orderly.result task
  · exact fun v hresult depth p => orderly.result_kept hresult depth p
  · exact fun depth p hp => no_start_statements depth hp { m with log := {} }

def puttingOff : Program :=
  ⟨3, [⟨2, {}, .expression ⟨{}, .run
    ⟨{}, .call ⟨{}, .lambda [] ⟨1, {}, []⟩⟩ []⟩ []⟩⟩]⟩

def bare : Machine :=
  { scopes := { all := #[{}] } }

/-- A pass over the program on a fresh machine makes a task, starts it and gives it a result, and does so
only when the statement has been executed. Another pass leaves the result as it is. -/
theorem tasks_in_order_puttingOff :
    ∃ v result m', bare.AfterPasses ∧ interpretTo 4 puttingOff bare = .done v m' ∧
      m'.AfterPasses ∧ m'.tasks.count = 1 ∧
      (Event.tasks Event.started? m'.journal).count 0 = 1 ∧
      (Event.tasks Event.resolved? m'.journal).count 0 = 1 ∧
      (Event.tasks Event.started? m'.journal).Pairwise (· < ·) ∧
      m'.tasks.result? 0 = some result ∧
      ((interpretTo 4 puttingOff m').Ends fun _ m'' => m''.tasks.result? 0 = some result) ∧
      puttingOff.every ExprForm.isWaitless = true ∧
      ((Evaluator.ofDepth 4).statements .nil puttingOff.body bare).Ends fun _ m₁ =>
        ∃ new, m₁.journal = new ++ bare.journal ∧
          (WaitlessCode bare.heap.functions new → Event.tasks Event.started? new = []) := by
  have fresh : bare.AfterPasses := .fresh rfl rfl
  have run : (match interpretTo 4 puttingOff bare with
      | .done _ m' => m'.tasks.count == 1 && (m'.tasks.result? 0).isSome
      | _ => false) = true := by decide +kernel
  cases hpass : interpretTo 4 puttingOff bare with
  | failed fault m' => rw [hpass] at run; cases run
  | exhausted => rw [hpass] at run; cases run
  | done v m' =>
    rw [hpass, Bool.and_eq_true, beq_iff_eq] at run
    obtain ⟨hcount, hsome⟩ := run
    obtain ⟨result, hresult⟩ := Option.isSome_iff_exists.mp hsome
    have after : m'.AfterPasses := .done fresh 4 puttingOff hpass
    have once := fresh.tasks_in_order.2.1 4 puttingOff v m' hpass 0 (Nat.zero_le _) (by rw [hcount]; decide)
    exact ⟨v, result, m', fresh, rfl, after, hcount, once.1, once.2, after.tasks_in_order.1.1, hresult,
      (after.tasks_in_order.2.2.1 0).2.2 result hresult 4 puttingOff, by decide,
      fresh.tasks_in_order.2.2.2 4 puttingOff (by decide)⟩

end Machine

end Trellis
