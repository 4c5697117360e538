import Trellis.Proofs.Run.Moments
import Trellis.Proofs.Run.Schedule

/-!
# The accounts of tasks

At every moment each task that was ever made is in one of four places: its job waits in the queue, its job is under
way, it has got its result, or it was dropped by an earlier pass that failed. It is in no two of them, and in none
of them twice. The queue counts those of the first two kinds.

Which jobs are under way can be told from the journal (`Event.underWay`), the innermost one first, because jobs are
done inside of each other. Which tasks were dropped is told by the history of the passes (`Machine.AfterDrops`). That
the accounts are right is what one course preserves (`Course.accounts`), and so it holds at every moment
(`Machine.accounts_upTo`).

Whoever waits for a task does the jobs of the queue until there is a result. If the queue runs empty before, then by
the accounts the job of the task is under way, further out, or was dropped.
-/

namespace Trellis

/-! ## Jobs under way -/

namespace Event

/-- **The tasks of the jobs under way**, the innermost one first, if those given were under way before the
entries of the journal. -/
def underWay (before : List TaskId) : List Event → List TaskId
  | [] => before
  | started task :: earlier => task :: underWay before earlier
  | resolved task _ :: earlier => (underWay before earlier).erase task
  | _ :: earlier => underWay before earlier

theorem underWay_append (before : List TaskId) (new old : List Event) :
    underWay before (new ++ old) = underWay (underWay before old) new := by
  induction new with
  | nil => rfl
  | cons event new ih =>
    cases event with
    | started task => exact congrArg (task :: ·) ih
    | resolved task v => exact congrArg (·.erase task) ih
    | _ => exact ih

end Event

def Machine.since (m m' : Machine) : List Event :=
  m'.journal.take (m'.journal.length - m.journal.length)

theorem Machine.since_eq {m m' : Machine} {new : List Event} (h : m'.journal = new ++ m.journal) :
    m.since m' = new := by
  unfold since
  rw [h, List.length_append, Nat.add_sub_cancel]
  exact List.take_left

/-! ## Accounts -/

variable {task : TaskId}

namespace TaskQueue

variable {q q₁ : TaskQueue} {lost jobs : List TaskId} {job : Job}

/-- **The accounts of tasks are right**, with the tasks that were dropped and those of the jobs under way.

Each task that was made is queued, under way, dropped or resolved, in one of these ways and once, and no other
task is in any of them. Those that are queued or under way are the ones that wait for a result. -/
structure Accounts (q : TaskQueue) (lost jobs : List TaskId) : Prop where
  once : ∀ task, q.queued.count task + jobs.count task + lost.count task +
    (if (q.result? task).isSome then 1 else 0) = if task < q.count then 1 else 0
  pending : q.pending = q.queued.length + jobs.length

namespace Accounts

theorem empty : Accounts {} [] [] where
  once _ := rfl
  pending := rfl

theorem schedule (h : q.Accounts lost jobs) (fresh : job.task = q.count) :
    (q.reserve.2.push job).Accounts lost jobs where
  once task := by
    have before := h.once task
    have waiting : (q.reserve.2.push job).queued = q.queued ++ [q.count] := by
      simp [queued, reserve, push, fresh]
    have more : (q.reserve.2.push job).count = q.count + 1 := by
      simp [count, reserve, push]
    rw [waiting, more, result?_reserve, List.count_append, List.count_singleton]
    by_cases hnew : q.count = task
    · subst hnew
      rw [if_neg (Nat.lt_irrefl _)] at before
      simp only [beq_self_eq_true, if_true, Nat.lt_succ_self]
      omega
    · simp only [beq_eq_false_iff_ne.mpr hnew, Bool.false_eq_true, if_false]
      have older : task < q.count + 1 ↔ task < q.count :=
        ⟨fun h => Nat.lt_of_le_of_ne (Nat.le_of_lt_succ h) (Ne.symm hnew), Nat.lt_succ_of_lt⟩
      simp only [older]
      omega
  pending := by
    have := h.pending
    simp only [queued, reserve, push, Queue.toList_push, List.map_append, List.length_append,
      List.map_cons, List.map_nil, List.length_cons, List.length_nil] at *
    omega

theorem start (h : q.Accounts lost jobs) (pop : q.pop? = some (job, q₁)) : q₁.Accounts lost (job.task :: jobs) where
  once task := by
    have before := h.once task
    have kept : q₁.count = q.count := congrArg Array.size (results_of_pop? pop)
    have result : q₁.result? task = q.result? task := by
      rw [result?, result?, results_of_pop? pop]
    rw [queued_of_pop? pop, List.count_cons] at before
    rw [kept, result, List.count_cons]
    omega
  pending := by
    have before := h.pending
    have kept : q₁.pending = q.pending := by
      obtain ⟨popped, -, hq⟩ := Option.map_eq_some_iff.mp pop
      cases hq
      rfl
    rw [queued_of_pop? pop, List.length_cons] at before
    rw [kept, before, List.length_cons]
    omega

theorem unresolved (h : q.Accounts lost (task :: jobs)) : task < q.count ∧ q.result? task = none := by
  have own := h.once task
  rw [List.count_cons_self] at own
  by_cases bounded : task < q.count
  · refine ⟨bounded, ?_⟩
    cases hresult : q.result? task with
    | none => rfl
    | some v =>
      rw [hresult, if_pos bounded, Option.isSome_some, if_pos rfl] at own
      omega
  · rw [if_neg bounded] at own
    omega

theorem complete (h : q.Accounts lost (task :: jobs)) (v : Value) :
    (q.resolve task v).Accounts lost jobs where
  once other := by
    obtain ⟨bounded, none⟩ := h.unresolved
    have before := h.once other
    rw [queued_resolve, count_resolve, result?_resolve v bounded]
    by_cases same : task = other
    · subst same
      rw [List.count_cons_self, none, Option.isSome_none] at before
      simp only [Bool.false_eq_true, if_false] at before
      rw [if_pos rfl, Option.isSome_some, if_pos rfl]
      omega
    · rw [List.count_cons_of_ne (fun h => same h)] at before
      rw [if_neg same]
      exact before
  pending := by
    obtain ⟨-, none⟩ := h.unresolved
    have before := h.pending
    show (if (q.result? task).isNone then q.pending - 1 else q.pending) = _
    rw [none, Option.isNone_none, if_pos rfl, before, queued_resolve, List.length_cons]
    omega

theorem clear (h : q.Accounts lost jobs) : q.clear.Accounts (lost ++ (q.queued ++ jobs)) [] where
  once task := by
    have before := h.once task
    show 0 + 0 + _ + (if (q.result? task).isSome then 1 else 0) = if task < q.count then 1 else 0
    rw [List.count_append, List.count_append]
    omega
  pending := rfl

theorem bounded (h : q.Accounts lost jobs) : ∀ task ∈ q.queued, task < q.count := by
  intro task hmem
  have own := h.once task
  have waits : 0 < q.queued.count task := List.count_pos_iff.mpr hmem
  by_cases made : task < q.count
  · exact made
  · rw [if_neg made] at own
    omega

theorem mem_of_idle (h : q.Accounts lost jobs) (made : task < q.count) (idle : q.queued = [])
    (none : q.result? task = none) : task ∈ jobs ∨ task ∈ lost := by
  have own := h.once task
  rw [idle, none, if_pos made, List.count_nil, Option.isSome_none] at own
  by_cases inJobs : task ∈ jobs
  · exact .inl inJobs
  · refine .inr (List.count_pos_iff.mp ?_)
    rw [List.count_eq_zero.mpr inJobs] at own
    simp only [Bool.false_eq_true, if_false] at own
    omega

end Accounts

end TaskQueue

/-! ## Courses -/

/-- **A piece of a run keeps the accounts right.** The jobs that are under way behind it are those before and,
if it was broken off, the ones that were started in it. -/
def Machine.KeepsAccounts (whole : Bool) (m m' : Machine) : Prop :=
  ∀ lost jobs, m.tasks.Accounts lost jobs → ∃ new more,
    m'.journal = new ++ m.journal ∧ (∀ before, Event.underWay before new = more ++ before) ∧
      m'.tasks.Accounts lost (more ++ jobs) ∧ (whole = true → more = [])

namespace Machine.KeepsAccounts

variable {whole : Bool} {m m' m₁ m₂ : Machine}

theorem same (tasks : m'.tasks = m.tasks) (journal : m'.journal = m.journal) : KeepsAccounts whole m m' :=
  fun _ _ h => ⟨[], [], journal, fun _ => rfl, tasks ▸ h, fun _ => rfl⟩

theorem trans (h₁ : KeepsAccounts true m m₁) (h₂ : KeepsAccounts whole m₁ m₂) : KeepsAccounts whole m m₂ := by
  intro lost jobs h
  obtain ⟨new₁, more₁, hj₁, hu₁, ha₁, hw₁⟩ := h₁ lost jobs h
  cases hw₁ rfl
  obtain ⟨new₂, more₂, hj₂, hu₂, ha₂, hw₂⟩ := h₂ lost jobs ha₁
  refine ⟨new₂ ++ new₁, more₂, by rw [hj₂, hj₁, List.append_assoc], fun before => ?_, ha₂, hw₂⟩
  rw [Event.underWay_append, hu₁, hu₂]
  rfl

theorem broken (h : KeepsAccounts true m m') : KeepsAccounts false m m' := by
  intro lost jobs ha
  obtain ⟨new, more, hj, hu, ha', -⟩ := h lost jobs ha
  exact ⟨new, more, hj, hu, ha', fun hwhole => by cases hwhole⟩

theorem noted {event : Event} (hevent : ∀ before, Event.underWay before [event] = before)
    (h : KeepsAccounts whole (m.note event) m') : KeepsAccounts whole m m' := by
  intro lost jobs ha
  obtain ⟨new, more, hj, hu, ha', hw⟩ := h lost jobs ha
  refine ⟨new ++ [event], more, hj.trans (List.append_cons _ _ _), fun before => ?_, ha', hw⟩
  rw [Event.underWay_append, hevent, hu]

theorem schedule (m : Machine) (callee : Value) (arguments : List Value)
    (continuations : List Continuation) (span : Span) :
    KeepsAccounts true m (m.schedule callee arguments continuations span) :=
  fun _ _ h => ⟨[.scheduled m.tasks.reserve.1], [], rfl, fun _ => rfl, h.schedule rfl, fun _ => rfl⟩

variable {job : Job} {tasks : TaskQueue}

theorem workStopped (pop : m.tasks.pop? = some (job, tasks))
    (h : KeepsAccounts false ({ m with tasks }.begin job) m₁) :
    KeepsAccounts false m (m₁.moveTo m.current) := by
  intro lost jobs ha
  obtain ⟨new, more, hj, hu, ha', -⟩ := h lost _ (ha.start pop)
  refine ⟨new ++ [.started job.task], more ++ [job.task], hj.trans (List.append_cons _ _ _),
    fun before => ?_, ?_, fun hwhole => by cases hwhole⟩
  · rw [Event.underWay_append, hu, List.append_assoc]
    rfl
  · rw [List.append_assoc]
    exact ha'

theorem work (v : Value) (pop : m.tasks.pop? = some (job, tasks))
    (h : KeepsAccounts true ({ m with tasks }.begin job) m₁) :
    KeepsAccounts true m ((m₁.moveTo m.current).complete job v) := by
  intro lost jobs ha
  obtain ⟨new, more, hj, hu, ha', hw⟩ := h lost _ (ha.start pop)
  cases hw rfl
  refine ⟨.resolved job.task v :: (new ++ [.started job.task]), [],
    congrArg (_ :: ·) (hj.trans (List.append_cons _ _ _)), fun before => ?_, ha'.complete v,
    fun _ => rfl⟩
  show (Event.underWay before (new ++ [.started job.task])).erase job.task = before
  rw [Event.underWay_append, hu]
  exact List.erase_cons_head job.task before

end Machine.KeepsAccounts

theorem Course.accounts {w : Bool} {r : Reach} {whole : Bool} {m m' : Machine}
    (h : Course w r whole m m') : Machine.KeepsAccounts whole m m' := by
  induction h with
  | quiet h => exact .same h.tasks h.journal
  | seq _ _ ih₁ ih₂ => exact ih₁.trans ih₂
  | stop _ ih => exact ih.broken
  | pass _ record ih =>
    intro lost jobs ha
    obtain ⟨new, more, hj, hu, ha', hw⟩ := ih lost jobs ha
    exact ⟨new, more, record.journal.trans hj, hu, record.tasks ▸ ha', hw⟩
  | widen _ ih => exact ih
  | schedule callee arguments continuations span => exact .schedule _ _ _ _ _
  | work v pop _ ih => exact .work v pop ih
  | workStopped pop _ ih => exact .workStopped pop ih
  | block _ ih => exact ih
  | call f _ _ ih => exact .noted (fun _ => rfl) ih
  | builtin _ _ _ ih => exact ih
  | builtinStopped _ _ _ ih => exact ih
  | load path program _ _ _ ih => exact .noted (fun _ => rfl) ih
  | loadStopped path program _ _ _ ih => exact .noted (fun _ => rfl) ih
  | _ => exact .same rfl rfl

/-! ## Waiting -/

namespace Evaluator

variable {ev : Evaluator} {lost jobs : List TaskId} {m m' : Machine}

theorem accounts_work (hev : ev.Follows) {job : Job} {tasks : TaskQueue}
    (ha : m.tasks.Accounts lost jobs) (pop : m.tasks.pop? = some (job, tasks))
    (h : ev.work job { m with tasks } = .done () m') :
    m'.tasks.Accounts lost jobs ∧ m.tasks.count ≤ m'.tasks.count := by
  have worked := (hev.work job { m with tasks }).done h
  rcases worked with ⟨m₁, v, c₁, rfl⟩ | ⟨broken, -⟩
  · have course := Course.work v pop c₁
    obtain ⟨new, more, -, -, ha', hw⟩ := course.accounts lost jobs ha
    obtain ⟨_, _, progress⟩ := course.progress ha.bounded
    cases hw rfl
    exact ⟨ha', progress.count⟩
  · cases broken

/-- **How waiting for a task fails**: a job fails that is done meanwhile, or no job is left, and then the job
of the task is under way or was dropped. -/
theorem failed_waitIn (hev : ev.Follows) {span : Span} {bound : Nat} {fault : Fault}
    (ha : m.tasks.Accounts lost jobs) (made : task < m.tasks.count)
    (h : ev.waitIn task span bound m = .failed fault m') :
    (∃ (job : Job) (m₁ : Machine) (tasks : TaskQueue), m₁.tasks.Accounts lost jobs ∧
      m₁.tasks.pop? = some (job, tasks) ∧ ev.work job { m₁ with tasks } = .failed fault m') ∨
    (fault = .running .neverResolved span ∧ m'.tasks.Accounts lost jobs ∧ m'.tasks.queued = [] ∧
      (task ∈ jobs ∨ task ∈ lost)) := by
  induction bound generalizing m with
  | zero => cases h
  | succ bound ih =>
    unfold waitIn at h
    cases hresult : m.tasks.result? task with
    | some v =>
      rw [Action.bind_apply, Action.read_apply, hresult] at h
      cases h
    | none =>
      rw [Action.bind_apply, Action.read_apply, hresult] at h
      simp only at h
      rw [Action.bind_apply] at h
      cases hpop : m.tasks.pop? with
      | none =>
        have next : nextJob? m = .done none m := by
          unfold nextJob?
          rw [hpop]
        rw [next] at h
        cases h
        have idle := TaskQueue.queued_eq_nil_of_pop? hpop
        exact .inr ⟨rfl, ha, idle, ha.mem_of_idle made idle hresult⟩
      | some popped =>
        obtain ⟨job, tasks⟩ := popped
        have next : nextJob? m = .done (some job) { m with tasks } := by
          unfold nextJob?
          rw [hpop]
        rw [next] at h
        simp only at h
        rw [Action.bind_apply] at h
        cases hwork : ev.work job { m with tasks } with
        | failed other m₂ =>
          rw [hwork] at h
          cases h
          exact .inl ⟨job, m, tasks, ha, hpop, hwork⟩
        | exhausted =>
          rw [hwork] at h
          cases h
        | done _ m₂ =>
          rw [hwork] at h
          obtain ⟨ha₂, hcount⟩ := accounts_work hev ha hpop hwork
          exact ih ha₂ (Nat.lt_of_lt_of_le made hcount) h

end Evaluator

/-! ## Passes -/

namespace Machine

variable {m m' : Machine} {lost : List TaskId}

theorem accounts_pass {ev : Evaluator} (hev : ev.Follows) (h : m.tasks.Accounts lost [])
    (p : Program) :
    (pass ev p { m with log := {} }).Ends fun whole m' =>
      m'.tasks.Accounts lost (Event.underWay [] (m.since m')) ∧
        (whole = true → Event.underWay [] (m.since m') = []) := by
  refine (follows_pass hev p { m with log := {} }).imp fun whole m' course => ?_
  obtain ⟨new, more, hj, hu, ha, hw⟩ := course.accounts lost [] h
  have told : m.since m' = new := since_eq hj
  rw [List.append_nil] at ha
  rw [told, hu, List.append_nil]
  exact ⟨ha, hw⟩

/-- **A machine on which programs have been run**, one pass after another, and the tasks that were dropped by
those that failed: the ones that waited or were under way at that moment. Between passes everything may change
but the tasks. -/
inductive AfterDrops : List TaskId → Machine → Prop where
  | fresh {m : Machine} (tasks : m.tasks = {}) : AfterDrops [] m
  | between {lost : List TaskId} {m m' : Machine} (h : AfterDrops lost m)
      (tasks : m'.tasks = m.tasks) : AfterDrops lost m'
  | done {lost : List TaskId} {m m' : Machine} {v : Value} (h : AfterDrops lost m) (depth : Nat)
      (p : Program) (ends : interpretTo depth p m = .done v m') : AfterDrops lost m'
  | failed {lost : List TaskId} {m m₁ m' : Machine} {fault surfaced : Fault} (h : AfterDrops lost m)
      (depth : Nat) (p : Program)
      (stopped : pass (.ofDepth depth) p { m with log := {} } = .failed fault m₁)
      (ends : interpretTo depth p m = .failed surfaced m') :
      AfterDrops (lost ++ (m₁.tasks.queued ++ Event.underWay [] (m.since m₁))) m'

theorem AfterDrops.atRest (h : AfterDrops lost m) : m.tasks.Accounts lost [] ∧ m.tasks.queued = [] := by
  induction h with
  | fresh tasks => exact tasks ▸ ⟨.empty, rfl⟩
  | between _ tasks ih => exact tasks ▸ ih
  | done _ depth p ends ih =>
    rename_i lost m m' v _
    have hpass := pass_of_done ends
    have accounts := (accounts_pass (Evaluator.follows_ofDepth depth) ih.1 p).done hpass
    exact ⟨accounts.2 rfl ▸ accounts.1, queued_of_pass hpass⟩
  | failed _ depth p stopped ends ih =>
    have accounts := accounts_pass (Evaluator.follows_ofDepth depth) ih.1 p
    unfold interpretTo at ends
    rw [stopped] at ends accounts
    cases ends
    exact ⟨accounts.1.clear, rfl⟩

theorem AfterDrops.idle_interpretTo (h : AfterDrops lost m) (depth : Nat) (p : Program) :
    (interpretTo depth p m).Ends fun _ m' => m'.tasks.pending = 0 ∧ m'.tasks.queued = [] := by
  have idle {lost : List TaskId} {m' : Machine} (h' : AfterDrops lost m') :
      m'.tasks.pending = 0 ∧ m'.tasks.queued = [] := by
    obtain ⟨accounts, queued⟩ := h'.atRest
    exact ⟨by rw [accounts.pending, queued]; rfl, queued⟩
  cases hends : interpretTo depth p m with
  | done v m' => exact idle (.done h depth p hends)
  | exhausted => trivial
  | failed surfaced m' =>
    obtain ⟨fault, m₁, hpass, -⟩ := pass_of_failed hends
    exact idle (.failed h depth p hpass hends)

/-- **Each task is accounted for at every moment of every run.**

* While no pass is going on, each task that was made is resolved or was dropped, no job waits, and the queue
  counts none.
* Wherever a pass is broken off, each task is queued, under way, resolved or dropped, once and in one of these
  ways, and the queue counts those that are queued or under way.
* Behind a pass that was done or that failed, no job waits, and the queue counts none.
* Waiting for a task fails because a job fails that is done meanwhile, or because no job is left. The task
  is one of which the job is under way or was dropped then. -/
theorem AfterDrops.tasks_accounted (h : AfterDrops lost m) :
    (m.tasks.Accounts lost [] ∧ m.tasks.queued = [] ∧ m.tasks.pending = 0) ∧
    (∀ stop depth p, (pass (.upTo stop depth) p { m with log := {} }).Ends fun _ m' =>
      m'.tasks.Accounts lost (Event.underWay [] (m.since m'))) ∧
    (∀ depth p, (interpretTo depth p m).Ends fun _ m' =>
      m'.tasks.pending = 0 ∧ m'.tasks.queued = []) ∧
    ∀ depth jobs task span (n n' : Machine) fault, n.tasks.Accounts lost jobs → task < n.tasks.count →
      (Evaluator.ofDepth depth).waitFor task span n = .failed fault n' →
        (∃ (job : Job) (n₁ : Machine) (tasks : TaskQueue), n₁.tasks.Accounts lost jobs ∧
          n₁.tasks.pop? = some (job, tasks) ∧
          (Evaluator.ofDepth depth).work job { n₁ with tasks } = .failed fault n') ∨
        (fault = .running .neverResolved span ∧ n'.tasks.Accounts lost jobs ∧
          n'.tasks.queued = [] ∧ (task ∈ jobs ∨ task ∈ lost)) := by
  obtain ⟨accounts, queued⟩ := h.atRest
  refine ⟨⟨accounts, queued, by rw [accounts.pending, queued]; rfl⟩, fun stop depth p => ?_,
    fun depth p => h.idle_interpretTo depth p, fun depth jobs task span n n' fault ha made hwait => ?_⟩
  · exact (accounts_pass (Evaluator.follows_upTo stop depth) accounts p).imp fun _ _ h => h.1
  · exact Evaluator.failed_waitIn (Evaluator.follows_ofDepth depth) ha made hwait

def breakingOff : Program :=
  ⟨4, puttingOff.body ++ [⟨3, {}, .expression ⟨{}, .name "missing"⟩⟩]⟩

/-- A pass over the program on a fresh machine drops the only task. Whoever waits for it afterwards does so in
vain, and a later pass has it among the tasks that were dropped, whatever its own tasks come to. -/
theorem tasks_accounted_breakingOff :
    ∃ surfaced m, interpretTo 4 breakingOff bare = .failed surfaced m ∧ AfterDrops [0] m ∧
      m.tasks.count = 1 ∧ m.tasks.Accounts [0] [] ∧ m.tasks.queued = [] ∧ m.tasks.pending = 0 ∧
      (∀ stop, (pass (.upTo stop 4) puttingOff { m with log := {} }).Ends fun _ m' =>
        m'.tasks.Accounts [0] (Event.underWay [] (m.since m'))) ∧
      (Evaluator.ofDepth 4).waitFor 0 {} m = .failed (.running .neverResolved {}) m := by
  have fresh : AfterDrops [] bare := .fresh rfl
  have run : (match pass (.ofDepth 4) breakingOff { bare with log := {} } with
      | .failed _ m₁ => m₁.tasks.count == 1 && m₁.tasks.queued == [0] &&
          Event.underWay [] (bare.since m₁) == [] && (m₁.tasks.result? 0).isNone
      | _ => false) = true := by decide +kernel
  cases hpass : pass (.ofDepth 4) breakingOff { bare with log := {} } with
  | done v m₁ => rw [hpass] at run; cases run
  | exhausted => rw [hpass] at run; cases run
  | failed fault m₁ =>
    rw [hpass, Bool.and_eq_true, Bool.and_eq_true, Bool.and_eq_true, beq_iff_eq, beq_iff_eq,
      beq_iff_eq] at run
    obtain ⟨⟨⟨hcount, hqueued⟩, hunder⟩, hresult⟩ := run
    have ends : interpretTo 4 breakingOff bare = .failed (m₁.log.surface fault)
        { m₁ with tasks := m₁.tasks.clear, log := {} } := by
      unfold interpretTo
      rw [hpass]
    have after := AfterDrops.failed fresh 4 breakingOff hpass ends
    rw [hqueued, hunder] at after
    have atRest := after.tasks_accounted.1
    refine ⟨_, _, ends, after, hcount, atRest.1, atRest.2.1, atRest.2.2,
      fun stop => after.tasks_accounted.2.1 stop 4 puttingOff, ?_⟩
    have none : m₁.tasks.clear.result? 0 = none := Option.isNone_iff_eq_none.mp hresult
    show Evaluator.waitIn _ 0 {} 3 _ = _
    unfold Evaluator.waitIn
    rw [Action.bind_apply, Action.read_apply]
    simp only [none]
    rfl

end Machine

end Trellis
