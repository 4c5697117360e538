import Trellis.Proofs.Run.Following

/-!
# How tasks go on

What a course does to the tasks can be told from what it adds to the journal. The jobs that are started come out of
the queue in the order in which their calls were put off:

    started ++ waiting afterwards = waiting before ++ put off

This equation holds of every course, wherever it is broken off. Beside it stands the balance of results: a job that
was started gets its result in the same course, unless the course is broken off.
-/

namespace Trellis

/-! ## Reading a journal -/

variable {task : TaskId}

namespace Event

def scheduled? : Event → Option TaskId
  | scheduled task => some task
  | _ => none

def started? : Event → Option TaskId
  | started task => some task
  | _ => none

def resolved? : Event → Option TaskId
  | resolved task _ => some task
  | _ => none

def result? (task : TaskId) : Event → Option Value
  | resolved other v => if other = task then some v else none
  | _ => none

/-- **The tasks of one kind of entries**, in the order in which things happened. -/
def tasks (kind : Event → Option TaskId) (journal : List Event) : List TaskId :=
  journal.reverse.filterMap kind

variable {kind : Event → Option TaskId}

@[simp] theorem tasks_nil : tasks kind [] = [] := rfl

@[simp] theorem tasks_append (new old : List Event) : tasks kind (new ++ old) = tasks kind old ++ tasks kind new := by
  simp [tasks]

@[simp] theorem tasks_cons (event : Event) (old : List Event) :
    tasks kind (event :: old) = tasks kind old ++ (kind event).toList := by
  rw [tasks, List.reverse_cons, List.filterMap_append]
  cases h : kind event <;> simp [tasks, h]

theorem findSome?_result? {journal : List Event} (h : task ∉ tasks resolved? journal) :
    journal.findSome? (result? task) = none := by
  rw [List.findSome?_eq_none_iff]
  intro event hmem
  cases event with
  | resolved other v =>
    refine if_neg ?_
    rintro rfl
    exact h (List.mem_filterMap.mpr ⟨_, List.mem_reverse.mpr hmem, rfl⟩)
  | _ => rfl

theorem mem_tasks_resolved {journal : List Event} {v : Value} (h : journal.findSome? (result? task) = some v) :
    task ∈ tasks resolved? journal := by
  by_cases hmem : task ∈ tasks resolved? journal
  · exact hmem
  · rw [findSome?_result? hmem] at h
    cases h

end Event

/-! ## Queues of jobs -/

namespace TaskQueue

variable {q q₁ q₂ : TaskQueue} {whole whole₁ whole₂ : Bool} {new new₁ new₂ : List Event} {job : Job}

def queued (q : TaskQueue) : List TaskId :=
  q.jobs.toList.map (·.task)

def count (q : TaskQueue) : Nat :=
  q.results.size

theorem queued_of_pop? (h : q.pop? = some (job, q₁)) : q.queued = job.task :: q₁.queued := by
  obtain ⟨popped, hpop, hq⟩ := Option.map_eq_some_iff.mp h
  cases hq
  rw [queued, Queue.toList_of_pop? hpop]
  rfl

theorem results_of_pop? (h : q.pop? = some (job, q₁)) : q₁.results = q.results := by
  obtain ⟨popped, -, hq⟩ := Option.map_eq_some_iff.mp h
  cases hq
  rfl

theorem queued_eq_nil_of_pop? (h : q.pop? = none) : q.queued = [] := by
  rw [queued, (Queue.pop?_eq_none_iff q.jobs).mp (Option.map_eq_none_iff.mp h)]
  rfl

theorem count_resolve (q : TaskQueue) (task : TaskId) (v : Value) : (q.resolve task v).count = q.count :=
  Array.size_setIfInBounds

theorem queued_resolve (q : TaskQueue) (task : TaskId) (v : Value) : (q.resolve task v).queued = q.queued := rfl

theorem result?_resolve (v : Value) (h : task < q.count) (other : TaskId) :
    (q.resolve task v).result? other = if task = other then some v else q.result? other := by
  unfold result? resolve
  rw [Array.getElem?_setIfInBounds]
  split
  · rw [if_pos (show task < q.results.size from h)]
    rfl
  · rfl

theorem result?_reserve (q : TaskQueue) (job : Job) (task : TaskId) :
    (q.reserve.2.push job).result? task = q.result? task := by
  unfold result? reserve push
  rw [Array.getElem?_push]
  split
  · rename_i h
    rw [h, Array.getElem?_eq_none (Nat.le_refl _)]
    rfl
  · rfl

/-- **How the tasks of a run go on**, as the new entries of the journal tell it. -/
structure Progress (whole : Bool) (q q' : TaskQueue) (new : List Event) : Prop where
  count : q.count ≤ q'.count
  /-- Tasks are numbered in the order in which their calls are put off. -/
  scheduled : Event.tasks Event.scheduled? new = List.range' q.count (q'.count - q.count)
  /-- Jobs are started in the order in which they wait. -/
  queue : Event.tasks Event.started? new ++ q'.queued =
    q.queued ++ Event.tasks Event.scheduled? new
  /-- A job that is started gets one result at most. -/
  resolved : ∀ task, (Event.tasks Event.resolved? new).count task ≤
    (Event.tasks Event.started? new).count task
  /-- If nothing is broken off, it gets one. -/
  balance : whole = true → ∀ task, (Event.tasks Event.resolved? new).count task =
    (Event.tasks Event.started? new).count task
  /-- Results are those of the journal. -/
  result : ∀ task, q'.result? task = (new.findSome? (Event.result? task)).or (q.result? task)

namespace Progress

theorem refl (q : TaskQueue) : Progress whole q q [] where
  count := Nat.le_refl _
  scheduled := by simp
  queue := by simp
  resolved _ := Nat.le_refl _
  balance _ _ := rfl
  result _ := rfl

theorem trans (h₁ : Progress whole₁ q q₁ new₁) (h₂ : Progress whole₂ q₁ q₂ new₂) :
    Progress (whole₁ && whole₂) q q₂ (new₂ ++ new₁) where
  count := Nat.le_trans h₁.count h₂.count
  scheduled := by
    have split : q₂.count - q.count = (q₁.count - q.count) + (q₂.count - q₁.count) := by
      have := h₁.count
      have := h₂.count
      omega
    have start : q.count + (q₁.count - q.count) = q₁.count := Nat.add_sub_cancel' h₁.count
    rw [Event.tasks_append, h₁.scheduled, h₂.scheduled, split, ← List.range'_append_1, start]
  queue := by
    simp only [Event.tasks_append, List.append_assoc]
    rw [h₂.queue, ← List.append_assoc, h₁.queue, List.append_assoc]
  resolved task := by
    simp only [Event.tasks_append, List.count_append]
    exact Nat.add_le_add (h₁.resolved task) (h₂.resolved task)
  balance whole task := by
    rw [Bool.and_eq_true] at whole
    simp only [Event.tasks_append, List.count_append]
    rw [h₁.balance whole.1, h₂.balance whole.2]
  result task := by
    rw [h₂.result, h₁.result, List.findSome?_append, Option.or_assoc]

theorem broken (h : Progress whole q q₁ new) : Progress false q q₁ new :=
  { h with balance := nofun }

theorem bounded (h : Progress whole q q₁ new) (hq : ∀ task ∈ q.queued, task < q.count) :
    ∀ task ∈ q₁.queued, task < q₁.count := by
  intro task hmem
  have before : task ∈ q.queued ++ Event.tasks Event.scheduled? new := by
    rw [← h.queue]
    exact List.mem_append_right _ hmem
  rw [h.scheduled] at before
  rcases List.mem_append.mp before with waiting | fresh
  · exact Nat.lt_of_lt_of_le (hq task waiting) h.count
  · have := (List.mem_range'_1.mp fresh).2
    rwa [Nat.add_sub_cancel' h.count] at this

theorem noted {event : Event} (hs : event.scheduled? = none) (ht : event.started? = none)
    (hr : event.resolved? = none) (h : Progress whole q q₁ new) :
    Progress whole q q₁ (new ++ [event]) := by
  have note : Progress true q q [event] := {
    count := Nat.le_refl _
    scheduled := by simp [hs]
    queue := by simp [hs, ht]
    resolved := by simp [hr]
    balance := by simp [hr, ht]
    result := fun task => by
      rw [Event.findSome?_result? (by simp [hr])]
      rfl }
  exact note.trans h

theorem schedule (q : TaskQueue) (h : job.task = q.count) :
    Progress whole q (q.reserve.2.push job) [.scheduled q.count] where
  count := by simp [TaskQueue.count, reserve, push]
  scheduled := by simp [TaskQueue.count, reserve, push, Event.scheduled?]
  queue := by simp [queued, reserve, push, Event.scheduled?, Event.started?, h]
  resolved _ := Nat.le_refl _
  balance _ _ := rfl
  result task := result?_reserve q job task

theorem start (h : q.pop? = some (job, q₁)) : Progress false q q₁ [.started job.task] where
  count := Nat.le_of_eq (congrArg Array.size (results_of_pop? h).symm)
  scheduled := by simp [TaskQueue.count, results_of_pop? h, Event.scheduled?]
  queue := by simp [queued_of_pop? h, Event.scheduled?, Event.started?]
  resolved _ := Nat.zero_le _
  balance := nofun
  result task := by
    show q₁.result? task = q.result? task
    rw [result?, result?, results_of_pop? h]

theorem work (v : Value) (h : q.pop? = some (job, q₁)) (inner : Progress true q₁ q₂ new)
    (bounded : job.task < q₂.count) :
    Progress true q (q₂.resolve job.task v) (.resolved job.task v :: (new ++ [.started job.task])) := by
  have done := (start h).trans inner
  have balance (task : TaskId) :
      (Event.tasks Event.resolved? (.resolved job.task v :: (new ++ [.started job.task]))).count task =
        (Event.tasks Event.started? (.resolved job.task v :: (new ++ [.started job.task]))).count
          task := by
    simp [Event.resolved?, Event.started?, List.count_cons, inner.balance rfl task]
  exact {
    count := by rw [count_resolve]; exact done.count
    scheduled := by
      rw [count_resolve, ← done.scheduled, Event.tasks_cons]
      exact List.append_nil _
    queue := by
      rw [Event.tasks_cons, Event.tasks_cons, queued_resolve]
      simpa [Event.scheduled?, Event.started?] using done.queue
    resolved := fun task => Nat.le_of_eq (balance task)
    balance := fun _ => balance
    result := fun task => by
      rw [result?_resolve v bounded, List.findSome?_cons, done.result, Event.result?]
      by_cases htask : job.task = task
      · rw [if_pos htask, if_pos htask]
        rfl
      · rw [if_neg htask, if_neg htask] }

end Progress

end TaskQueue

/-! ## Courses -/

theorem Course.progress {w : Bool} {r : Reach} {whole : Bool} {m m' : Machine}
    (h : Course w r whole m m') (hq : ∀ task ∈ m.tasks.queued, task < m.tasks.count) :
    ∃ new, m'.journal = new ++ m.journal ∧ m.tasks.Progress whole m'.tasks new := by
  induction h with
  | quiet h => exact ⟨[], h.journal, h.tasks ▸ .refl _⟩
  | seq _ _ ih₁ ih₂ =>
    obtain ⟨new₁, hj₁, h₁⟩ := ih₁ hq
    obtain ⟨new₂, hj₂, h₂⟩ := ih₂ (h₁.bounded hq)
    exact ⟨new₂ ++ new₁, by rw [hj₂, hj₁, List.append_assoc], h₁.trans h₂⟩
  | stop _ ih =>
    obtain ⟨new, hj, h⟩ := ih hq
    exact ⟨new, hj, h.broken⟩
  | pass _ record ih =>
    obtain ⟨new, hj, h⟩ := ih hq
    exact ⟨new, record.journal.trans hj, record.tasks ▸ h⟩
  | widen _ ih => exact ih hq
  | schedule callee arguments continuations span =>
    exact ⟨[_], rfl, .schedule _ rfl⟩
  | work v pop _ ih =>
    rename_i m m₁ job tasks _
    have popped := TaskQueue.Progress.start pop
    obtain ⟨new, hj, h⟩ := ih (popped.bounded hq)
    have bounded : job.task < m₁.tasks.count := by
      refine Nat.lt_of_lt_of_le (hq job.task ?_) (Nat.le_trans popped.count h.count)
      rw [TaskQueue.queued_of_pop? pop]
      exact .head _
    refine ⟨_, ?_, .work v pop h bounded⟩
    exact congrArg (_ :: ·) (hj.trans (List.append_cons _ _ _))
  | workStopped pop _ ih =>
    have popped := TaskQueue.Progress.start pop
    obtain ⟨new, hj, h⟩ := ih (popped.bounded hq)
    exact ⟨_, hj.trans (List.append_cons _ _ _), popped.trans h⟩
  | block _ ih => exact ih hq
  | call f _ _ ih =>
    obtain ⟨new, hj, h⟩ := ih hq
    exact ⟨_, hj.trans (List.append_cons _ _ _), .noted rfl rfl rfl h⟩
  | builtin _ _ _ ih => exact ih hq
  | builtinStopped _ _ _ ih => exact ih hq
  | load path program _ _ _ ih =>
    obtain ⟨new, hj, h⟩ := ih hq
    exact ⟨_, hj.trans (List.append_cons _ _ _), .noted rfl rfl rfl h⟩
  | loadStopped path program _ _ _ ih =>
    obtain ⟨new, hj, h⟩ := ih hq
    exact ⟨_, hj.trans (List.append_cons _ _ _), .noted rfl rfl rfl h⟩
  | _ => exact ⟨[], rfl, .refl _⟩

end Trellis
