import Trellis.Queue
import Trellis.Value

/-!
# Tasks

To *run* a call is to put it off: its function and its arguments are known, it waits in a queue as a
*job*, and a *task* stands for the result that it will have. The queue keeps the results of all tasks and
the number of those that have none yet.
-/

namespace Trellis

structure Job where
  /-- The task that its result is for. -/
  task : TaskId
  callee : Value
  arguments : List Value
  continuations : List Continuation := []
  /-- The scope in which the call was put off. -/
  scope : ScopeId
  span : Span := {}

structure TaskQueue where
  jobs : Queue Job := {}
  /-- For every task its result, if it has one. -/
  results : Array (Option Value) := #[]
  /-- The number of tasks that wait for a result. -/
  pending : Nat := 0

namespace TaskQueue

def reserve (q : TaskQueue) : TaskId × TaskQueue :=
  (q.results.size, { q with results := q.results.push none, pending := q.pending + 1 })

def push (q : TaskQueue) (job : Job) : TaskQueue :=
  { q with jobs := q.jobs.push job }

def pop? (q : TaskQueue) : Option (Job × TaskQueue) :=
  q.jobs.pop?.map fun (job, jobs) => (job, { q with jobs })

def result? (q : TaskQueue) (task : TaskId) : Option Value :=
  (q.results[task]?).join

def resolve (q : TaskQueue) (task : TaskId) (v : Value) : TaskQueue :=
  { q with
    results := q.results.setIfInBounds task (some v)
    pending := if (q.result? task).isNone then q.pending - 1 else q.pending }

def clear (q : TaskQueue) : TaskQueue :=
  { q with jobs := {}, pending := 0 }

end TaskQueue

end Trellis
