import Trellis.Proofs.Run.Following

/-!
# The moments of a run

An action shows the machine that it ends with and nothing of what lies before. To speak about the moments in between,
a run is broken off at one of them: the evaluator `Evaluator.upTo stop` does what evaluation does, but as soon as
`stop` holds of the machine it fails. The machine is looked at whenever an expression or a statement begins or has
ended, and whenever a job has been started or its task has got its result. What holds of a run however it is broken
off holds at all of its moments.

A run that is never broken off is the run itself (`Evaluator.upTo_never`), and one that is broken off follows a
course like any other (`Evaluator.follows_upTo`).
-/

namespace Trellis

theorem Action.bind_pure {σ α : Type} (x : Action σ α) : x >>= Pure.pure = x := by
  funext s
  rw [bind_apply]
  cases x s <;> rfl

namespace Run

variable {α : Type} {stop : Machine → Bool}

def look (stop : Machine → Bool) : Run Unit := fun m =>
  if stop m then .failed (.managing .ended) m else .done () m

def upTo (stop : Machine → Bool) (x : Run α) : Run α := do
  look stop
  let a ← x
  look stop
  return a

theorem isQuiet_look (stop : Machine → Bool) : IsQuiet (look stop) := by
  intro m
  unfold look
  split <;> exact .refl m

theorem Follows.upTo {w : Bool} {r : Reach} {x : Run α} (h : Follows w r x) : Follows w r (x.upTo stop) :=
  .bind (isQuiet_look stop).follows fun _ => .bind h fun _ =>
    .bind (isQuiet_look stop).follows fun _ => .pure _

theorem look_never : look (fun _ => false) = Pure.pure () := rfl

theorem upTo_never (x : Run α) : upTo (fun _ => false) x = x := by
  unfold upTo
  rw [look_never]
  exact Action.bind_pure x

end Run

namespace Evaluator

variable {stop : Machine → Bool}

/-- Do a job, and look at the machine when it has been started and when its task has got its result. -/
def workUpTo (stop : Machine → Bool) (ev : Evaluator) (job : Job) : Run Unit := fun m =>
  if stop (m.note (.started job.task)) then .failed (.managing .ended) (m.note (.started job.task))
  else (do ev.workStep job; Run.look stop) m

/-- **The evaluator that is broken off** as soon as `stop` holds of the machine. -/
def upTo (stop : Machine → Bool) : Nat → Evaluator
  | 0 => ofDepth 0
  | depth + 1 =>
    { evaluate := fun e => ((upTo stop depth).evaluateStep e).upTo stop
      execute := fun s => ((upTo stop depth).executeStep s).upTo stop
      perform := fun s => ((upTo stop depth).performStep s).upTo stop
      work := workUpTo stop (upTo stop depth)
      rounds := depth }

theorem upTo_never (depth : Nat) : upTo (fun _ => false) depth = ofDepth depth := by
  induction depth with
  | zero => rfl
  | succ depth ih =>
    have work (ev : Evaluator) : workUpTo (fun _ => false) ev = ev.workStep := by
      funext job
      exact Action.bind_pure (ev.workStep job)
    unfold upTo ofDepth
    simp only [ih, work, Run.upTo_never]

theorem worked_workUpTo {ev : Evaluator} (hev : ev.Follows) (job : Job) (m : Machine) :
    (workUpTo stop ev job m).Ends fun whole m' => m.Worked job whole m' := by
  unfold workUpTo
  split
  · exact .inr ⟨rfl, m.begin job, .stop (.refl _), rfl⟩
  · refine Action.ends_bind (worked_workStep hev job m) (fun _ h => h) fun _ m₁ _ h => ?_
    rcases h with completed | ⟨broken, -⟩
    · unfold Run.look
      split <;> exact .inl completed
    · cases broken

theorem follows_upTo (stop : Machine → Bool) (depth : Nat) : (upTo stop depth).Follows := by
  induction depth with
  | zero => exact follows_ofDepth 0
  | succ depth ih =>
    exact ⟨fun hw => (follows_evaluateStep ih _ hw).upTo, fun hw => (follows_executeStep ih _ hw).upTo,
      fun hw => (follows_performStep ih _ hw).upTo, worked_workUpTo ih⟩

end Evaluator

end Trellis
