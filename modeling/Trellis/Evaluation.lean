import Trellis.Evaluation.Statement

/-!
# Evaluation

Here the parts of evaluation are tied together, and programs are run. The depth to which the parts go back
to each other is bounded in advance, by a number that no run comes near.
-/

namespace Trellis

def Evaluator.ofDepth : Nat → Evaluator
  | 0 =>
    { evaluate := fun _ => Action.exhaust
      execute := fun _ => Action.exhaust
      perform := fun _ => Action.exhaust
      work := fun _ => Action.exhaust
      rounds := 0 }
  | depth + 1 =>
    { evaluate := fun e m => (ofDepth depth).evaluateStep e m
      execute := fun s m => (ofDepth depth).executeStep s m
      perform := fun s m => (ofDepth depth).performStep s m
      work := fun job m => (ofDepth depth).workStep job m
      rounds := depth }

namespace Machine

/-- Execute the statements of a program and do the jobs that they leave. -/
def pass (ev : Evaluator) (p : Program) : Run Value := do
  let flow ← ev.statements .nil p.body
  ev.drain
  return flow.result

/-- **Run a program to the given depth.** It comes to the value of its last statement. A program that
fails leaves no jobs behind. -/
def interpretTo (depth : Nat) (p : Program) : Run Value := fun m =>
  match pass (.ofDepth depth) p { m with log := {} } with
  | .done v m => .done v m
  | .failed fault m => .failed (m.log.surface fault) { m with tasks := m.tasks.clear, log := {} }
  | .exhausted => .exhausted

def depthLimit : Nat := 1000000000000000000

def interpret (p : Program) : Run Value :=
  interpretTo depthLimit p

end Machine

end Trellis
