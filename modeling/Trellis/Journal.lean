import Trellis.Path
import Trellis.Value

/-!
# Journals

A run keeps a journal of what becomes of its tasks and of the code that it executes: a call is put off, the
job of it is started, its task gets a result, the script of a module has been read, a function is called.
The journal only grows, and nothing in a run depends on it. It is there to speak about the order in which
things happened.
-/

namespace Trellis

inductive Event where
  /-- A call was put off, and the task stands for its result. -/
  | scheduled (task : TaskId)
  /-- The job of a task was taken out of the queue and is being done. -/
  | started (task : TaskId)
  | resolved (task : TaskId) (v : Value)
  /-- The script of a module was read from a file. -/
  | moduleRead (path : Path) (program : Program)
  /-- A function of a script was called. -/
  | called (f : Closure)

end Trellis
