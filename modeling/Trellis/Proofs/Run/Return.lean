import Trellis.Proofs.Run.Schedule
import Trellis.Session

/-!
# Coming back to a scope

Code is executed in the current scope of a machine. A block, a call, a module and a job move to a scope of their own
for a while, and each of them may be left by a value, by a result, by a fault, or because the debugger ends the run.
Whichever it is, the machine is then again in the scope that it was in before.

For most parts of evaluation this is read off their course (`Course.current`). Functions that are called without
being on the heap, and modules that are evaluated without having been marked, have no course of their own; for them
it is put together from the parts they are made of. A session stays in the root that it started with.
-/

namespace Trellis

namespace Run

variable {α β : Type} {w : Bool} {r : Reach} {scope : ScopeId}

def ComesBack (x : Run α) : Prop :=
  ∀ m, (x m).Ends fun _ m' => m'.current = m.current

namespace ComesBack

theorem bind {x : Run α} {f : α → Run β} (hx : ComesBack x) (hf : ∀ a, ComesBack (f a)) :
    ComesBack (x >>= f) := fun m =>
  Action.ends_bind (hx m) (fun _ h => h) (fun a t _ h₁ => (hf a t).imp fun _ _ h₂ => h₂.trans h₁)

end ComesBack

theorem Follows.comesBack {x : Run α} (h : Follows w r x) : ComesBack x :=
  fun m => (h m).imp fun _ _ course => course.current

theorem FollowsIn.comesBack {x : Run α} (h : FollowsIn w r scope x) : ComesBack x := by
  intro m
  refine (h m).imp ?_
  rintro _ _ ⟨m₁, -, rfl⟩
  rfl

end Run

open Run

namespace Evaluator

variable {ev : Evaluator}

theorem comesBack_callClosure (hev : ev.Follows) (f : Closure) (arguments : List Value) :
    ComesBack (ev.callClosure f arguments) := by
  refine .bind (fun _ => rfl) fun _ => .bind (fun _ => rfl) fun scope => ?_
  have called := (doing_calling (W := ev) (E := .job ⟨0, .nil, [], [], 0, {}⟩) rfl f arguments nofun scope).follows hev
  exact (called true (.inl rfl)).comesBack

theorem comesBack_work (hev : ev.Follows) (job : Job) : ComesBack (ev.work job) := by
  intro m
  refine (hev.work job m).imp ?_
  rintro _ _ (⟨m₁, v, -, rfl⟩ | ⟨-, m₁, -, rfl⟩) <;> rfl

theorem comesBack_evaluateModule (hev : ev.Follows) (path : Path) : ComesBack (ev.evaluateModule path) := by
  intro m
  refine (ends_evaluateModule hev path m).imp ?_
  rintro _ _ (⟨-, rfl⟩ | ⟨program, m₁, -, rfl⟩) <;> rfl

end Evaluator

theorem Machine.comesBack_interpretTo (depth : Nat) (p : Program) : ComesBack (Machine.interpretTo depth p) := by
  intro m
  have back := (follows_pass (Evaluator.follows_ofDepth depth) p).comesBack { m with log := {} }
  exact ends_interpretTo back (fun _ h => h) fun _ h => h

/-! ## Sessions -/

namespace Session

theorem current_run (s : Session) (input : String) : (s.run input).machine.current = s.machine.current := by
  unfold run
  dsimp only
  cases (scan s.machine.keywords input).fault? with
  | some fault => rfl
  | none =>
    dsimp only
    cases (s.parser.push (scan s.machine.keywords input).tokens).readProgram with
    | exhausted => rfl
    | failed fault parser => rfl
    | done program parser =>
      have back := Machine.comesBack_interpretTo Machine.depthLimit program s.machine
      dsimp only
      unfold Machine.interpret
      cases hpass : Machine.interpretTo Machine.depthLimit program s.machine with
      | exhausted => rfl
      | failed fault machine =>
        rw [hpass] at back
        exact back
      | done v machine =>
        rw [hpass] at back
        dsimp only
        unfold echo
        split <;> exact back

theorem current_feed (s : Session) (line : String) : (s.feed line).machine.current = s.machine.current := by
  unfold feed
  dsimp only
  split
  · split
    · rfl
    · exact current_run _ _
  · rfl

theorem current_feedAll (s : Session) (input : String) : (s.feedAll input).machine.current = s.machine.current := by
  unfold feedAll
  generalize (Text.lines input).map Text.typed = lines
  induction lines generalizing s with
  | nil => rfl
  | cons line rest ih => exact (ih (s.feed line)).trans (current_feed s line)

end Session

/-! ## All parts of evaluation -/

/-- **The current scope is always restored.** From every state of a machine, whoever observes it, each part of
evaluation comes back to the scope it started in, however it ends: statements in a row, a block in whichever
scope, an expression, a statement, a call, waiting for a task, a job, a module, and a whole pass. So a session
is in the root that it started with, whatever has failed in it. -/
theorem Evaluator.current_restored (depth : Nat) :
    (∀ last body, ComesBack ((ofDepth depth).statements last body)) ∧
    (∀ b scope, ComesBack ((ofDepth depth).block b scope)) ∧
    (∀ s, ComesBack ((ofDepth depth).execute s)) ∧
    (∀ e, ComesBack ((ofDepth depth).evaluate e)) ∧
    (∀ f arguments, ComesBack ((ofDepth depth).callClosure f arguments)) ∧
    (∀ callee arguments span, ComesBack ((ofDepth depth).call callee arguments span)) ∧
    (∀ task span, ComesBack ((ofDepth depth).waitFor task span)) ∧
    (∀ job, ComesBack ((ofDepth depth).work job)) ∧
    (∀ path, ComesBack ((ofDepth depth).evaluateModule path)) ∧
    (∀ p, ComesBack (Machine.interpretTo depth p)) ∧
    ∀ m input, ((Session.start m).feedAll input).machine.current = (m.start none).current := by
  have hev := follows_ofDepth depth
  refine ⟨fun last body => ?_, fun b scope => ?_, fun s => ?_, fun e => ?_, fun f arguments => ?_,
    fun callee arguments span => ?_, fun task span => ?_, fun job => ?_, fun path => ?_, fun p => ?_,
    fun m input => ?_⟩
  · exact (follows_statements (w := true) hev last body rfl).comesBack
  · exact (followsIn_block (w := true) hev b scope rfl).comesBack
  · exact (hev.execute (w := true) rfl).comesBack
  · exact (hev.evaluate (w := true) rfl).comesBack
  · exact comesBack_callClosure hev f arguments
  · exact (follows_call hev callee arguments span).comesBack
  · exact (follows_waitFor hev task span).comesBack
  · exact comesBack_work hev job
  · exact comesBack_evaluateModule hev path
  · exact Machine.comesBack_interpretTo depth p
  · exact Session.current_feedAll (Session.start m) input

end Trellis
