import Trellis.Proofs.Run.Faults

/-!
# Running what was read

An assignment to something that cannot be assigned to and the run of something other than a call are faults of
running, worded like those of reading. No program that was read ever raises them (`Parser.apt_readProgram`), because
all nodes of such a program are apt. A run also executes code that the machine holds, so what is passed on from one
run to the next is that this code is apt (`Machine.IsApt`). Then a fault of running has a cause that speaks of values
and names, and not of the form of a script (`Fault.IsProper`).
-/

namespace Trellis

open Run

/-! ## Causes -/

/-- Letters by which the wording of a cause of running is told from the two wordings that the form of a script has
in common with reading: neither of them has the first two letters, and none has both of the others. -/
def Text.IsTelling (s : String) : Prop :=
  'o' ∈ s.toList ∨ 'y' ∈ s.toList ∨ 'x' ∈ s.toList ∧ 'g' ∈ s.toList

theorem MemberFault.isTelling_message (f : MemberFault) : Text.IsTelling f.message := by
  cases f <;> unfold Text.IsTelling message <;> dsimp only [toString] <;> simp

theorem LibraryFault.isTelling_message (f : LibraryFault) : Text.IsTelling f.message := by
  cases f <;> unfold Text.IsTelling message <;> dsimp only [toString] <;> simp

namespace Cause

theorem isTelling_message {c : Cause} (h : c.isOfRunning = true) : Text.IsTelling c.message := by
  cases c with
  | member f => exact f.isTelling_message
  | library f => exact f.isTelling_message
  | _ =>
    all_goals simp only [isOfRunning, Bool.false_eq_true] at h
    all_goals unfold Text.IsTelling message; dsimp only [toString]; simp

theorem message_ne_of_isOfRunning {c : Cause} (h : c.isOfRunning = true) :
    c.message ≠ notRunnable.message ∧ c.message ≠ invalidTarget.message := by
  have telling := isTelling_message h
  refine ⟨fun same => ?_, fun same => ?_⟩
  · simp [Text.IsTelling, same, show notRunnable.message = "Expected a call after 'run'" from rfl] at telling
  · simp [Text.IsTelling, same, show invalidTarget.message = "Invalid assignment target" from rfl] at telling

end Cause

namespace Fault

theorem IsProper.sameProblem {f g : Fault} (h : f.IsProper) (same : g.SameProblem f) : g.IsProper := by
  unfold IsProper
  rw [same.stage, same.cause]
  exact h

end Fault

/-! ## Programs -/

/-- An outcome that is apt: so is the code that the machine holds, and a fault is a proper one. -/
def Outcome.IsApt {α : Type} : Outcome Machine α → Prop
  | .done _ m => m.IsApt
  | .failed f m => f.IsProper ∧ m.IsApt
  | .exhausted => True

namespace Machine

theorem IsApt.start {m : Machine} (h : m.IsApt) (file : Option Path) : (m.start file).IsApt :=
  (proceeds_addPrelude (m.enter (m.scopes.addRoot file)) _ True).code trivial (h.same rfl rfl)

theorem isApt_interpretTo {p : Program} (code : ∀ n ∈ p.nodes, n.isApt = true) (depth : Nat) {m : Machine}
    (h : m.IsApt) : (interpretTo depth p m).IsApt := by
  have cleared : ({ m with log := {} } : Machine).IsApt := h.same rfl rfl
  have passed := proceeds_pass (Evaluator.proceeds_ofDepth depth) p { m with log := {} }
  unfold interpretTo
  cases hpass : pass (.ofDepth depth) p { m with log := {} } with
  | exhausted => trivial
  | done v m' =>
    rw [hpass] at passed
    exact passed.code code cleared
  | failed stopped m' =>
    rw [hpass] at passed
    obtain ⟨raised, m₁, before, proper, travels⟩ := passed
    have shown := travels.isShown before.log
    refine ⟨(proper code cleared).sameProblem shown.likeRaised, fun f hf => ?_, fun job hjob => by cases hjob⟩
    exact (before.code code cleared).functions f (travels.keeps.2.1 ▸ hf)

/-- **A machine that ran programs which were read**, and no others, one after another. -/
inductive RanRead : Machine → Prop where
  | start {m : Machine} (functions : m.heap.functions = #[]) (tasks : m.tasks = {}) (file : Option Path) :
      RanRead (m.start file)
  | between {m m' : Machine} (h : RanRead m) (functions : m'.heap.functions = m.heap.functions)
      (tasks : m'.tasks = m.tasks) : RanRead m'
  | done {m m' : Machine} {v : Value} {p : Program} {q q' : Parser} (h : RanRead m) (depth : Nat)
      (read : q.readProgram = .done p q') (ends : interpretTo depth p m = .done v m') : RanRead m'
  | failed {m m' : Machine} {fault : Fault} {p : Program} {q q' : Parser} (h : RanRead m) (depth : Nat)
      (read : q.readProgram = .done p q') (ends : interpretTo depth p m = .failed fault m') : RanRead m'

theorem RanRead.isApt {m : Machine} (h : RanRead m) : m.IsApt := by
  induction h with
  | @start m functions tasks file =>
    have empty : m.IsApt := ⟨by simp [functions], fun job hjob => by rw [tasks] at hjob; cases hjob⟩
    exact empty.start file
  | between _ functions tasks ih => exact ih.same functions (congrArg _ tasks)
  | done _ depth read ends ih =>
    have apt := isApt_interpretTo (Parser.isApt_readProgram read) depth ih
    rw [ends] at apt
    exact apt
  | failed _ depth read ends ih =>
    have apt := isApt_interpretTo (Parser.isApt_readProgram read) depth ih
    rw [ends] at apt
    exact apt.2

end Machine

/-- **What is read is well formed for evaluation.** All nodes of a program that was read are apt, whatever the tokens
and the matching were. So on a machine that ran nothing else before, its run never raises the faults that are
there for assignments and runs that the grammar does not make. -/
theorem Parser.apt_readProgram {p q : Parser} {program : Program} (done : p.readProgram = .done program q) :
    (∀ n ∈ program.nodes, n.isApt = true) ∧
    ∀ m : Machine, m.RanRead → ∀ depth shown m', Machine.interpretTo depth program m = .failed shown m' →
      shown.stage = .running →
        shown.message ≠ "Expected a call after 'run'" ∧ shown.message ≠ "Invalid assignment target" := by
  refine ⟨isApt_readProgram done, fun m ran depth shown m' fails running => ?_⟩
  have apt := Machine.isApt_interpretTo (isApt_readProgram done) depth ran.isApt
  rw [fails] at apt
  exact Cause.message_ne_of_isOfRunning (apt.1 running)

/-- A script that assigns to a member in the slot of a template, and runs a call of it. -/
def assigningScript : String :=
  "let o = \x7b\x7d\n\"\x7b\x7b o.x = nil \x7d\x7d\"\nrun o.x()\n"

def Outcome.stopsRunning : Outcome Parser Program → Bool
  | .done program _ => (Machine.interpretTo 20 program (({} : Machine).start none)).failedWith
      fun shown _ => shown.stage == .running
  | .failed _ _ => false
  | .exhausted => false

/-- The script is read. Its run is stopped by a fault of running, which is not one of the two. -/
theorem Parser.apt_readProgram_assigningScript :
    ∃ program q shown m', (Parser.ofScript .default .strict assigningScript).readProgram = .done program q ∧
      (({} : Machine).start none).RanRead ∧
      Machine.interpretTo 20 program (({} : Machine).start none) = .failed shown m' ∧
      shown.stage = .running ∧ (∀ n ∈ program.nodes, n.isApt = true) ∧
      shown.message ≠ "Expected a call after 'run'" ∧ shown.message ≠ "Invalid assignment target" := by
  have run : (Parser.ofScript .default .strict assigningScript).readProgram.stopsRunning = true := by
    decide +kernel
  have ran : (({} : Machine).start none).RanRead := .start rfl rfl none
  cases hread : (Parser.ofScript .default .strict assigningScript).readProgram with
  | failed fault q => rw [hread] at run; cases run
  | exhausted => rw [hread] at run; cases run
  | done program q =>
    rw [hread] at run
    obtain ⟨shown, m', fails, running⟩ := Outcome.of_failedWith run
    rw [beq_iff_eq] at running
    obtain ⟨apt, proper⟩ := apt_readProgram hread
    exact ⟨program, q, shown, m', rfl, ran, fails, running, apt, proper _ ran 20 shown m' fails running⟩

end Trellis
