import Trellis.Proofs.Grammar.Faults
import Trellis.Proofs.Run.Steps

/-!
# Faults are neither lost nor replaced

What a run shows when it fails is the first fault of a log, into which a fault is entered at every expression and
statement that it passes. A fault that was raised is the only one that is ever entered: it travels outwards, nothing
is executed any more, and all that is added to it on the way is a place and a file.

So the fault that is shown is the one that was raised, with the place and the file that were attached to it where it
was recorded first, and a run that is done has recorded nothing. The same goes for reading.
-/

namespace Trellis

namespace Fault

structure SameProblem (f g : Fault) : Prop where
  stage : f.stage = g.stage
  cause : f.cause = g.cause
  hint : f.hint = g.hint

theorem SameProblem.refl (f : Fault) : f.SameProblem f :=
  ⟨rfl, rfl, rfl⟩

theorem SameProblem.symm {f g : Fault} (h : f.SameProblem g) : g.SameProblem f :=
  ⟨h.stage.symm, h.cause.symm, h.hint.symm⟩

theorem SameProblem.trans {f g k : Fault} (h₁ : f.SameProblem g) (h₂ : g.SameProblem k) : f.SameProblem k :=
  ⟨h₁.stage.trans h₂.stage, h₁.cause.trans h₂.cause, h₁.hint.trans h₂.hint⟩

theorem sameProblem_record (span : Span) (f : Fault) (m : Machine) : (Run.record span f m).1.SameProblem f :=
  ⟨rfl, rfl, rfl⟩

variable {raised f : Fault} {m m' : Machine}

theorem Travels.sameProblem (h : Travels raised m f m') : f.SameProblem raised := by
  induction h with
  | raised => exact .refl _
  | recorded _ span ih => exact (sameProblem_record span _ _).trans ih
  | left _ scope ih => exact ih
  | abandoned _ key ih => exact ih

/-- A fault as it is recorded first: with a place, unless it had one, and with the file of a scope. -/
def FirstRecorded (raised : Fault) (m : Machine) (e : Fault) : Prop :=
  ∃ span scope, e = (raised.located span).inFile (m.scopes.get scope).file

/-- **The trail of a fault that travels**: what is recorded on the way tells of the same problem, and the first
record is made of the fault as it was raised. -/
theorem Travels.trail (h : Travels raised m f m') :
    ∃ trail, m'.log.faults = m.log.faults ++ trail ∧ (∀ e ∈ trail, e.SameProblem raised) ∧
      (trail = [] → f = raised) ∧ ∀ e, trail.head? = some e → FirstRecorded raised m e := by
  induction h with
  | raised => exact ⟨[], (List.append_nil _).symm, by simp, fun _ => rfl, by simp⟩
  | left _ scope ih => exact ih
  | abandoned _ key ih => exact ih
  | @recorded f m' travels span ih =>
    obtain ⟨trail, log, same, unrecorded, first⟩ := ih
    refine ⟨trail ++ [(Run.record span f m').1], ?_, ?_, by simp, ?_⟩
    · show m'.log.faults ++ [(Run.record span f m').1] = _
      rw [log, List.append_assoc]
    · intro e he
      rcases List.mem_append.mp he with before | now
      · exact same e before
      · rw [List.mem_singleton.mp now]
        exact (sameProblem_record span f m').trans travels.sameProblem
    · intro e he
      cases trail with
      | cons earlier rest => exact first e he
      | nil =>
        -- nothing was recorded before, so what is recorded now is the fault as it was raised
        cases he
        cases unrecorded rfl
        refine ⟨span, m'.current, ?_⟩
        rw [← travels.keeps.1]
        rfl

/-- **What is shown of a fault**, given the fault as it was raised, the fault as it came out, and the log. -/
structure IsShown (raised : Fault) (m : Machine) (stopped : Fault) (log : FaultLog) (shown : Fault) : Prop where
  likeRaised : shown.SameProblem raised
  likeStopped : shown.SameProblem stopped
  likeRecorded : ∀ e ∈ log.faults, e.SameProblem shown
  first : (log.faults = [] ∧ shown = raised) ∨
    (log.innermost? = some shown ∧ FirstRecorded raised m shown)

theorem Travels.isShown (h : Travels raised m f m') (clear : m.log = {}) :
    IsShown raised m f m'.log (m'.log.surface f) := by
  obtain ⟨trail, log, same, unrecorded, first⟩ := h.trail
  rw [clear, List.nil_append] at log
  unfold FaultLog.surface FaultLog.innermost?
  rw [log]
  cases trail with
  | nil =>
    cases unrecorded rfl
    exact ⟨.refl _, .refl _, by simp [log], .inl ⟨log, rfl⟩⟩
  | cons shown rest =>
    have raised := same shown (.head _)
    refine ⟨raised, raised.trans h.sameProblem.symm, fun e he => ?_, .inr ⟨?_, first shown rfl⟩⟩
    · rw [log] at he
      exact (same e he).trans raised.symm
    · unfold FaultLog.innermost?
      rw [log]
      rfl

end Fault

/-- **What a run shows of an outcome of its pass**: if it is done, so is the pass, and no fault was recorded.
If it failed, the pass was stopped by a fault that was raised when no fault had been recorded, and this one is
shown, as it was recorded first. -/
def Outcome.ShowsFault (pass : Outcome Machine Value) : Outcome Machine Value → Prop
  | .done v m' => pass = .done v m' ∧ m'.log = {}
  | .failed shown _ => ∃ raised m₀ stopped m₁, pass = .failed stopped m₁ ∧ m₀.log = {} ∧
      Fault.Travels raised m₀ stopped m₁ ∧ Fault.IsShown raised m₀ stopped m₁.log shown
  | .exhausted => pass = .exhausted

namespace Machine

theorem showsFault_interpretTo (depth : Nat) (p : Program) (m : Machine) :
    (pass (.ofDepth depth) p { m with log := {} }).ShowsFault (interpretTo depth p m) := by
  have advances := advances_pass (Evaluator.proceeds_ofDepth depth) p { m with log := {} }
  unfold interpretTo
  cases hpass : pass (.ofDepth depth) p { m with log := {} } with
  | exhausted => exact rfl
  | done v m' =>
    rw [hpass] at advances
    exact ⟨rfl, advances.log⟩
  | failed stopped m₁ =>
    rw [hpass] at advances
    obtain ⟨raised, m₀, before, travels⟩ := advances
    exact ⟨raised, m₀, stopped, m₁, rfl, before.log, travels, travels.isShown before.log⟩

end Machine

/-- **Faults are neither lost nor replaced**, neither in a run nor in reading. Until a fault stops a run, none
is recorded at any moment of it. -/
theorem faults_surface (depth : Nat) (p : Program) (m : Machine) (q : Parser) :
    (Machine.pass (.ofDepth depth) p { m with log := {} }).ShowsFault (Machine.interpretTo depth p m) ∧
    (∀ stop, (Machine.pass (.upTo stop depth) p { m with log := {} }).AdvancesFrom { m with log := {} }) ∧
    (Parse.program q.rules { q with log := {} }).Shows q.readProgram ∧
    (Parse.whole q.rules.expression { q with log := {} }).Shows q.readExpression ∧
    (Parse.whole (Rules.ofDepth depth).expression { q with log := {} }).Shows
      (Parse.wholeExpression (Rules.ofDepth depth).expression q) := by
  have whole (depth : Nat) : (Parse.whole (Rules.ofDepth depth).expression { q with log := {} }).Shows
      (Parse.wholeExpression (Rules.ofDepth depth).expression q) := by
    rw [Parse.wholeExpression_eq]
    exact (Parse.IsHonest.whole (Rules.honest_ofDepth depth).expression).shows_withOwnLog q
  refine ⟨Machine.showsFault_interpretTo depth p m,
    fun stop => Machine.advances_pass (Evaluator.proceeds_upTo stop depth) p _, ?_, whole _, whole depth⟩
  rw [Parse.readProgram_eq]
  exact (Parse.IsHonest.program (Rules.honest_ofDepth _)).shows_withOwnLog q

end Trellis
