import Trellis.Proofs.Grammar.Yields

/-!
# Faults of reading

Reading records a fault in a log and is stopped by it at once. So a production that is done has recorded nothing,
and one that was stopped has recorded the fault it was stopped by and nothing else (`Parse.IsHonest`). The slots of
a template, which have logs of their own, are no exception. What a whole reading shows is the first fault of its log,
so it is the one that reading was stopped by, and it tells of a place in the text.
-/

namespace Trellis

/-- **An honest outcome of reading.** If it is done, no fault was recorded, and if it failed, its own fault was
and no other one, and that one tells of a place in the text. -/
def Outcome.IsHonest {α : Type} (p : Parser) : Outcome Parser α → Prop
  | .done _ q => q.log = p.log
  | .failed fault q => q.log = p.log.record fault ∧ fault.IsOfReading
  | .exhausted => True

def Parse.IsHonest {α : Type} (x : Parse α) : Prop :=
  ∀ p, (x p).IsHonest p

/-- **What a whole reading shows of an outcome of the grammar**: if it is done, so is the grammar, and no fault
was recorded. If it failed, the grammar was stopped by the very fault that is shown, which was the only one
that was recorded. -/
def Outcome.Shows {α : Type} (grammar : Outcome Parser α) : Outcome Parser α → Prop
  | .done a q => grammar = .done a q ∧ q.log = {}
  | .failed fault _ => ∃ q, grammar = .failed fault q ∧ q.log.faults = [fault]
  | .exhausted => grammar = .exhausted

theorem Anchors.any : Anchors (fun _ => True) fun _ => True :=
  ⟨fun _ _ => trivial, fun _ _ _ _ _ _ _ => trivial⟩

structure Rules.Honest (r : Rules) : Prop where
  expression : ∀ log m, Parse.Keeps (.grown .any log) m false .fresh (Kin.grown (fun _ => True) fun _ => True).expr
    (fun _ => .taken) r.expression r.expression
  statement : ∀ log m, Parse.Keeps (.grown .any log) m false .fresh (Kin.grown (fun _ => True) fun _ => True).stmt
    (fun _ => .passed) r.statement r.statement

namespace Parse.IsHonest

variable {α : Type} {x : Parse α}

theorem of_keeps {R : α → α → Prop} {b : α → Stage} (h : ∀ log m, Keeps (.grown .any log) m false .fresh R b x x) :
    IsHonest x := by
  intro p
  have hread := h p.log _ false p p (by rintro (h | h) <;> cases h) ⟨rfl, fun _ _ => trivial, rfl⟩ (Nat.le_refl _)
  rcases Pace.grown.log_eq hread with ⟨a, q, _, hdone, -, hlog⟩ | hstopped
  · rw [hdone]
    exact hlog
  · cases hx : x p with
    | done a q =>
      rw [hx] at hstopped
      exact hstopped.elim
    | failed fault q =>
      rw [hx] at hstopped
      exact hstopped
    | exhausted => trivial

theorem shows_withOwnLog (h : IsHonest x) (p : Parser) : (x { p with log := {} }).Shows (x.withOwnLog p) := by
  have honest := h { p with log := {} }
  unfold Parse.withOwnLog
  cases hread : x { p with log := {} } with
  | exhausted => exact rfl
  | done a q =>
    rw [hread] at honest
    exact ⟨rfl, honest⟩
  | failed fault q =>
    rw [hread] at honest
    -- the log was empty, so the fault that stopped the reading is the first one in it
    have log : q.log.faults = [fault] := congrArg FaultLog.faults honest.1
    have surface : q.log.surface fault = fault := by
      unfold FaultLog.surface FaultLog.innermost?
      rw [log]
      rfl
    dsimp only
    rw [surface]
    exact ⟨q, rfl, log⟩

theorem isOfReading_withOwnLog (h : IsHonest x) {p q : Parser} {fault : Fault}
    (failed : x.withOwnLog p = .failed fault q) : fault.IsOfReading := by
  have shows := shows_withOwnLog h p
  have honest := h { p with log := {} }
  rw [failed] at shows
  obtain ⟨q', stopped, -⟩ := shows
  rw [stopped] at honest
  exact honest.2

theorem whole {x : Parse Expr} {R : Expr → Expr → Prop}
    (h : ∀ log m, Keeps (.grown .any log) m false .fresh R (fun _ => .taken) x x) : IsHonest (Parse.whole x) :=
  of_keeps fun log m => .whole (h log m)

theorem program {r : Rules} (h : r.Honest) : IsHonest (Parse.program r) :=
  of_keeps fun log _ => .program (Pace.level_grown .any log) (h.statement log)

end Parse.IsHonest

theorem Rules.honest_ofDepth (depth : Nat) : (Rules.ofDepth depth).Honest where
  expression log m := by
    cases depth with
    | zero => exact fun _ _ _ _ _ _ => .inr trivial
    | succ depth => exact Parse.Built.expression.keeps (keeps_grown .any depth log).1 m
  statement log m := (keeps_grown .any depth log).2 m false

theorem isOfReading_readScript {keywords : KeywordTable} {matching : MatchMode} {source : String}
    {fault : Fault} {p : Parser} (failed : readScript keywords matching source = .failed fault p) :
    fault.IsOfReading := by
  unfold readScript at failed
  dsimp only at failed
  split at failed
  · rename_i found hfound
    cases failed
    unfold Scanned.fault? at hfound
    obtain ⟨first, -, rfl⟩ := Option.map_eq_some_iff.mp hfound
    exact ⟨_, _, rfl⟩
  · rw [Parse.readProgram_eq] at failed
    exact Parse.IsHonest.isOfReading_withOwnLog (.program (Rules.honest_ofDepth _)) failed

end Trellis
