import Trellis.Proofs.Run.Moments
import Trellis.Proofs.Run.Schedule
import Trellis.Proofs.Scope.Operations

/-!
# Constants in a run

To the scopes of a machine a run does nothing but operations, one after another (`Course.performAll`). So a
constant that was declared at some time keeps its value in every run that comes later, and at every moment of
it. A script that assigns to it is told that it is a constant, from wherever it does so.
-/

namespace Trellis

namespace Course

theorem performAll {w : Bool} {r : Reach} {whole : Bool} {m m' : Machine} (h : Course w r whole m m') :
    ∃ ops, m'.scopes = m.scopes.performAll ops := by
  -- a bracket begins with the operation that makes its scope
  have behind {s s₁ s' : Scopes} (op : ScopeOperation) (made : s.attempt op = .ok s₁)
      (body : ∃ ops, s' = s₁.performAll ops) : ∃ ops, s' = s.performAll ops := by
    obtain ⟨ops, rfl⟩ := body
    exact ⟨op :: ops, by rw [← Scopes.perform_of_ok made]; rfl⟩
  have single {s s' : Scopes} (op : ScopeOperation) (done : s.attempt op = .ok s') :
      ∃ ops, s' = s.performAll ops := behind op done ⟨[], rfl⟩
  induction h with
  | quiet h => exact ⟨[], h.scopes⟩
  | seq _ _ ih₁ ih₂ =>
    obtain ⟨ops₁, h₁⟩ := ih₁
    obtain ⟨ops₂, h₂⟩ := ih₂
    exact ⟨ops₁ ++ ops₂, by rw [h₂, h₁, Scopes.performAll_append]⟩
  | stop _ ih => exact ih
  | pass _ record ih => rw [record.scopes]; exact ih
  | widen _ ih => exact ih
  | assign name v h =>
    rename_i m _
    refine single (.assign m.current name v) ?_
    show m.scopes.assign m.current name v = _
    unfold Scopes.assign
    rw [h]
  | work _ _ _ ih => exact ih
  | workStopped _ _ ih => exact ih
  | block _ ih => exact behind (.addChild _) rfl ih
  | call _ _ _ ih => exact behind (.addChild _) rfl ih
  | declare name v static h =>
    rename_i m
    refine single (.declare m.current name v static) ?_
    show m.scopes.declare m.current name v static = _
    unfold Scopes.declare
    rw [h]
  | expose name => exact single (.expose _ name) rfl
  | link name loaded h => exact single (.link _ name _) h
  | setAlias name remote => exact single (.setAlias _ name remote) rfl
  | builtin _ _ _ ih => exact behind (.addRoot _) rfl ih
  | builtinStopped _ _ _ ih => exact behind (.addRoot _) rfl ih
  | load _ _ _ _ _ ih => exact behind (.addRoot _) rfl ih
  | loadStopped _ _ _ _ _ ih => exact behind (.addRoot _) rfl ih
  | _ => exact ⟨[], rfl⟩

end Course

namespace Machine

variable {id : ScopeId} {name : String} {v : Value} {m : Machine}

/-- **A constant of a scope holds fast on a machine**: also for scripts, whose assignments to it fail and leave
the machine as it was. -/
structure HoldsFast (m : Machine) (id : ScopeId) (name : String) (v : Value) : Prop
    extends m.scopes.HoldsFast id name v where
  assignName : m.scopes.ResolvesTo name id m.current → ∀ w,
    Evaluator.assignName name w m = .failed (.managing (.constantAssigned name)) m

theorem holdsFast_of_isConstant (h : m.scopes.IsConstant id name v) : m.HoldsFast id name v where
  toHoldsFast := h.holdsFast
  assignName resolves w := by
    unfold Evaluator.assignName
    rw [h.assignee resolves]
    rfl

theorem performAll_pass {ev : Evaluator} (hev : ev.Follows) (p : Program) :
    (pass ev p { m with log := {} }).Ends fun _ m' => ∃ ops, m'.scopes = m.scopes.performAll ops :=
  (follows_pass hev p { m with log := {} }).imp fun _ _ course => course.performAll

/-- **A constant never changes.** Once a name has been declared as a constant in a scope, it holds fast with
the same value after all operations that are carried out on scopes later, after each program that is run
then, and at every moment of it. A program that is run comes to operations as well, so this goes for all
programs that are run after it, too. -/
theorem constant_never_changes {s s₁ : Scopes} (inside : id < s.all.size)
    (declared : s.declare id name v true = .ok s₁) (ops : List ScopeOperation) :
    (s₁.performAll ops).HoldsFast id name v ∧
    ∀ m : Machine, m.scopes = s₁.performAll ops → ∀ depth p,
      ((interpretTo depth p m).Ends fun _ m' =>
        m'.HoldsFast id name v ∧ ∃ more, m'.scopes = s₁.performAll (ops ++ more)) ∧
      ∀ stop, (pass (.upTo stop depth) p { m with log := {} }).Ends fun _ m' =>
        m'.HoldsFast id name v := by
  have constant (later : List ScopeOperation) : (s₁.performAll later).IsConstant id name v :=
    (Scopes.isConstant_of_declare inside declared).performAll later
  refine ⟨(constant ops).holdsFast, fun m hm depth p => ?_⟩
  have kept {m' : Machine} (h : ∃ more, m'.scopes = m.scopes.performAll more) :
      m'.HoldsFast id name v ∧ ∃ more, m'.scopes = s₁.performAll (ops ++ more) := by
    obtain ⟨more, hmore⟩ := h
    rw [hm, ← Scopes.performAll_append] at hmore
    exact ⟨holdsFast_of_isConstant (hmore ▸ constant (ops ++ more)), more, hmore⟩
  exact ⟨ends_interpretTo (performAll_pass (Evaluator.follows_ofDepth depth) p) (fun _ => kept) fun _ h => kept h,
    fun stop => (performAll_pass (Evaluator.follows_upTo stop depth) p).imp fun _ _ h => (kept h).1⟩

/-- A name is declared as a constant in the outermost scope. Then a scope is made inside of it, in which the
name is assigned to and deleted, and then declared once more. -/
theorem constant_never_changes_shadowed :
    ∃ s₁, ({ all := #[{}] } : Scopes).declare 0 "k" (.bool true) true = .ok s₁ ∧
      (s₁.performAll [.addChild 0, .assign 1 "k" .nil, .delete 1 "k"]).ResolvesTo "k" 0 1 ∧
      (s₁.performAll [.addChild 0, .assign 1 "k" .nil, .delete 1 "k", .declare 1 "k" .nil false,
        .assign 1 "k" (.bool false), .link 0 "k" 1]).HoldsFast 0 "k" (.bool true) :=
  ⟨_, rfl, .outward (by decide +kernel) (by decide +kernel) (by decide) (.here (by decide +kernel)),
    (constant_never_changes (s := { all := #[{}] }) (by decide) rfl _).1⟩

end Machine

end Trellis
