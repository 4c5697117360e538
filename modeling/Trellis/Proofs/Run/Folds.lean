import Trellis.Evaluation
import Trellis.Proofs.Value.Folded

/-!
# Actions that fold

A machine is *folded* if all values in it are. An action *folds* (`Run.Folds`) if it leaves a folded machine folded,
however it ends, and if what it comes to is folded. Here this is shown of the actions that others are put together from.
-/

namespace Trellis

open Value

variable {α β : Type}

structure Machine.Folded (m : Machine) : Prop where
  scopes : m.scopes.Folded
  heap : m.heap.Folded
  tasks : m.tasks.Folded
  registry : m.registry.Folded

theorem Machine.Folded.same {m m' : Machine} (hm : m.Folded) (scopes : m'.scopes = m.scopes := by rfl)
    (heap : m'.heap = m.heap := by rfl) (tasks : m'.tasks = m.tasks := by rfl)
    (registry : m'.registry = m.registry := by rfl) : m'.Folded :=
  ⟨scopes ▸ hm.scopes, heap ▸ hm.heap, tasks ▸ hm.tasks, registry ▸ hm.registry⟩

def Outcome.Folded (P : α → Prop) : Outcome Machine α → Prop
  | .done a m => m.Folded ∧ P a
  | .failed _ m => m.Folded
  | .exhausted => True

def Flow.Folded (flow : Flow) : Prop :=
  flow.result.Folded

namespace Run

/-- **An action folds**: it leaves a folded machine folded, and something holds of what it comes to. -/
def Folds (P : α → Prop) (x : Run α) : Prop :=
  ∀ m, m.Folded → (x m).Folded P

abbrev FoldsAll (x : Run α) : Prop :=
  Folds (fun _ => True) x

namespace Folds

variable {P : α → Prop} {Q : β → Prop} {x : Run α}

theorem pure {a : α} (h : P a) : Folds P (Pure.pure a) :=
  fun _ hm => ⟨hm, h⟩

theorem exhaust : Folds P Action.exhaust :=
  fun _ _ => trivial

theorem stop (fault : Fault) : Folds P (Action.fail fault) :=
  fun _ hm => hm

theorem fail (cause : Cause) (span : Span) : Folds P (Run.fail cause span) :=
  stop _

theorem bind {f : α → Run β} (hx : Folds P x) (hf : ∀ a, P a → Folds Q (f a)) : Folds Q (x >>= f) := by
  intro m hm
  have first := hx m hm
  rw [Action.bind_apply]
  cases ends : x m with
  | done a m₁ => rw [ends] at first; exact hf a first.2 m₁ first.1
  | failed fault m₁ => rw [ends] at first; exact first
  | exhausted => trivial

theorem read {f : Machine → α} (h : ∀ m, m.Folded → P (f m)) : Folds P (Action.read f) :=
  fun m hm => ⟨hm, h m hm⟩

theorem seen (f : Machine → α) : FoldsAll (Action.read f) :=
  read fun _ _ => trivial

theorem change {f : Machine → Machine} (h : ∀ m, m.Folded → (f m).Folded) : FoldsAll (Action.change f) :=
  fun m hm => ⟨h m hm, trivial⟩

theorem within (hx : Folds P x) (scope : ScopeId) : Folds P (Run.within scope x) := by
  intro m hm
  have inside := hx { m with current := scope } hm.same
  unfold Run.within
  dsimp only
  cases ends : x { m with current := scope } with
  | done a m₁ =>
    rw [ends] at inside
    exact ⟨inside.1.same, inside.2⟩
  | failed fault m₁ =>
    rw [ends] at inside
    exact inside.same
  | exhausted => trivial

theorem onFault (hx : Folds P x) {g : Fault → Machine → Fault × Machine}
    (hg : ∀ fault m, m.Folded → (g fault m).2.Folded) : Folds P (x.onFault g) := by
  intro m hm
  have inside := hx m hm
  unfold Action.onFault
  cases ends : x m with
  | done a m₁ => rw [ends] at inside; exact inside
  | failed fault m₁ => rw [ends] at inside; exact hg fault m₁ inside
  | exhausted => trivial

theorem recorded (hx : Folds P x) (span : Span) : Folds P (Run.recorded span x) :=
  hx.onFault fun _ _ hm => hm.same

theorem alloc {f : Heap → α × Heap} (hf : ∀ h, h.Folded → (f h).2.Folded ∧ P (f h).1) : Folds P (Run.alloc f) :=
  fun m hm => ⟨⟨hm.scopes, (hf m.heap hm.heap).1, hm.tasks, hm.registry⟩, (hf m.heap hm.heap).2⟩

theorem newScope : FoldsAll Run.newScope :=
  fun _ hm => ⟨⟨hm.scopes.push rfl, hm.heap, hm.tasks, hm.registry⟩, trivial⟩

theorem declare (scope : ScopeId) (name : String) {v : Value} (hv : v.Folded) (static : Bool) :
    FoldsAll (Run.declare scope name v static) := by
  intro m hm
  unfold Run.declare
  cases m.scopes.declareFault? scope name with
  | some fault => exact hm
  | none => exact ⟨⟨hm.scopes.addBinding scope name hv static, hm.heap, hm.tasks, hm.registry⟩, trivial⟩

end Folds

end Run

end Trellis
