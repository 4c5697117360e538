import Trellis.Fault

/-!
# Actions

Reading and running are both stepwise work on a state that may be stopped by a fault. An *action* takes
the state before and has an *outcome*: it is done, with a value and the state behind it, or it failed,
with a fault and the state at which it was stopped, or it is exhausted. The last one is no behaviour of a
script. Recursive work is bounded by a depth that is given in advance, and exhaustion says that the bound
was too small.
-/

namespace Trellis

inductive Outcome (σ α : Type) where
  | done (value : α) (state : σ)
  | failed (fault : Fault) (state : σ)
  /-- The bound on the depth was too small. -/
  | exhausted

def Action (σ α : Type) : Type :=
  σ → Outcome σ α

namespace Action

variable {σ α β : Type}

@[inline] protected def pure (a : α) : Action σ α :=
  fun s => .done a s

@[inline] protected def bind (x : Action σ α) (f : α → Action σ β) : Action σ β := fun s =>
  match x s with
  | .done a t => f a t
  | .failed fault t => .failed fault t
  | .exhausted => .exhausted

instance : Monad (Action σ) where
  pure := Action.pure
  bind := Action.bind

@[inline] def state : Action σ σ :=
  fun s => .done s s

@[inline] def read (f : σ → α) : Action σ α :=
  fun s => .done (f s) s

@[inline] def change (f : σ → σ) : Action σ Unit :=
  fun s => .done () (f s)

@[inline] def fail (fault : Fault) : Action σ α :=
  fun s => .failed fault s

@[inline] def exhaust : Action σ α :=
  fun _ => .exhausted

@[inline] def onFault (x : Action σ α) (f : Fault → σ → Fault × σ) : Action σ α := fun s =>
  match x s with
  | .done a t => .done a t
  | .failed fault t => let (fault, t) := f fault t; .failed fault t
  | .exhausted => .exhausted

/-- Change the state when an action ends with a value or a fault. -/
@[inline] def ending (x : Action σ α) (f : σ → σ) : Action σ α := fun s =>
  match x s with
  | .done a t => .done a (f t)
  | .failed fault t => .failed fault (f t)
  | .exhausted => .exhausted

@[inline] def ofExcept (x : Except Fault α) : Action σ α :=
  match x with
  | .ok a => .pure a
  | .error fault => fail fault

/-! ## Unfolding -/

@[simp] theorem pure_apply (a : α) (s : σ) : (pure a : Action σ α) s = .done a s := rfl

theorem bind_apply (x : Action σ α) (f : α → Action σ β) (s : σ) :
    (x >>= f) s =
      match x s with
      | .done a t => f a t
      | .failed fault t => .failed fault t
      | .exhausted => .exhausted := rfl

theorem bind_assoc {γ : Type} (x : Action σ α) (f : α → Action σ β) (g : β → Action σ γ) :
    x >>= f >>= g = x >>= fun a => f a >>= g := by
  funext s
  rw [bind_apply, bind_apply, bind_apply]
  cases x s <;> rfl

/-- If two actions in a row are done, so is each of them. -/
theorem done_bind {x : Action σ α} {f : α → Action σ β} {s u : σ} {b : β}
    (h : (x >>= f) s = .done b u) : ∃ a t, x s = .done a t ∧ f a t = .done b u := by
  rw [Action.bind_apply] at h
  cases hs : x s with
  | done a t =>
    rw [hs] at h
    exact ⟨a, t, rfl, h⟩
  | failed fault t =>
    rw [hs] at h
    cases h
  | exhausted =>
    rw [hs] at h
    cases h

@[simp] theorem read_apply (f : σ → α) (s : σ) : read f s = .done (f s) s := rfl

end Action

end Trellis
