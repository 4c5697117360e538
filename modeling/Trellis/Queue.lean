/-!
# Queues

A queue gives back what was put into it in the same order. New items go to the front of one list and old
ones come from the front of another, and when that one is empty the first one is turned around.
-/

namespace Trellis

structure Queue (α : Type) where
  /-- The oldest items, the oldest first. -/
  front : List α := []
  /-- The newest items, the newest first. -/
  back : List α := []

namespace Queue

variable {α : Type}

def toList (q : Queue α) : List α :=
  q.front ++ q.back.reverse

def push (q : Queue α) (a : α) : Queue α :=
  { q with back := a :: q.back }

def pop? (q : Queue α) : Option (α × Queue α) :=
  match q.front with
  | a :: rest => some (a, { q with front := rest })
  | [] =>
    match q.back.reverse with
    | a :: rest => some (a, ⟨rest, []⟩)
    | [] => none

def isEmpty (q : Queue α) : Bool :=
  q.front.isEmpty && q.back.isEmpty

@[simp] theorem toList_empty : ({} : Queue α).toList = [] := rfl

@[simp] theorem toList_push (q : Queue α) (a : α) : (q.push a).toList = q.toList ++ [a] := by
  simp [toList, push]

theorem pop?_eq_none_iff (q : Queue α) : q.pop? = none ↔ q.toList = [] := by
  unfold pop? toList
  cases q.front with
  | cons a rest => simp
  | nil => cases h : q.back.reverse <;> simp

theorem toList_of_pop? {q r : Queue α} {a : α} (h : q.pop? = some (a, r)) : q.toList = a :: r.toList := by
  unfold pop? at h
  unfold toList
  cases hf : q.front with
  | cons b rest =>
    simp only [hf, Option.some.injEq, Prod.mk.injEq] at h
    obtain ⟨rfl, rfl⟩ := h
    rfl
  | nil =>
    cases hb : q.back.reverse with
    | nil => simp [hf, hb] at h
    | cons b rest =>
      simp only [hf, hb, Option.some.injEq, Prod.mk.injEq] at h
      obtain ⟨rfl, rfl⟩ := h
      simp

end Queue

end Trellis
