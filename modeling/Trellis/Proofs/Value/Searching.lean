import Trellis.Proofs.Number.Whole
import Trellis.Proofs.Value.Texts

/-!
# Searching texts

Four methods search a text for another one. They agree about where it is found, and this is the first position at which
a slice of the text is the one that is looked for (`Evaluator.searches_agree`). Positions count characters, so they can
be passed on from one method to the next.
-/

namespace Trellis

theorem Member.clamp_ofNat (i length : Nat) : clamp (i : Int) length = min i length :=
  if_neg (by omega)

namespace Evaluator

variable {ev : Evaluator} {m : Machine} {s t : String} {i j : Nat}

theorem answers_slice_within (inOrder : i ≤ j) (short : j < 2 ^ 53) :
    ev.Answers m (.text s) "slice" [.ofNat i, .ofNat j]
      (.value (.text (String.ofList ((s.toList.drop i).take (j - i))))) := by
  have bounds : Member.sliceBounds m.heap [.ofNat i, .ofNat j] s.length "slice" =
      .ok (min i s.length, min j s.length) := by
    show Except.ok (Member.clamp (Number.wholePart (Float.ofNat i)) s.length,
      max (Member.clamp (Number.wholePart (Float.ofNat j)) s.length)
        (Member.clamp (Number.wholePart (Float.ofNat i)) s.length)) = _
    rw [Number.wholePart_ofNat (by omega), Number.wholePart_ofNat short, Member.clamp_ofNat, Member.clamp_ofNat,
      Nat.max_eq_left (by omega)]
  have cut : (s.toList.drop i).take (j - i) = s.toList.extract (min i s.length) (min j s.length) := by
    rw [List.extract_eq_take_drop, ← String.length_toList]
    obtain within | beyond := Nat.le_total i s.toList.length
    · rw [Nat.min_eq_left within, List.take_eq_take_iff, List.length_drop]
      omega
    · rw [Nat.min_eq_right beyond, List.drop_of_length_le beyond, List.drop_length, List.take_nil, List.take_nil]
  rw [cut]
  exact answers_slice_text bounds

theorem answers_slice_behind (short : i < 2 ^ 53) :
    ev.Answers m (.text s) "slice" [.ofNat i] (.value (.text (String.ofList (s.toList.drop i)))) := by
  have cut := (ev.answers_slices m s (Float.ofNat i)).2
  rw [Number.wholePart_ofNat short, Member.clamp_ofNat, ← String.length_toList] at cut
  obtain within | beyond := Nat.le_total i s.toList.length
  · rwa [Nat.min_eq_left within] at cut
  · rwa [Nat.min_eq_right beyond, List.drop_length, ← List.drop_of_length_le beyond] at cut

/-- **Searching agrees across methods and counts characters.** What is found is the first position at which a slice is
the text that is looked for. It is replaced there. -/
theorem searches_agree (ev : Evaluator) (m : Machine) (s t : String) (short : s.length < 2 ^ 53) :
    ∃ place : Option Nat,
      ev.Answers m (.text s) "indexOf" [.text t] (.value (Member.positionOrNone place)) ∧
      ev.Answers m (.text s) "includes" [.text t] (.value (.bool place.isSome)) ∧
      ev.Answers m (.text s) "startsWith" [.text t] (.value (.bool (place == some 0))) ∧
      (∀ i ∈ place, ev.Answers m (.text s) "slice" [.ofNat i, .ofNat (i + t.length)] (.value (.text t))) ∧
      (∀ j, j + t.length < 2 ^ 53 → (∀ i ∈ place, j < i) → ∃ other, other ≠ t ∧
        ev.Answers m (.text s) "slice" [.ofNat j, .ofNat (j + t.length)] (.value (.text other))) ∧
      (∀ i ∈ place, ∀ u, ∃ before behind,
        ev.Answers m (.text s) "slice" [.ofNat 0, .ofNat i] (.value (.text before)) ∧
        ev.Answers m (.text s) "slice" [.ofNat (i + t.length)] (.value (.text behind)) ∧
        ev.Answers m (.text s) "replace" [.text t, .text u] (.value (.text (before ++ u ++ behind)))) ∧
      (place = none → ∀ u, ev.Answers m (.text s) "replace" [.text t, .text u] (.value (.text s))) := by
  have first := Text.isFirst_find? t.toList s.toList
  have starts : t.toList.isPrefixOf s.toList = (Text.find? t.toList s.toList == some 0) := by
    rw [Bool.eq_iff_iff, beq_iff_eq, Text.find?_eq_zero_iff]
  have replaced (u : String) : ev.Answers m (.text s) "replace" [.text t, .text u]
      (.value (.text (String.ofList (Text.replaceFirst t.toList u.toList s.toList)))) := answers_text rfl
  refine ⟨Text.find? t.toList s.toList, answers_text rfl, answers_text rfl, ?_, ?_⟩
  · rw [← starts]
    exact answers_text rfl
  unfold Text.replaceFirst at replaced
  generalize Text.find? t.toList s.toList = place at *
  have sliced (j : Nat) (hj : j + t.length < 2 ^ 53) : ev.Answers m (.text s) "slice" [.ofNat j, .ofNat (j + t.length)]
      (.value (.text (String.ofList ((s.toList.drop j).take t.toList.length)))) := by
    have cut : ev.Answers m (.text s) "slice" _ _ := answers_slice_within (Nat.le_add_right j t.length) hj
    rwa [Nat.add_sub_cancel_left, ← String.length_toList] at cut
  have other (j : Nat) (elsewhere : ¬ Text.OccursAt t.toList s.toList j) :
      String.ofList ((s.toList.drop j).take t.toList.length) ≠ t :=
    fun same => elsewhere (String.ofList_injective (same.trans String.ofList_toList.symm))
  cases place with
  | none =>
    have kept (u : String) := replaced u
    simp only [String.ofList_toList] at kept
    exact ⟨nofun, fun j hj _ => ⟨_, other j (first j), sliced j hj⟩, nofun, fun _ => kept⟩
  | some i =>
    have within := first.add_length_le
    rw [String.length_toList, String.length_toList] at within
    refine ⟨?_, fun j hj less => ⟨_, other j (first.2 j (less i rfl)), sliced j hj⟩, ?_, nofun⟩
    · rintro _ ⟨⟩
      have here := sliced i (by omega)
      rwa [show (s.toList.drop i).take t.toList.length = t.toList from first.1, String.ofList_toList] at here
    · rintro _ ⟨⟩ u
      refine ⟨_, _, answers_slice_within (Nat.zero_le i) (by omega), answers_slice_behind (by omega), ?_⟩
      have replaced := replaced u
      rwa [String.ofList_append, String.ofList_append, String.ofList_toList, String.length_toList] at replaced

theorem searches_agree_accents : ∃ place : Option Nat,
    (ofDepth 0).Answers {} (.text "naïve") "indexOf" [.text "ïve"] (.value (Member.positionOrNone place)) := by
  obtain ⟨place, found, -⟩ := searches_agree (ofDepth 0) {} "naïve" "ïve" (by decide)
  exact ⟨place, found⟩

end Evaluator

end Trellis
