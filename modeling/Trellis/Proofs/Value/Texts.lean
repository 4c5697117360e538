import Trellis.Evaluation
import Trellis.Proofs.Text.Search

/-!
# Methods of texts and arrays

What scripts can tell of slices and of splitting. A slice stays within bounds whatever its positions are, and the slices
before and behind a position are the whole (`Evaluator.slice_cuts`). What was split is joined again
(`Evaluator.join_undoes_split`).
-/

namespace Trellis

def Value.IsPosition : Value → Prop
  | .number _ => True
  | .nil => True
  | _ => False

namespace Evaluator

def Answers (ev : Evaluator) (m : Machine) (receiver : Value) (name : String) (arguments : List Value)
    (reply : Heap.Reply) : Prop :=
  ∀ span, ev.callMethod receiver (.text name) arguments span m =
    .done (m.heap.take reply).1 { m with heap := (m.heap.take reply).2 }

variable {ev : Evaluator} {m : Machine} {name : String} {arguments : List Value} {reply : Heap.Reply}

theorem answers_text {s : String} (h : Member.replyOfText m.heap s name arguments = .ok reply) :
    ev.Answers m (.text s) name arguments reply := by
  intro span
  show callPlain (.text s) name arguments span m = _
  rw [callPlain, Member.reply, h]

theorem answers_array {ref : Ref} (plain : Traversal.ofName? name = none)
    (h : Member.replyOfArray m.heap ref name arguments = .ok reply) :
    ev.Answers m (.array ref) name arguments reply := by
  intro span
  have : ev.callMethod (.array ref) (.text name) arguments span m = callPlain (.array ref) name arguments span m := by
    have own : m.heap.text (.text name) = name := rfl
    simp only [callMethod, Run.textOf, ownFunction?, own, plain, Action.bind_apply, Action.read_apply, Action.pure_apply]
  rw [this, callPlain, Member.reply, h]

end Evaluator

/-! ## Slices -/

variable {arguments : List Value}

namespace Member

theorem clamp_le (i : Int) (length : Nat) : clamp i length ≤ length := by
  unfold clamp
  split <;> omega

theorem sliceBounds_before (h : Heap) (k : Float) (length : Nat) (method : String) :
    sliceBounds h [.number 0, .number k] length method = .ok (0, clamp (Number.wholePart k) length) := by
  have start : clamp (Number.wholePart 0) length = 0 := Nat.zero_min length
  show Except.ok (clamp (Number.wholePart 0) length, max (clamp (Number.wholePart k) length)
    (clamp (Number.wholePart 0) length)) = _
  rw [start, Nat.max_zero]

theorem sliceBounds_behind (h : Heap) (k : Float) (length : Nat) (method : String) :
    sliceBounds h [.number k] length method = .ok (clamp (Number.wholePart k) length, length) :=
  congrArg (fun last => Except.ok (_, last)) (Nat.max_eq_left (clamp_le _ _))

theorem exists_sliceBounds {h : Heap} (positions : ∀ v ∈ arguments.take 2, v.IsPosition) (length : Nat)
    (method : String) :
    ∃ first last, sliceBounds h arguments length method = .ok (first, last) ∧ first ≤ last ∧ last ≤ length := by
  have found (i : Nat) (hi : i < 2) : ∃ place, position? h arguments i method = .ok place := by
    unfold position?
    cases hv : arguments[i]? with
    | none => exact ⟨_, rfl⟩
    | some v =>
      have := positions v (List.mem_iff_getElem?.mpr ⟨i, by rw [List.getElem?_take_of_lt hi, hv]⟩)
      cases v with
      | number x => exact ⟨_, rfl⟩
      | nil => exact ⟨_, rfl⟩
      | _ => cases this
  obtain ⟨first, hfirst⟩ := found 0 (by decide)
  obtain ⟨last, hlast⟩ := found 1 (by decide)
  have bound (place : Option Int) {other : Nat} (h : other ≤ length) :
      (place.map fun i => clamp i length).getD other ≤ length := by
    cases place with
    | none => exact h
    | some i => exact clamp_le i length
  refine ⟨_, _, by rw [sliceBounds, hfirst, hlast]; rfl, Nat.le_max_right .., ?_⟩
  exact Nat.max_le.mpr ⟨bound _ (Nat.le_refl _), bound _ (Nat.zero_le _)⟩

end Member

namespace Evaluator

variable {ev : Evaluator} {m : Machine}

theorem answers_slice_text {s : String} {first last : Nat}
    (h : Member.sliceBounds m.heap arguments s.length "slice" = .ok (first, last)) :
    ev.Answers m (.text s) "slice" arguments (.value (.text (String.ofList (s.toList.extract first last)))) := by
  refine answers_text ?_
  show (Member.sliceBounds m.heap arguments s.length "slice" >>= _) = _
  rw [h]
  rfl

theorem answers_slice_array {ref : Ref} {first last : Nat}
    (h : Member.sliceBounds m.heap arguments (m.heap.elements ref).size "slice" = .ok (first, last)) :
    ev.Answers m (.array ref) "slice" arguments (.array ((m.heap.elements ref).extract first last)) := by
  refine answers_array rfl ?_
  show (Member.sliceBounds m.heap arguments (m.heap.elements ref).size "slice" >>= _) = _
  rw [h]
  rfl

theorem answers_slices (ev : Evaluator) (m : Machine) (s : String) (k : Float) :
    let place := Member.clamp (Number.wholePart k) s.length
    ev.Answers m (.text s) "slice" [.number 0, .number k] (.value (.text (String.ofList (s.toList.take place)))) ∧
    ev.Answers m (.text s) "slice" [.number k] (.value (.text (String.ofList (s.toList.drop place)))) := by
  refine ⟨?_, ?_⟩
  · rw [← Nat.sub_zero (Member.clamp _ _), ← List.drop_zero (l := s.toList), ← List.extract_eq_take_drop]
    exact answers_slice_text (Member.sliceBounds_before ..)
  · rw [← List.take_of_length_le (l := s.toList.drop _) (Nat.le_refl _), List.length_drop, String.length_toList,
      ← List.extract_eq_take_drop]
    exact answers_slice_text (Member.sliceBounds_behind ..)

/-- **A slice never goes out of bounds and cuts cleanly.** -/
theorem slice_cuts (ev : Evaluator) (m : Machine) (s : String) (ref : Ref) (arguments : List Value)
    (positions : ∀ v ∈ arguments.take 2, v.IsPosition) (k : Float) :
    (∃ first last, first ≤ last ∧ last ≤ s.length ∧ ev.Answers m (.text s) "slice" arguments
      (.value (.text (String.ofList (s.toList.extract first last))))) ∧
    (∃ first last, first ≤ last ∧ last ≤ (m.heap.elements ref).size ∧ ev.Answers m (.array ref) "slice" arguments
      (.array ((m.heap.elements ref).extract first last))) ∧
    (∃ a b, ev.Answers m (.text s) "slice" [.number 0, .number k] (.value (.text a)) ∧
      ev.Answers m (.text s) "slice" [.number k] (.value (.text b)) ∧
      Operation.arithmetic m.heap .add (.text a) (.text b) = .ok (.text s)) ∧
    ∃ a b, ev.Answers m (.array ref) "slice" [.number 0, .number k] (.array a) ∧
      ev.Answers m (.array ref) "slice" [.number k] (.array b) ∧ a ++ b = m.heap.elements ref := by
  refine ⟨?_, ?_, ?_, ?_⟩
  · obtain ⟨first, last, bounds, inOrder, within⟩ :=
      Member.exists_sliceBounds (h := m.heap) positions s.length "slice"
    exact ⟨first, last, inOrder, within, answers_slice_text bounds⟩
  · obtain ⟨first, last, bounds, inOrder, within⟩ :=
      Member.exists_sliceBounds (h := m.heap) positions (m.heap.elements ref).size "slice"
    exact ⟨first, last, inOrder, within, answers_slice_array bounds⟩
  · obtain ⟨before, behind⟩ := ev.answers_slices m s k
    refine ⟨_, _, before, behind, ?_⟩
    show Except.ok (Value.text (String.ofList _ ++ String.ofList _)) = _
    rw [← String.ofList_append, List.take_append_drop, String.ofList_toList]
  · refine ⟨_, _, answers_slice_array (Member.sliceBounds_before ..), answers_slice_array (Member.sliceBounds_behind ..), ?_⟩
    rw [Array.extract_append_extract, Nat.zero_min, Nat.max_eq_right (Member.clamp_le _ _), Array.extract_size]

/-- A negative position that is not whole, and none. -/
theorem slice_cuts_fraction :
    ∃ first last, first ≤ last ∧ last ≤ 3 ∧ (ofDepth 0).Answers {} (.text "abc") "slice" [.number (-1.5), .nil]
      (.value (.text (String.ofList ("abc".toList.extract first last)))) :=
  (slice_cuts (ofDepth 0) {} "abc" 0 [.number (-1.5), .nil] (by simp [Value.IsPosition]) 0).1

/-! ## Splitting -/

/-- **Joining undoes splitting.** No part contains the separator unless it is empty, and then there is one part more than
there are occurrences from left to right. -/
theorem join_undoes_split (ev : Evaluator) (m : Machine) (s separator : String) :
    ∃ parts : List String,
      ev.Answers m (.text s) "split" [.text separator] (.array (parts.map .text).toArray) ∧
      ev.Answers { m with heap := (m.heap.newArray (parts.map .text).toArray).2 }
        (m.heap.newArray (parts.map .text).toArray).1 "join" [.text separator] (.value (.text s)) ∧
      (separator ≠ "" →
        (∀ part ∈ parts, ev.Answers m (.text part) "includes" [.text separator] (.value (.bool false))) ∧
        (∃ places, Text.Leftmost separator.toList s.toList 0 places) ∧
        ∀ places, Text.Leftmost separator.toList s.toList 0 places → parts.length = places.length + 1) := by
  refine ⟨(Text.split separator.toList s.toList).map String.ofList, answers_text ?_, answers_array rfl ?_, fun filled => ?_⟩
  · show Except.ok (Heap.Reply.array _) = _
    rw [List.map_map]
    rfl
  · have elements (e : Array Value) : (m.heap.newArray e).2.elements m.heap.arrays.size = e := by
      simp [Heap.newArray, Heap.elements]
    have texts (h : Heap) (parts : List String) : (parts.map Value.text).map h.text = parts := by
      rw [List.map_map]
      exact List.map_id _
    have joined : separator.intercalate ((Text.split separator.toList s.toList).map String.ofList) = s := by
      have whole : String.toList ∘ String.ofList = id := funext fun _ => String.toList_ofList
      rw [← String.toList_inj, String.toList_intercalate, List.map_map, whole, List.map_id, Text.intercalate_split]
    show Except.ok (Heap.Reply.value (.text (separator.intercalate
      (((m.heap.newArray _).2.elements m.heap.arrays.size).toList.map (m.heap.newArray _).2.text)))) = _
    rw [elements, texts, joined]
  · have some_char : separator.toList ≠ [] := by simpa using filled
    have cut := Text.cut_split some_char s.toList
    obtain ⟨places, leftmost, count⟩ := cut.exists_leftmost some_char []
    refine ⟨fun part hpart => answers_text ?_, ⟨places, leftmost⟩, fun others hothers => ?_⟩
    · obtain ⟨part, cutOut, rfl⟩ := List.mem_map.mp hpart
      show Except.ok (Heap.Reply.value (.bool (Text.occurs separator.toList (String.ofList part).toList))) = _
      rw [String.toList_ofList, Text.occurs_eq_false (cut.not_occursAt some_char part cutOut)]
    · rw [List.length_map, count, leftmost.unique hothers]

end Evaluator

end Trellis
