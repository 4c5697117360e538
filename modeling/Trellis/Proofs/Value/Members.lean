import Trellis.Evaluation.Expression

/-!
# Reading what was written to a member

Members are written and read by different rules. A field of an object goes by the text of its key, and an element of an
array by the position that a number names, if it names one. Both rules have to come to the same place.

The text of a key depends on the heap, and writing changes the heap. But the text of a value shows only what can be
reached from it (`Heap.Reaches`), so it stays the same unless the receiver is reached from the key
(`Heap.text_apply`). Hence what was written is read again, other members are read as before, a new name comes behind
all others, and an array grows by one element at most (`Member.Wrote`). A write that is refused changes nothing.
-/

namespace Trellis

namespace Fields

variable {α : Type} (f : Fields α) (name : String) (a : α)

theorem get?_insert_of_ne {other : String} (h : other ≠ name) : (f.insert name a).get? other = f.get? other := by
  obtain ⟨entries⟩ := f
  induction entries with
  | nil => simp [insert, put, get?, h.symm]
  | cons entry rest ih =>
    by_cases same : entry.1 = name
    · simp [insert, put, get?, same, h.symm]
    · by_cases found : entry.1 = other
      · simp [insert, put, get?, found, h]
      · simpa [insert, put, get?, same, found] using ih

theorem names_insert : (f.insert name a).names = if name ∈ f.names then f.names else f.names ++ [name] := by
  obtain ⟨entries⟩ := f
  induction entries with
  | nil => rfl
  | cons entry rest ih =>
    by_cases same : entry.1 = name
    · simp [insert, put, names, same]
    · have ih : (put name a rest).map (·.1) = if name ∈ rest.map (·.1) then rest.map (·.1) else _ := ih
      simp only [insert, put, names, beq_iff_eq, same, if_false, List.map_cons, List.mem_cons, Ne.symm same, false_or, ih]
      split <;> rfl

end Fields

variable {ref : Ref}

namespace Heap

/-- **What is reached from a value**: the value itself, and what is reached from its elements or its fields. -/
inductive Reaches (h : Heap) : Value → Value → Prop where
  | self (v : Value) : h.Reaches v v
  | element {ref v w} (mem : v ∈ (h.elements ref).toList) (next : h.Reaches v w) :
      h.Reaches (.array ref) w
  | field {ref entry w} (mem : entry ∈ (h.fields ref).entries)
      (next : h.Reaches entry.2 w) : h.Reaches (.object ref) w

def Holds (h : Heap) : Value → Prop
  | .array ref => ref < h.arrays.size
  | .object ref => ref < h.objects.size
  | _ => True

def Edit.receiver : Edit → Value
  | append ref _ => .array ref
  | dropLast ref => .array ref
  | setElement ref _ _ => .array ref
  | setField ref _ _ => .object ref

/-! ## What an edit leaves alone -/

theorem getD_modify {β : Type} (a : Array β) (i j : Nat) (f : β → β) (default : β) :
    ((a.modify i f)[j]?).getD default =
      if i = j ∧ i < a.size then f ((a[i]?).getD default) else (a[j]?).getD default := by
  rw [Array.getElem?_modify]
  by_cases same : i = j
  · subst same
    by_cases held : i < a.size <;> simp [held]
  · simp [same]

variable {h : Heap} {e : Edit} {v : Value}

theorem elements_apply (other : .array ref ≠ e.receiver) : (h.apply e).elements ref = h.elements ref := by
  cases e with
  | setField => rfl
  | _ => exact (getD_modify ..).trans (if_neg fun same => other (congrArg _ same.1.symm))

theorem fields_apply (other : .object ref ≠ e.receiver) : (h.apply e).fields ref = h.fields ref := by
  cases e with
  | setField => exact (getD_modify ..).trans (if_neg fun same => other (congrArg _ same.1.symm))
  | _ => rfl

theorem textTo_apply (depth : Nat) (apart : ¬ h.Reaches v e.receiver) :
    (h.apply e).textTo depth v = h.textTo depth v := by
  induction depth generalizing v with
  | zero => rfl
  | succ depth ih =>
    have other : v ≠ e.receiver := fun same => apart (same ▸ .self v)
    have functions : (h.apply e).functions = h.functions ∧ (h.apply e).builtins = h.builtins := by
      cases e <;> exact ⟨rfl, rfl⟩
    cases v with
    | array ref =>
      simp only [textTo, elements_apply other]
      congr 3
      refine List.map_congr_left fun v mem => ?_
      split
      · rfl
      · exact ih fun next => apart (.element mem next)
    | object ref =>
      simp only [textTo, fields_apply other]
      congr 3
      refine List.map_congr_left fun entry mem => ?_
      split
      · rfl
      · rw [ih fun next => apart (.field mem next)]
    | function ref => simp only [textTo, functionText, functions]
    | builtin ref => simp only [textTo, builtinText, functions]
    | _ => rfl

theorem text_apply (apart : ¬ h.Reaches v e.receiver) : (h.apply e).text v = h.text v := by
  have sizes : (h.apply e).arrays.size + (h.apply e).objects.size = h.arrays.size + h.objects.size := by
    cases e <;> simp [apply, modifyArray, modifyObject]
  unfold text
  rw [sizes, textTo_apply _ apart]

end Heap

namespace Member

variable {h h' : Heap} {receiver key value : Value} {e : Heap.Edit}

/-- Do two keys name the same place? Fields go by the texts of their keys and elements by positions. -/
def SamePlace (h : Heap) : Value → Value → Value → Prop
  | .array _, .number x, .number y => Number.index? x = Number.index? y
  | .object _, a, b => h.text a = h.text b
  | _, _, _ => False

structure Wrote (h h' : Heap) (receiver key value : Value) : Prop where
  read : Member.read h' receiver key = .ok value
  /-- The members with other keys are as they were, the length of an array aside. -/
  others : ∀ other, ¬ h.Reaches other receiver → ¬ SamePlace h receiver key other →
    (∀ ref, receiver = .array ref → other ≠ .text "length") →
    Member.read h' receiver other = Member.read h receiver other
  /-- A new name comes behind the names of an object, which else stay as they are. -/
  names : ∀ ref, receiver = .object ref → (h'.fields ref).names =
    if h.text key ∈ (h.fields ref).names then (h.fields ref).names else (h.fields ref).names ++ [h.text key]
  /-- An array gets one more element if the key names the position behind the last one, and else stays as long as it
  is. -/
  length : ∀ ref x, receiver = .array ref → key = .number x → (h'.elements ref).size =
    if Number.index? x = some (h.elements ref).size then (h.elements ref).size + 1 else (h.elements ref).size

theorem edit_cases (done : edit h receiver key value = .ok e) :
    (∃ ref, receiver = .object ref ∧ e = .setField ref (h.text key) value) ∨
      ∃ ref x i, receiver = .array ref ∧ key = .number x ∧ Number.index? x = some i ∧
        (i < (h.elements ref).size ∧ e = .setElement ref i value ∨
          i = (h.elements ref).size ∧ e = .append ref [value]) := by
  unfold edit at done
  split at done
  · cases done
    exact .inl ⟨_, rfl, rfl⟩
  next ref x =>
    split at done
    next i position =>
      refine .inr ⟨ref, x, i, rfl, rfl, position, ?_⟩
      dsimp only at done
      split at done
      next within =>
        cases done
        exact .inl ⟨within, rfl⟩
      · split at done
        next behind =>
          cases done
          exact .inr ⟨beq_iff_eq.mp behind, rfl⟩
        · cases done
    · cases done
  · cases done

theorem read_object (h : Heap) (ref : Ref) (key : Value) :
    Member.read h (.object ref) key = .ok (((h.fields ref).get? (h.text key)).getD .nil) := by
  cases key <;> rfl

theorem wrote_object (held : h.Holds (.object ref)) (apart : ¬ h.Reaches key (.object ref)) :
    Wrote h (h.apply (.setField ref (h.text key) value)) (.object ref) key value := by
  have fields : (h.apply (.setField ref (h.text key) value)).fields ref = (h.fields ref).insert (h.text key) value :=
    (Heap.getD_modify ..).trans (if_pos ⟨rfl, held⟩)
  constructor
  · rw [read_object, fields, Heap.text_apply apart, Fields.get?_insert_self]
    rfl
  · intro other unreached apart _
    rw [read_object, read_object, fields, Heap.text_apply unreached, Fields.get?_insert_of_ne _ _ _ (Ne.symm apart)]
  · rintro _ ⟨⟩
    rw [fields, Fields.names_insert]
  · rintro _ _ ⟨⟩

theorem wrote_array {x : Float} {i : Nat} (position : Number.index? x = some i) (edits : e.receiver = .array ref)
    (elements : ∀ j, ((h.apply e).elements ref)[j]? = if i = j then some value else (h.elements ref)[j]?)
    (size : ((h.apply e).elements ref).size = if i = (h.elements ref).size then i + 1 else (h.elements ref).size) :
    Wrote h (h.apply e) (.array ref) (.number x) value := by
  constructor
  · show Except.ok _ = _
    rw [position, Option.bind_some, elements, if_pos rfl]
    rfl
  · intro other unreached apart length
    have refused : (.error (.unreadable ((h.apply e).text other) .array) : Except MemberFault Value) =
        .error (.unreadable (h.text other) .array) := by
      rw [Heap.text_apply (edits ▸ unreached)]
    cases other with
    | number y =>
      show Except.ok _ = Except.ok _
      cases hy : Number.index? y with
      | none => rfl
      | some j =>
        have elsewhere : i ≠ j := fun same => apart (position.trans (same ▸ hy.symm))
        rw [Option.bind_some, Option.bind_some, elements, if_neg elsewhere]
    | text k =>
      have short : (k == "length") = false := beq_eq_false_iff_ne.mpr fun same => length ref rfl (congrArg _ same)
      simpa [Member.read, Heap.tag, short] using refused
    | _ => exact refused
  · rintro _ ⟨⟩
  · rintro _ _ ⟨⟩ ⟨⟩
    rw [size, position]
    by_cases behind : i = (h.elements ref).size <;> simp [behind]

theorem wrote_of_edit (held : h.Holds receiver) (apart : ¬ h.Reaches key receiver)
    (done : edit h receiver key value = .ok e) : Wrote h (h.apply e) receiver key value := by
  obtain ⟨ref, rfl, rfl⟩ | ⟨ref, x, i, rfl, rfl, position, ⟨within, rfl⟩ | ⟨behind, rfl⟩⟩ := edit_cases done
  · exact wrote_object held apart
  · have elements : (h.apply (.setElement ref i value)).elements ref = (h.elements ref).setIfInBounds i value :=
      (Heap.getD_modify ..).trans (if_pos ⟨rfl, held⟩)
    refine wrote_array position rfl (fun j => ?_) ?_
    · rw [elements, Array.getElem?_setIfInBounds, if_pos within]
    · rw [elements, Array.size_setIfInBounds, if_neg (by omega)]
  · have elements : (h.apply (.append ref [value])).elements ref = (h.elements ref).push value :=
      (Heap.getD_modify ..).trans (if_pos ⟨rfl, held⟩)
    refine wrote_array position rfl (fun j => ?_) ?_
    · rw [elements, Array.getElem?_push, behind]
      simp [eq_comm]
    · rw [elements, Array.size_push, if_pos behind, behind]

end Member

namespace Evaluator

/-- **Writes and reads of members agree**, whatever the receiver, the key and the value are, unless the receiver is
reached from the key. -/
theorem readMember_writeMember (m : Machine) (receiver key value : Value) (span : Span) (held : m.heap.Holds receiver)
    (apart : ¬ m.heap.Reaches key receiver) :
    match writeMember receiver key value span m with
    | .done _ m' => ∃ heap, m' = { m with heap } ∧ Member.Wrote m.heap heap receiver key value ∧
        readMember receiver key span m' = .done value m'
    | .failed _ m' => m' = m
    | .exhausted => False := by
  unfold writeMember
  cases done : Member.edit m.heap receiver key value with
  | error cause => rfl
  | ok e =>
    have wrote := Member.wrote_of_edit held apart done
    refine ⟨_, rfl, wrote, ?_⟩
    unfold readMember
    split
    · cases done
    · rw [Action.bind_apply, Action.read_apply]
      dsimp only
      rw [wrote.read]
      rfl

/-- A field that goes by the text of an array. -/
theorem readMember_writeMember_arrayKey :
    let m : Machine := { heap := { arrays := #[#[.nil]], objects := #[{}] } }
    m.heap.Holds (.object 0) ∧ ¬ m.heap.Reaches (.array 0) (.object 0) ∧
      ∃ m', writeMember (.object 0) (.array 0) (.bool true) {} m = .done () m' ∧
        readMember (.object 0) (.array 0) {} m' = .done (.bool true) m' := by
  intro m
  have held : m.heap.Holds (.object 0) := Nat.zero_lt_one
  have apart : ¬ m.heap.Reaches (.array 0) (.object 0) := by
    rintro (_ | ⟨mem, next⟩)
    obtain rfl : _ = Value.nil := List.mem_singleton.mp mem
    cases next
  obtain ⟨heap, -, -, read⟩ := readMember_writeMember m (.object 0) (.array 0) (.bool true) {} held apart
  exact ⟨held, apart, _, rfl, read⟩

end Evaluator

end Trellis
