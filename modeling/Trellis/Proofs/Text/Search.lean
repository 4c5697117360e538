import Trellis.Text.Search

/-!
# Searching and splitting

Where a pattern occurs in a text is told by the characters that stand there (`Text.OccursAt`). Searching finds the
first of these positions (`Text.isFirst_find?`). Splitting takes a text apart at the first occurrence of the separator
and goes on behind it (`Text.cut_split`). So the parts with separators in between are the text again, none of them
contains the separator, and there is one part more than there are occurrences when these are found from left to right
and none may overlap the one before (`Text.Leftmost`).
-/

namespace Trellis.Text

def OccursAt (pattern text : List Char) (i : Nat) : Prop :=
  (text.drop i).take pattern.length = pattern

def IsFirst (pattern text : List Char) : Option Nat → Prop
  | some i => OccursAt pattern text i ∧ ∀ j < i, ¬ OccursAt pattern text j
  | none => ∀ i, ¬ OccursAt pattern text i

variable {pattern text : List Char} {i : Nat}

theorem occursAt_zero_iff : OccursAt pattern text 0 ↔ pattern.isPrefixOf text = true := by
  rw [List.isPrefixOf_iff_prefix, List.prefix_iff_eq_take]
  exact eq_comm

theorem occursAt_append (before text : List Char) (i : Nat) :
    OccursAt pattern (before ++ text) (before.length + i) ↔ OccursAt pattern text i := by
  rw [OccursAt, List.drop_length_add_append, OccursAt]

theorem OccursAt.eq_append (h : OccursAt pattern text i) :
    text = text.take i ++ (pattern ++ text.drop (i + pattern.length)) := by
  conv => lhs; rw [← List.take_append_drop i text, ← List.take_append_drop pattern.length (text.drop i)]
  rw [show (text.drop i).take pattern.length = pattern from h, List.drop_drop]

theorem OccursAt.add_length_le (h : OccursAt pattern text i) (filled : pattern ≠ []) :
    i + pattern.length ≤ text.length := by
  have := congrArg List.length h
  have := List.length_pos_iff.mpr filled
  simp only [List.length_take, List.length_drop] at *
  omega

theorem IsFirst.add_length_le (h : IsFirst pattern text (some i)) : i + pattern.length ≤ text.length := by
  by_cases filled : pattern = []
  · subst filled
    have : ¬ 0 < i := fun less => h.2 0 less rfl
    simp only [List.length_nil]
    omega
  · exact h.1.add_length_le filled

theorem IsFirst.cons {c : Char} {place : Option Nat} (elsewhere : ¬ OccursAt pattern (c :: text) 0)
    (h : IsFirst pattern text place) : IsFirst pattern (c :: text) (place.map (· + 1)) := by
  cases place with
  | none =>
    intro i
    cases i with
    | zero => exact elsewhere
    | succ i => exact h i
  | some n =>
    refine ⟨h.1, fun j hj => ?_⟩
    cases j with
    | zero => exact elsewhere
    | succ j => exact h.2 j (Nat.lt_of_succ_lt_succ hj)

theorem isFirst_find? (pattern text : List Char) : IsFirst pattern text (find? pattern text) := by
  induction text with
  | nil =>
    cases pattern with
    | nil => exact ⟨rfl, nofun⟩
    | cons c pattern => exact fun i => by simp [OccursAt]
  | cons c rest ih =>
    rw [find?]
    split
    · rename_i here
      exact ⟨occursAt_zero_iff.mpr here, nofun⟩
    · rename_i elsewhere
      exact ih.cons fun h => elsewhere (occursAt_zero_iff.mp h)

theorem find?_eq_zero_iff : find? pattern text = some 0 ↔ pattern.isPrefixOf text = true := by
  cases text with
  | nil => cases pattern <;> simp [find?]
  | cons c rest =>
    rw [find?]
    split <;> simp_all

theorem occurs_eq_false (h : ∀ i, ¬ OccursAt pattern text i) : occurs pattern text = false := by
  have := isFirst_find? pattern text
  rw [occurs]
  cases hfind : find? pattern text with
  | none => rfl
  | some i => exact absurd (hfind ▸ this).1 (h i)

/-! ## Splitting -/

/-- **A text is cut at a separator**: at its first occurrence, and then what is behind it. -/
inductive Cut (separator : List Char) : List Char → List (List Char) → Prop where
  | last {text : List Char} (h : IsFirst separator text none) : Cut separator text [text]
  | next {text : List Char} {n : Nat} {parts : List (List Char)} (h : IsFirst separator text (some n))
      (rest : Cut separator (text.drop (n + separator.length)) parts) : Cut separator text (text.take n :: parts)

/-- **The occurrences of a pattern that are found from left to right** from a position on, each of them behind the end
of the one before. -/
inductive Leftmost (pattern text : List Char) : Nat → List Nat → Prop where
  | nil {start : Nat} (h : ∀ i, start ≤ i → ¬ OccursAt pattern text i) : Leftmost pattern text start []
  | cons {start i : Nat} {others : List Nat} (reached : start ≤ i) (here : OccursAt pattern text i)
      (first : ∀ j, start ≤ j → j < i → ¬ OccursAt pattern text j)
      (rest : Leftmost pattern text (i + pattern.length) others) : Leftmost pattern text start (i :: others)

theorem Leftmost.unique {start : Nat} {places places' : List Nat} (h : Leftmost pattern text start places)
    (h' : Leftmost pattern text start places') : places = places' := by
  induction h generalizing places' with
  | nil none =>
    cases h' with
    | nil => rfl
    | cons reached here => exact absurd here (none _ reached)
  | @cons start i _ reached here first _ ih =>
    cases h' with
    | nil none => exact absurd here (none _ reached)
    | @cons _ j _ reached' here' first' rest' =>
      obtain less | rfl | less := Nat.lt_trichotomy i j
      · exact absurd here (first' _ reached less)
      · rw [ih rest']
      · exact absurd here' (first _ reached' less)

namespace Cut

variable {separator : List Char} {parts : List (List Char)}

theorem cons {c : Char} {front : List Char} (elsewhere : ¬ OccursAt separator (c :: text) 0)
    (h : Cut separator text (front :: parts)) : Cut separator (c :: text) ((c :: front) :: parts) := by
  cases h with
  | last none => exact .last (none.cons elsewhere)
  | next first rest =>
    refine .next (first.cons elsewhere) ?_
    rwa [Nat.add_right_comm, List.drop_succ_cons]

theorem intercalate_eq (h : Cut separator text parts) : separator.intercalate parts = text := by
  induction h with
  | last => simp
  | @next text n parts first rest ih =>
    have some_part : parts ≠ [] := by
      rintro rfl
      cases rest
    rw [List.intercalate_cons_of_ne_nil some_part, ih, List.append_assoc, ← first.1.eq_append]

theorem not_occursAt (h : Cut separator text parts) (filled : separator ≠ []) :
    ∀ part ∈ parts, ∀ i, ¬ OccursAt separator part i := by
  induction h with
  | last none => exact List.forall_mem_singleton.mpr none
  | @next text n parts first rest ih =>
    refine List.forall_mem_cons.mpr ⟨fun i here => ?_, ih⟩
    -- an occurrence in the part would be an earlier one in the text
    have fits := here.add_length_le filled
    have := List.length_pos_iff.mpr filled
    rw [List.length_take] at fits
    refine first.2 i (by omega) ?_
    rwa [OccursAt, List.drop_take, List.take_take, Nat.min_eq_left (by omega)] at here

theorem exists_leftmost (h : Cut separator text parts) (filled : separator ≠ []) (before : List Char) :
    ∃ places, Leftmost separator (before ++ text) before.length places ∧ parts.length = places.length + 1 := by
  induction h generalizing before with
  | last none =>
    refine ⟨[], .nil fun i reached here => ?_, rfl⟩
    obtain ⟨j, rfl⟩ := Nat.exists_eq_add_of_le reached
    exact none j ((occursAt_append ..).mp here)
  | @next text n parts first rest ih =>
    obtain ⟨places, found, count⟩ := ih (before ++ text.take (n + separator.length))
    rw [List.append_assoc, List.take_append_drop, List.length_append, List.length_take,
      Nat.min_eq_left (first.1.add_length_le filled), ← Nat.add_assoc] at found
    refine ⟨(before.length + n) :: places, .cons (Nat.le_add_right ..) ((occursAt_append ..).mpr first.1) ?_ found,
      congrArg (· + 1) count⟩
    intro j reached less
    obtain ⟨j, rfl⟩ := Nat.exists_eq_add_of_le reached
    exact fun here => first.2 j (by omega) ((occursAt_append ..).mp here)

end Cut

section

variable {separator : List Char} (filled : separator ≠ [])
include filled

theorem cut_splitFrom (skip : Nat) (current text : List Char) :
    ∃ front parts, splitFrom separator skip current text = (current.reverse ++ front) :: parts ∧
      Cut separator (text.drop skip) (front :: parts) := by
  induction text generalizing skip current with
  | nil =>
    refine ⟨[], [], by simp [splitFrom], ?_⟩
    rw [List.drop_nil]
    exact .last fun i here => filled (by simpa [OccursAt] using here.symm)
  | cons c rest ih =>
    cases skip with
    | succ skip => exact ih skip current
    | zero =>
      rw [splitFrom, List.drop_zero]
      split
      · rename_i here
        obtain ⟨front, parts, split, cut⟩ := ih (separator.length - 1) []
        have behind : (c :: rest).drop (0 + separator.length) = rest.drop (separator.length - 1) := by
          obtain ⟨d, separator, rfl⟩ := List.exists_cons_of_ne_nil filled
          simp
        refine ⟨[], front :: parts, by rw [split, List.append_nil]; rfl, ?_⟩
        exact .next ⟨occursAt_zero_iff.mpr here, nofun⟩ (behind ▸ cut)
      · rename_i elsewhere
        obtain ⟨front, parts, split, cut⟩ := ih 0 (c :: current)
        refine ⟨c :: front, parts, by simp [split], ?_⟩
        exact cut.cons fun h => elsewhere (occursAt_zero_iff.mp h)

theorem cut_split (text : List Char) : Cut separator text (split separator text) := by
  obtain ⟨front, parts, split, cut⟩ := cut_splitFrom filled 0 [] text
  rwa [Text.split, if_neg (by simpa using filled), split]

end

theorem intercalate_split (separator text : List Char) : separator.intercalate (split separator text) = text := by
  by_cases filled : separator = []
  · subst filled
    induction text with
    | nil => rfl
    | cons c rest ih =>
      cases rest with
      | nil => rfl
      | cons d rest => exact List.intercalate_cons_cons.trans (congrArg (c :: ·) ih)
  · exact (cut_split filled text).intercalate_eq

end Trellis.Text
