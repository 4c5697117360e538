import Trellis.Proofs.Number.Folding
import Trellis.Value.Operation

/-!
# Numbers and texts compared

A number is compared with a text in two ways. Whether they are equal is told by reading the text as a number. How they
are ordered is told by what the text is in arithmetic, and there a blank text is zero, although it reads as no number.
So a number is equal to a text exactly if it is neither below nor above it, unless the number is zero and the text is
blank (`Operation.meets_iff`).
-/

namespace Trellis

namespace Operation

def Holds (h : Heap) (operator : Comparison) (a b : Value) : Prop :=
  compare h operator a b = .ok (.bool true)

/-- **Equality and order agree on two values**: they are equal exactly if each of them is at most the other one. -/
def Meets (h : Heap) (a b : Value) : Prop :=
  a.equal b = true ↔ Holds h .lessEqual a b ∧ Holds h .greaterEqual a b

variable {h : Heap} {a b : Value} {s : String}

/-! ## Order -/

theorem orderNumbers?_eq_iff (x y : Float) : orderNumbers? x y = some .eq ↔ (x == y) = true := by
  unfold orderNumbers?
  constructor
  · intro same
    split at same
    · cases same
    · split at same
      · assumption
      · split at same <;> cases same
  · intro equal
    rw [if_neg (Number.not_lt_of_beq equal), if_pos equal]

theorem holds_both_iff : Holds h .lessEqual a b ∧ Holds h .greaterEqual a b ↔ order? a b = some (some .eq) := by
  unfold Holds compare
  cases order? a b with
  | none => simp
  | some o =>
    cases o with
    | none => simp
    | some o => cases o <;> simp [satisfies]

theorem holds_both_text {x y : Float} (hy : Value.toNumber? (.text s) = some y) :
    (Holds h .lessEqual (.number x) (.text s) ∧ Holds h .greaterEqual (.number x) (.text s) ↔ (y == x) = true) ∧
      (Holds h .lessEqual (.text s) (.number x) ∧ Holds h .greaterEqual (.text s) (.number x) ↔ (y == x) = true) := by
  have number : Value.toNumber? (.number x) = some x := rfl
  constructor
  · rw [holds_both_iff, Number.beq_comm, ← orderNumbers?_eq_iff]
    simp [order?, isNumeric, hy, number]
  · rw [holds_both_iff, ← orderNumbers?_eq_iff]
    simp [order?, isNumeric, hy, number]

/-! ## What a text is -/

theorem toNumber?_blank (blank : Text.trim s = "") : Value.toNumber? (.text s) = some 0.0 := by
  simp [Value.toNumber?, blank]

theorem textReads_blank (blank : Text.trim s = "") (x : Float) : Value.textReads s x = false := by
  unfold Value.textReads
  rw [blank]
  rfl

theorem exists_toNumber?_inked (inked : Text.trim s ≠ "") :
    ∃ y, Value.toNumber? (.text s) = some y ∧ ∀ x, Value.textReads s x = (y == x) := by
  refine ⟨(Number.read? (Text.trim s)).getD Number.notANumber, by simp [Value.toNumber?, inked], fun x => ?_⟩
  unfold Value.textReads
  cases Number.read? (Text.trim s) with
  | some y => rfl
  | none => exact (Number.notANumber_beq x).symm

/-- **A number is equal to a text exactly if it is neither below nor above it**, on whichever side the number stands,
with one exception: zero is not equal to a blank text, and still each of them is at most the other one. -/
theorem meets_iff (h : Heap) (x : Float) (s : String) :
    (Meets h (.number x) (.text s) ↔ ¬ (Text.trim s = "" ∧ (0.0 == x) = true)) ∧
      (Meets h (.text s) (.number x) ↔ ¬ (Text.trim s = "" ∧ (0.0 == x) = true)) ∧
      (Text.trim s = "" → Value.equal (.number x) (.text s) = false ∧ Value.equal (.text s) (.number x) = false) := by
  unfold Meets
  show ((Value.textReads s x = true ↔ _) ↔ _) ∧ ((Value.textReads s x = true ↔ _) ↔ _) ∧
    (_ → Value.textReads s x = false ∧ Value.textReads s x = false)
  by_cases blank : Text.trim s = ""
  · have both := holds_both_text (h := h) (x := x) (toNumber?_blank blank)
    rw [both.1, both.2, textReads_blank blank]
    simp [blank]
  · obtain ⟨y, hy, reads⟩ := exists_toNumber?_inked blank
    have both := holds_both_text (h := h) (x := x) hy
    rw [both.1, both.2, reads]
    simp [blank]

/-- Zero and the empty text are such a pair. -/
theorem not_meets_zero_empty : ¬ Meets {} (.number 0) (.text "") := by
  unfold Meets
  rw [holds_both_iff]
  decide

end Operation

end Trellis
