import Trellis.Number.Reading

/-!
# What is a number

A floating-point number is kept in its packed form and is unpacked to be computed with: it is then infinite, zero, a
mantissa with an exponent, or not a number. Here it is told which operations never come to what is not a number. A
mantissa that is rounded gives a mantissa or zero. So the sum of any number and one is a number, and so is every
integer, however large: it is rounded, or becomes infinite.

A number is equal to itself, and of two numbers that are equal none is less than the other.
-/

namespace Trellis.Number

open Float.Model (UnpackedFloat)
open Float.Model.UnpackedFloat

/-! ## Packing -/

theorem isNaN_dite {c : Prop} [Decidable c] {x : c → UnpackedFloat} {y : ¬c → UnpackedFloat}
    (hx : ∀ h, (x h).isNaN = false) (hy : ∀ h, (y h).isNaN = false) : (dite c x y).isNaN = false := by
  split
  · exact hx _
  · exact hy _

theorem isNaN_unpack {b : BitVec 64} (h : @unpackExponent .binary64 b ≠ -1#11) :
    (unpack .binary64 b).isNaN = false := by
  unfold unpack
  dsimp only
  rw [if_neg h]
  exact iteInduction (motive := (UnpackedFloat.isNaN · = false)) (fun _ => isNaN_dite (fun _ => rfl) fun _ => rfl)
    fun _ => rfl

theorem isNaN_unpack_pack {f : UnpackedFloat} (h : f.isNaN = false) : (Float.Model.pack f).unpack.isNaN = false := by
  show (unpack .binary64 (pack .binary64 f)).isNaN = false
  have infinite (s : Sign) : (unpack .binary64 (packedInfinity .binary64 s)).isNaN = false := by
    cases s <;> rfl
  cases f with
  | notANumber => contradiction
  | infinity s => exact infinite s
  | zero s => cases s <;> rfl
  | finite s m e pos =>
    unfold pack
    dsimp only
    split
    · exact infinite s
    · rename_i small
      split
      · refine isNaN_unpack fun same => ?_
        have := congrArg BitVec.toNat (unpackExponent_packComponents.symm.trans same)
        simp at this small
        omega
      · exact isNaN_unpack (by simp)

/-! ## Operations -/

theorem isNaN_roundWithAccuracy (s : Sign) (m : Nat) (e : Int) (accuracy : Accuracy) :
    (roundWithAccuracy .binary64 s m e accuracy).isNaN = false := by
  unfold roundWithAccuracy
  exact isNaN_dite (fun _ => rfl) fun _ => rfl

theorem isNaN_normalize (m e : Int) (s : Sign) : (UnpackedFloat.normalize .binary64 m e s).isNaN = false := by
  unfold UnpackedFloat.normalize
  split
  · exact isNaN_roundWithAccuracy _ _ _ _
  · rfl
  · exact isNaN_roundWithAccuracy _ _ _ _

section

variable {x : UnpackedFloat} {s : Sign} {m : Nat} {e : Int} {pos : 0 < m}

theorem isNaN_add (h : x.isNaN = false) : (add .binary64 x (.finite s m e pos)).isNaN = false := by
  cases x with
  | notANumber => contradiction
  | finite => exact isNaN_normalize _ _ _
  | _ => rfl

theorem isNaN_mul (h : x.isNaN = false) : (mul .binary64 x (.finite s m e pos)).isNaN = false := by
  cases x with
  | notANumber => contradiction
  | finite => exact isNaN_roundWithAccuracy _ _ _ _
  | _ => rfl

theorem isNaN_neg (h : x.isNaN = false) : x.neg.isNaN = false := by
  cases x with
  | notANumber => contradiction
  | _ => rfl

end

theorem exists_unpack_one : ∃ s m e pos, (1 : Float).toModel.unpack = .finite s m e pos :=
  ⟨_, _, _, _, rfl⟩

theorem isNaN_add_one {x : Float} (h : x.isNaN = false) : (x + 1).isNaN = false := by
  obtain ⟨s, m, e, pos, one⟩ := exists_unpack_one
  refine isNaN_unpack_pack ?_
  rw [one]
  exact isNaN_add h

theorem isNaN_ofNat (n : Nat) : (Float.ofNat n).isNaN = false := by
  show (Float.ofScientific n false 0).isNaN = false
  unfold Float.ofScientific
  split
  · obtain ⟨s, m, e, pos, one⟩ := exists_unpack_one
    refine isNaN_unpack_pack ?_
    rw [show (Float.exactlyRepresentablePowersOfTen[0]).toModel.unpack = (1 : Float).toModel.unpack from rfl, one]
    exact isNaN_mul (isNaN_unpack_pack (isNaN_normalize _ _ _))
  · refine isNaN_unpack_pack ?_
    refine isNaN_dite (fun _ => rfl) fun _ => ?_
    have large : ¬ (0 : Int) < -(2 ^ 11 + (n.log2 : Int)) := by omega
    rw [if_neg Bool.false_ne_true, if_neg (by decide), if_neg (by exact large), if_pos (by decide)]
    exact isNaN_mul rfl

theorem isNaN_ofInt (n : Int) : (Float.ofInt n).isNaN = false := by
  cases n with
  | ofNat n => exact isNaN_ofNat n
  | negSucc n => exact isNaN_unpack_pack (isNaN_neg (isNaN_ofNat (n + 1)))

/-! ## Comparing -/

theorem beq_self {x : Float} (h : x.isNaN = false) : (x == x) = true := by
  have h : x.toModel.unpack.isNaN = false := h
  show x.toModel.unpack.beq x.toModel.unpack = true
  unfold UnpackedFloat.beq
  cases hx : x.toModel.unpack with
  | notANumber =>
    rw [hx] at h
    contradiction
  | infinity s => cases s <;> rfl
  | zero s => rfl
  | finite s m e pos =>
    have same : (compare e e).then (compare m m) = .eq := by simp
    cases s
    · exact congrArg (some ·.swap == some .eq) same
    · exact congrArg (some · == some .eq) same

theorem compare_eq_comm {x y : UnpackedFloat} (h : x.compare y = some .eq) : y.compare x = some .eq := by
  have swapped {e e' : Int} {m m' : Nat} (h : (compare e e').then (compare m m') = .eq) :
      (compare e' e).then (compare m' m) = .eq := by
    obtain ⟨rfl, rfl⟩ : e = e' ∧ m = m' := by simpa [Ordering.then_eq_eq] using h
    exact h
  cases x <;> cases y <;> (try cases ‹Sign›) <;> (try cases ‹Sign›) <;> first | rfl | cases h | skip
  · exact congrArg (some ·.swap) (swapped (Ordering.swap_eq_eq.mp (Option.some.inj h)))
  · exact congrArg some (swapped (Option.some.inj h))

theorem beq_iff (x y : Float) : (x == y) = true ↔ x.toModel.unpack.compare y.toModel.unpack = some .eq := by
  show (x.toModel.unpack.compare y.toModel.unpack == some .eq) = true ↔ _
  rw [beq_iff_eq]

theorem notANumber_beq (x : Float) : (notANumber == x) = false := by
  show (UnpackedFloat.compare notANumber.toModel.unpack x.toModel.unpack == some .eq) = false
  rw [show notANumber.toModel.unpack = .notANumber from rfl]
  rfl

theorem beq_comm (x y : Float) : (x == y) = (y == x) := by
  rw [Bool.eq_iff_iff, beq_iff, beq_iff]
  exact ⟨compare_eq_comm, compare_eq_comm⟩

theorem not_lt_of_beq {x y : Float} (h : (x == y) = true) : ¬ x < y := by
  intro less
  have less : (x.toModel.unpack.compare y.toModel.unpack == some .lt) = true := of_decide_eq_true less
  rw [(beq_iff x y).mp h] at less
  cases less

end Trellis.Number
