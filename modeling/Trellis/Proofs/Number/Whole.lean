import Mathlib
import Trellis.Number.Binary

/-!
# Whole numbers as floating-point numbers

A natural number below `2 ^ 53` is a floating-point number without being rounded: its mantissa is shifted to full
length, and this is what is packed and unpacked again. So the whole part of the number is the natural number
(`wholePart_ofNat`), and what counts characters can be told as a number of the language.
-/

namespace Trellis.Number

open Float.Model (UnpackedFloat)
open Float.Model.UnpackedFloat

variable {s : Sign} {m : Nat} {e : Int}

theorem repeat_shiftRightOne (m k : Nat) :
    Nat.repeat ExtendedMantissa.shiftRightOne k ⟨m <<< k, false, false⟩ = ⟨m, false, false⟩ := by
  induction k generalizing m with
  | zero => rfl
  | succ k ih =>
    rw [Nat.repeat, Nat.shiftLeft_succ_inside, ih]
    simp [ExtendedMantissa.shiftRightOne]

theorem log2_shiftLeft (pos : m ≠ 0) (k : Nat) : (m <<< k).log2 = m.log2 + k := by
  induction k with
  | zero => rfl
  | succ k ih => rw [Nat.shiftLeft_succ, Nat.log2_two_mul (by simpa using pos), ih]; rfl

/-- A mantissa of full length is kept, also where zeros stand behind it. -/
theorem shiftToTarget (full : m.log2 = 52) (low : -1074 ≤ e) (k : Nat) :
    shiftToTargetExponent .binary64 (m <<< k) (e - k) .exact = (⟨m, false, false⟩, e) := by
  have pos : m ≠ 0 := by rintro rfl; simp at full
  have target : Float.Model.Format.binary64.targetExponent (Float.Model.totalExponent (m <<< k) (e - k)) = e := by
    simp only [Float.Model.Format.targetExponent, Float.Model.totalExponent, log2_shiftLeft pos, full,
      Float.Model.Format.mantissaBits, Float.Model.Format.minExponent]
    omega
  unfold shiftToTargetExponent
  simp only [target, shiftToExponent]
  have amount : (e - (e - (k : Int))).toNat = k := by omega
  rw [amount]
  exact Prod.ext (repeat_shiftRightOne m k) (Int.sub_add_cancel ..)

theorem roundWithAccuracy_full (full : m.log2 = 52) (low : -1074 ≤ e) (k : Nat) (pos : 0 < m) :
    roundWithAccuracy .binary64 s (m <<< k) (e - k) .exact = .finite s m e pos := by
  unfold roundWithAccuracy
  have again := shiftToTarget full low 0
  rw [Nat.shiftLeft_zero, Int.natCast_zero, Int.sub_zero] at again
  have rounded : ExtendedMantissa.roundedMantissa ⟨m, false, false⟩ = m := rfl
  simp only [shiftToTarget full low k, rounded, again]
  rw [dif_neg (Nat.ne_of_gt pos)]

theorem normalize_full {n : Nat} (pos : 0 < n) (h : n < 2 ^ 53) :
    UnpackedFloat.normalize .binary64 n 0 .positive = .finite .positive (n <<< (52 - n.log2)) (n.log2 - 52) (by simpa using pos) := by
  have small : n.log2 < 53 := (Nat.log2_lt (Nat.ne_of_gt pos)).mpr h
  have compared : compare (n : Int) 0 = .gt := by
    simp only [compare, compareOfLessAndEq]
    rw [if_neg (by omega), if_neg (by omega)]
  unfold UnpackedFloat.normalize
  rw [compared]
  show UnpackedFloat.round .binary64 .positive n 0 = _
  have target : Float.Model.Format.binary64.targetExponent (Float.Model.totalExponent n 0) = n.log2 - 52 := by
    simp only [Float.Model.Format.targetExponent, Float.Model.totalExponent,
      Float.Model.Format.mantissaBits, Float.Model.Format.minExponent]
    omega
  unfold UnpackedFloat.round
  simp only [target, decreaseExponent]
  have amount : ((0 : Int) - (n.log2 - 52)).toNat = 52 - n.log2 := by omega
  rw [amount]
  have full : (n <<< (52 - n.log2)).log2 = 52 := by rw [log2_shiftLeft (Nat.ne_of_gt pos)]; omega
  have := roundWithAccuracy_full (s := .positive) full (e := n.log2 - 52) (by omega) 0 (by simpa using pos)
  rw [Nat.shiftLeft_zero, Int.natCast_zero, Int.sub_zero] at this
  rw [← this]
  congr 1
  omega

/-! ## Packing a mantissa of full length -/

theorem mod_full (full : m.log2 = 52) : m % 2 ^ 52 = m - 2 ^ 52 := by
  have := (Nat.log2_eq_iff (k := 52) (by rintro rfl; simp at full)).mp full
  rw [Nat.mod_eq_sub_mod this.1, Nat.mod_eq_of_lt (by omega)]

section

variable (full : m.log2 = 52) (low : -52 ≤ e) (high : e ≤ 0) (pos : 0 < m)
include full low high

theorem pack_full : pack .binary64 (.finite .positive m e pos) =
    packComponents .binary64 .positive (BitVec.ofNat 11 (e + 1075).toNat) (BitVec.ofNat 52 m) := by
  unfold pack
  have biased : (e + Float.Model.Format.binary64.exponentBias + (52 : Nat)).toNat = (e + 1075).toNat := by
    simp only [Float.Model.Format.exponentBias]
    omega
  simp only [biased, full, Float.Model.Format.mantissaBits]
  rw [if_neg (by omega), if_pos trivial]

theorem unpack_pack_full : unpack .binary64 (pack .binary64 (.finite .positive m e pos)) = .finite .positive m e pos := by
  rw [pack_full full low high pos]
  have sign (x : BitVec 11) (y : BitVec 52) :
      Sign.ofBitVec (unpackSign (packComponents .binary64 .positive x y)) = .positive := by
    show Sign.ofBitVec ((0#1 ++ x ++ y).extractLsb' 63 1) = _
    rw [BitVec.extractLsb'_append_eq_of_le (by decide), BitVec.extractLsb'_append_eq_of_le (by decide)]
    rfl
  have mantissa : (1#1 ++ BitVec.ofNat 52 m).toNat = m := by
    rw [BitVec.toNat_append, ← Nat.shiftLeft_add_eq_or_of_lt (BitVec.isLt _)]
    simp only [BitVec.toNat_ofNat, mod_full full]
    have := (Nat.log2_eq_iff (k := 52) (Nat.ne_of_gt pos)).mp full
    simp
    omega
  have exponent : ((BitVec.ofNat 11 (e + 1075).toNat).toNat : Int) = e + 1075 := by
    rw [BitVec.toNat_ofNat, Nat.mod_eq_of_lt (by omega)]
    omega
  unfold unpack
  simp only [unpackMantissa_packComponents, unpackExponent_packComponents, sign]
  rw [if_neg, if_neg]
  · simp only [mantissa, exponent, Float.Model.Format.exponentBias]
    congr 1
    omega
  · intro h
    have := congrArg BitVec.toNat h
    simp at this
    omega
  · intro h
    have := congrArg BitVec.toNat h
    simp at this
    omega

theorem toNat_pack : (pack .binary64 (.finite .positive m e pos)).toNat = (e + 1075).toNat * 2 ^ 52 + (m - 2 ^ 52) := by
  rw [pack_full full low high pos, packComponents, BitVec.toNat_append, BitVec.toNat_append]
  rw [← Nat.shiftLeft_add_eq_or_of_lt (BitVec.isLt _), ← Nat.shiftLeft_add_eq_or_of_lt (BitVec.isLt _)]
  simp only [BitVec.toNat_ofNat, Nat.shiftLeft_eq, mod_full full]
  have sign : Sign.positive.toBitVec.toNat = 0 := rfl
  rw [sign, Nat.mod_eq_of_lt (by omega)]
  omega

end

theorem ofNat_full {n : Nat} (pos : 0 < n) (h : n < 2 ^ 53) :
    (Float.ofNat n).toModel =
      Float.Model.pack (.finite .positive (n <<< (52 - n.log2)) (n.log2 - 52) (by simpa using pos)) := by
  have small : n.log2 < 53 := (Nat.log2_lt (Nat.ne_of_gt pos)).mpr h
  have full : (n <<< (52 - n.log2)).log2 = 52 := by rw [log2_shiftLeft (Nat.ne_of_gt pos)]; omega
  show (Float.ofScientific n false 0).toModel = _
  unfold Float.ofScientific
  rw [dif_pos ⟨h, by decide⟩]
  show Float.Model.pack (mul .binary64 (unpack .binary64 (pack .binary64
    (UnpackedFloat.normalize .binary64 (n.toUInt64.toNat : Int) 0 .positive)))
    (1 : Float).toModel.unpack) = _
  have word : n.toUInt64.toNat = n := by
    rw [Nat.toUInt64, UInt64.toNat_ofNat', Nat.mod_eq_of_lt (by omega)]
  rw [word, normalize_full pos h, unpack_pack_full full (by omega) (by omega)]
  refine congrArg Float.Model.pack ?_
  refine Eq.trans ?_ (roundWithAccuracy_full full (by omega) 52 (by simpa using pos))
  rw [Nat.shiftLeft_eq _ 52]
  rfl

theorem wholePart_ofNat {n : Nat} (h : n < 2 ^ 53) : wholePart (Float.ofNat n) = n := by
  obtain rfl | pos := Nat.eq_zero_or_pos n
  · rfl
  have small : n.log2 < 53 := (Nat.log2_lt (Nat.ne_of_gt pos)).mpr h
  have full : (n <<< (52 - n.log2)).log2 = 52 := by rw [log2_shiftLeft (Nat.ne_of_gt pos)]; omega
  have bits : (Float.ofNat n).toBits.toNat = _ :=
    (congrArg (fun m : Float.Model => m.toBits.toNat) (ofNat_full pos h)).trans (toNat_pack full (by omega) (by omega) (by simpa using pos))
  have := (Nat.log2_eq_iff (k := 52) (by simpa using Nat.ne_of_gt pos)).mp full
  have exact : Binary.ofFloat? (Float.ofNat n) = some ⟨false, n <<< (52 - n.log2), n.log2 - 52⟩ := by
    unfold Binary.ofFloat?
    simp only [bits, signBit, leadingBit]
    have biased : ((n.log2 - 52 : Int) + 1075).toNat = n.log2 + 1023 := by omega
    rw [biased]
    generalize n <<< (52 - n.log2) = m at *
    have negative : ((n.log2 + 1023) * 2 ^ 52 + (m - 2 ^ 52)) / 0x8000000000000000 = 0 := by omega
    have exponent : ((n.log2 + 1023) * 2 ^ 52 + (m - 2 ^ 52)) / 0x10000000000000 % 2048 = n.log2 + 1023 := by omega
    have stored : ((n.log2 + 1023) * 2 ^ 52 + (m - 2 ^ 52)) % 0x10000000000000 = m - 2 ^ 52 := by omega
    rw [negative, exponent, stored, if_neg (by simp; omega), if_neg (by simp)]
    simp only [Option.some.injEq, Binary.mk.injEq]
    refine ⟨rfl, by omega, by omega⟩
  rw [wholePart, exact]
  show ((Binary.whole _ : Nat) : Int) = n
  rw [Binary.whole]
  obtain eq | less : n.log2 = 52 ∨ n.log2 < 52 := by omega
  · simp [eq]
  · have : (n.log2 - 52 : Int) = .negSucc (51 - n.log2) := by omega
    simp only [this]
    rw [show 51 - n.log2 + 1 = 52 - n.log2 by omega, Nat.shiftLeft_shiftRight]

end Trellis.Number
