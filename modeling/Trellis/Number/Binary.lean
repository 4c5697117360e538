/-!
# Binary numbers

The numbers of the language are binary floating-point numbers of sixty-four bits. What the rest of the
library asks of one (its whole part, its remainder, its digits) is asked of its exact value, which is an
integer times a power of two. `Binary` is that exact value, and it is read off the bits and put back
into them.
-/

namespace Trellis.Number

/-- **The exact value of a finite number**: `mantissa · 2 ^ exponent`, negated if `negative`. The sign is
kept apart so that the two zeros differ. -/
structure Binary where
  negative : Bool
  mantissa : Nat
  exponent : Int

/-- The exponent of the smallest positive number. No number has a finer grid. -/
def leastExponent : Int := -1074

def wordLimit : Nat := 0x10000000000000000

def signBit : Nat := 0x8000000000000000

/-- The leading bit of a mantissa of full length, which is not stored. -/
def leadingBit : Nat := 0x10000000000000

namespace Binary

/-- **The exact value of a number**, if it is finite. A biased exponent of zero marks the numbers around
zero, which share the finest grid; every other one adds a leading bit to the stored mantissa. -/
def ofFloat? (x : Float) : Option Binary :=
  let bits : Nat := x.toBits.toNat
  let negative := bits / signBit == 1
  let biased : Nat := bits / leadingBit % 2048
  let stored : Nat := bits % leadingBit
  if biased == 2047 then none
  else if biased == 0 then some ⟨negative, stored, leastExponent⟩
  else some ⟨negative, leadingBit + stored, (biased : Int) - 1075⟩

/-- Scale a mantissa below `2 ^ 53` up to the form in which it is stored: fifty-three bits, or the finest
grid if that comes first. -/
def normalize (b : Binary) : Binary :=
  let room := (b.exponent - leastExponent).toNat
  let shift := min (52 - b.mantissa.log2) room
  { b with mantissa := b.mantissa <<< shift, exponent := b.exponent - shift }

/-- **The number with a given exact value.** The value has to be one that a number can hold: a mantissa
below `2 ^ 53` on the finest grid or a coarser one. -/
def toFloat (b : Binary) : Float :=
  let n := b.normalize
  let magnitude :=
    if n.mantissa < leadingBit then n.mantissa
    else (n.exponent + 1075).toNat * leadingBit + (n.mantissa - leadingBit)
  Float.ofBits (((if b.negative then signBit else 0) + magnitude : Nat).toUInt64)

def whole (b : Binary) : Nat :=
  match b.exponent with
  | .ofNat e => b.mantissa <<< e
  | .negSucc e => b.mantissa >>> (e + 1)

def isWhole (b : Binary) : Bool :=
  match b.exponent with
  | .ofNat _ => true
  | .negSucc e => b.mantissa % Nat.pow 2 (e + 1) == 0

end Binary

/-- A whole number beyond every finite one. It stands for the whole part of an infinite number, which no
length reaches. -/
def beyond : Int := ((Nat.pow 2 1024 : Nat) : Int)

/-- **The whole part of a number**: what is left when the digits after the point are dropped. -/
def wholePart (x : Float) : Int :=
  match Binary.ofFloat? x with
  | some b => if b.negative then -(b.whole : Int) else b.whole
  | none => if x < 0 then -beyond else beyond

/-- **The position that a number names**, if it is a whole number that is not negative. Both zeros name
the first position. -/
def index? (x : Float) : Option Nat :=
  match Binary.ofFloat? x with
  | some b => if b.isWhole && (!b.negative || b.mantissa == 0) then some b.whole else none
  | none => none

/-- The remainder of two exact values, the second not zero: both are brought to the finer of the two
grids, where the remainder of the magnitudes is one of natural numbers. It takes the sign of the
dividend. -/
def Binary.remainder (a b : Binary) : Binary :=
  let grid := min a.exponent b.exponent
  let dividend := a.mantissa <<< (a.exponent - grid).toNat
  let divisor := b.mantissa <<< (b.exponent - grid).toNat
  ⟨a.negative, dividend % divisor, grid⟩

def notANumber : Float := 0.0 / 0.0

/-- **The remainder of a division that rounds toward zero.** It is exact. There is none for an infinite
dividend or for the divisor zero, and an infinite divisor leaves the dividend as it is. -/
def remainder (x y : Float) : Float :=
  if x.isNaN || y.isNaN then notANumber
  else
    match Binary.ofFloat? x, Binary.ofFloat? y with
    | some a, some b => if b.mantissa == 0 then notANumber else (a.remainder b).toFloat
    | some _, none => x
    | none, _ => notANumber

end Trellis.Number
