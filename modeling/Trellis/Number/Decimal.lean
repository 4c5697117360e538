import Trellis.Number.Binary

/-!
# Decimal text of numbers

A number is written with the fewest digits that read back as the same number. The reals that read back as
a given number form an interval around it, half a unit wide on each side, and its ends belong to it when
the mantissa is even. A decimal grid `10 ^ g` offers two candidates, the neighbours of the number on that
grid; the coarsest grid on which a candidate falls into the interval gives the fewest digits. Of two
candidates the nearer one is taken, and of two equally near ones the larger.

All comparisons are made on natural numbers: interval and grid are scaled by a common factor that clears
the powers of two and ten from the denominators.
-/

namespace Trellis.Number

structure Decimal where
  digits : Nat
  exponent : Int
deriving DecidableEq

/-- **The interval of a positive number**, in quarters of a unit of its grid `2 ^ exponent`. Quarters are
fine enough, since below a power of two the unit is half as wide. -/
structure Interval where
  low : Nat
  middle : Nat
  high : Nat
  exponent : Int
  /-- Do the ends belong to the interval? -/
  closed : Bool

namespace Interval

/-- The interval of the reals that read back as the number `mantissa · 2 ^ exponent`. -/
def ofBinary (b : Binary) : Interval :=
  let below := if b.mantissa == leadingBit && b.exponent != leastExponent then 1 else 2
  { low := 4 * b.mantissa - below
    middle := 4 * b.mantissa
    high := 4 * b.mantissa + 2
    exponent := b.exponent - 2
    closed := b.mantissa % 2 == 0 }

/-- Is the scaled point inside the interval with the scaled ends? -/
def admits (i : Interval) (low high point : Nat) : Bool :=
  if i.closed then low ≤ point && point ≤ high else low < point && point < high

/-- **The better neighbour on a grid**, if one falls into the interval. -/
def onGrid? (i : Interval) (g : Int) : Option Nat :=
  let scale := Nat.pow 2 i.exponent.toNat * Nat.pow 10 (-g).toNat
  let unit := Nat.pow 10 g.toNat * Nat.pow 2 (-i.exponent).toNat
  let middle := i.middle * scale
  let inside := fun d => i.admits (i.low * scale) (i.high * scale) (d * unit)
  let down := middle / unit
  match inside down, inside (down + 1) with
  | true, true => some (if middle - down * unit < (down + 1) * unit - middle then down else down + 1)
  | true, false => some down
  | false, true => some (down + 1)
  | false, false => none

def search (i : Interval) (g : Int) : Nat → Decimal
  | 0 => ⟨(i.onGrid? g).getD 0, g⟩
  | steps + 1 =>
    match i.onGrid? g with
    | some d => ⟨d, g⟩
    | none => i.search (g - 1) steps

end Interval

/-- Drop zeros from the end of the digits, at most as many as there are digits. -/
def Decimal.trimZeros : Nat → Decimal → Decimal
  | 0, d => d
  | fuel + 1, d =>
    if d.digits != 0 && d.digits % 10 == 0 then trimZeros fuel ⟨d.digits / 10, d.exponent + 1⟩ else d

/-- A decimal exponent above that of a positive number: `1233 / 4096` is the logarithm of two, and one
more covers the rounding. -/
def Binary.decimalCeiling (b : Binary) : Int :=
  ((b.mantissa.log2 : Int) + 1 + b.exponent) * 1233 / 4096 + 1

/-- **The fewest digits that read back as a positive number.** Twenty grids are enough: seventeen digits
tell all numbers apart, and the first grid lies at most two places above the first digit. -/
def Binary.shortest (b : Binary) : Decimal :=
  if b.mantissa == 0 then ⟨0, 0⟩
  else ((Interval.ofBinary b).search b.decimalCeiling 20).trimZeros 20

namespace Decimal

def natDigits (n : Nat) : List Char :=
  Nat.toDigits 10 n

/-- Written out in full: the digits before the point and, if there are any, those after it. -/
def positional (d : Decimal) : List Char × List Char :=
  let ds := natDigits d.digits
  match d.exponent with
  | .ofNat e => (ds ++ List.replicate (if d.digits == 0 then 0 else e) '0', [])
  | .negSucc e =>
    let places := e + 1
    if places < ds.length then (ds.take (ds.length - places), ds.drop (ds.length - places))
    else (['0'], List.replicate (places - ds.length) '0' ++ ds)

/-- The digits with a point after the first one, and the power of ten that goes with them. -/
def scientific (d : Decimal) : List Char × List Char × Int :=
  match natDigits d.digits with
  | [] => (['0'], [], 0)
  | first :: rest => ([first], rest, d.exponent + rest.length)

end Decimal

/-- Join the parts before and after a point; without a part after it there is no point. -/
def joinPoint (before after : List Char) : List Char :=
  if after.isEmpty then before else before ++ '.' :: after

def magnitudeText (b : Binary) : String :=
  let (before, after) := b.shortest.positional
  String.ofList (joinPoint before after)

/-- **The text of a number**: written out in full, with the sign of a negative zero, and with a name for
the infinite numbers that the caller chooses. -/
def text (infinity : String) (x : Float) : String :=
  if x.isNaN then "NaN"
  else
    match Binary.ofFloat? x with
    | some b => (if b.negative then "-" else "") ++ magnitudeText b
    | none => (if x < 0 then "-" else "") ++ infinity

def intText : Int → String
  | .ofNat n => String.ofList (Decimal.natDigits n)
  | .negSucc n => "-" ++ String.ofList (Decimal.natDigits (n + 1))

/-- **The text of a number in a listing of tokens**: a number without places shows one zero after the
point, and very large and very small ones are written with a power of ten. -/
def listingText (x : Float) : String :=
  match Binary.ofFloat? x with
  | none => text "inf" x
  | some b =>
    let sign := if b.negative then "-" else ""
    let size := x.abs
    if b.mantissa == 0 || (1e-4 ≤ size && size < 1e16) then
      let (before, after) := b.shortest.positional
      sign ++ String.ofList (joinPoint before (if after.isEmpty then ['0'] else after))
    else
      let (before, after, power) := b.shortest.scientific
      sign ++ String.ofList (joinPoint before after) ++ "e" ++ intText power

end Trellis.Number
