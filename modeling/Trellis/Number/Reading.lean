import Trellis.Number.Decimal

/-!
# Reading numbers

The text of a number is an optional sign, digits with an optional point among or beside them, and an
optional power of ten. At least one digit stands in front of the power, and at least one in it. The words
`inf`, `infinity` and `nan`, in any case, are numbers too. The value is the number nearest to the decimal.
-/

namespace Trellis.Number

def digitsValue (ds : List Char) : Nat :=
  ds.foldl (fun n c => 10 * n + (c.toNat - '0'.toNat)) 0

/-- The number nearest to `mantissa · 10 ^ exponent`. Since ten is more than eight, a power of ten whose
exponent is far from zero leads out of the range of numbers, and it is never computed. -/
def nearest (mantissa : Nat) (exponent : Int) : Float :=
  if mantissa == 0 || (mantissa.log2 : Int) + 1 + 3 * exponent < leastExponent - 1 then 0
  else if 3 * exponent > 1024 then 1.0 / 0.0
  else
    match exponent with
    | .ofNat e => Float.ofScientific mantissa false e
    | .negSucc e => Float.ofScientific mantissa true (e + 1)

def readSign : List Char → Bool × List Char
  | '+' :: rest => (false, rest)
  | '-' :: rest => (true, rest)
  | cs => (false, cs)

/-- The power of ten at the end of a number: none at all, or a mark and an integer. -/
def readPower? : List Char → Option Int
  | [] => some 0
  | c :: rest =>
    if c == 'e' || c == 'E' then
      let (negative, digits) := readSign rest
      if digits.isEmpty || !digits.all Char.isDigit then none
      else some (if negative then -(digitsValue digits : Int) else digitsValue digits)
    else none

def readPlaces : List Char → List Char × List Char
  | '.' :: rest => (rest.takeWhile Char.isDigit, rest.dropWhile Char.isDigit)
  | cs => ([], cs)

def readDecimal? (cs : List Char) : Option Float :=
  let before := cs.takeWhile Char.isDigit
  let (after, rest) := readPlaces (cs.dropWhile Char.isDigit)
  if before.isEmpty && after.isEmpty then none
  else
    (readPower? rest).map fun power =>
      nearest (digitsValue (before ++ after)) (power - after.length)

def readName? (cs : List Char) : Option Float :=
  let name := String.ofList (cs.map Char.toLower)
  if name == "inf" || name == "infinity" then some (1.0 / 0.0)
  else if name == "nan" then some notANumber
  else none

def read? (s : String) : Option Float :=
  let (negative, rest) := readSign s.toList
  let magnitude :=
    match readDecimal? rest with
    | some x => some x
    | none => readName? rest
  magnitude.map fun x => if negative then -x else x

/-- **Read a natural number** as it is typed in a command: an optional plus sign and digits, below
`2 ^ 64`. -/
def readNat? (s : String) : Option Nat :=
  let digits :=
    match s.toList with
    | '+' :: rest => rest
    | cs => cs
  if digits.isEmpty || !digits.all Char.isDigit then none
  else if digitsValue digits < wordLimit then some (digitsValue digits) else none

end Trellis.Number
