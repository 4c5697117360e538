import Trellis.Fault
import Trellis.Heap

/-!
# Operations on values

Arithmetic and comparison of values. The left operand of a plus decides whether texts are joined or
numbers are added; all other operators of arithmetic see every text as a number. Two texts are compared by
their characters, and a text and a number as numbers.
-/

namespace Trellis

namespace Operation

def compute : Arithmetic → Float → Float → Float
  | .add, a, b => a + b
  | .subtract, a, b => a - b
  | .multiply, a, b => a * b
  | .divide, a, b => a / b
  | .remainder, a, b => Number.remainder a b

def adds : Value → Bool
  | .number _ => true
  | .nan => true
  | _ => false

def arithmeticOnNumbers (h : Heap) (operator : Arithmetic) (left right : Value) : Except Cause Value :=
  match left.toNumber?, right.toNumber? with
  | some a, some b => .ok (.ofFloat (compute operator a b))
  | _, _ => .error (.badOperands operator (h.tag left) (h.tag right))

def arithmetic (h : Heap) (operator : Arithmetic) (left right : Value) : Except Cause Value :=
  match operator, left with
  | .add, .text s => .ok (.text (s ++ h.text right))
  | .add, left =>
    if adds left then arithmeticOnNumbers h .add left right
    else .error (.badOperands .add (h.tag left) (h.tag right))
  | operator, left => arithmeticOnNumbers h operator left right

def orderTexts (a b : String) : Ordering :=
  if a < b then .lt else if a == b then .eq else .gt

def orderNumbers? (a b : Float) : Option Ordering :=
  if a < b then some .lt else if a == b then some .eq else if a > b then some .gt else none

def isNumeric : Value → Bool
  | .number _ => true
  | .nan => true
  | _ => false

/-- How two values are ordered, if they are. It is a fault to ask for values that cannot be. -/
def order? (left right : Value) : Option (Option Ordering) :=
  match left, right with
  | .text a, .text b => some (some (orderTexts a b))
  | left, right =>
    if isNumeric left || isNumeric right then
      match left.toNumber?, right.toNumber? with
      | some a, some b => some (orderNumbers? a b)
      | _, _ => none
    else none

def satisfies : Comparison → Ordering → Bool
  | .less, o => o == .lt
  | .lessEqual, o => o != .gt
  | .greater, o => o == .gt
  | .greaterEqual, o => o != .lt

/-- **Comparison of values.** Values that are not ordered satisfy no operator. -/
def compare (h : Heap) (operator : Comparison) (left right : Value) : Except Cause Value :=
  match order? left right with
  | none => .error (.incomparable operator (h.tag left) (h.tag right))
  | some none => .ok (.bool false)
  | some (some o) => .ok (.bool (satisfies operator o))

end Operation

end Trellis
