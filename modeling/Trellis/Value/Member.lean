import Trellis.Fault
import Trellis.Heap
import Trellis.Text.Case
import Trellis.Text.Search

/-!
# Members

Texts, arrays and objects have properties that can be read and methods that can be called. Positions in a
text count its characters.
-/

namespace Trellis

namespace Member

def charAt? (s : String) (i : Nat) : Option Value :=
  (s.toList[i]?).map fun c => .text (String.singleton c)

def read (h : Heap) (receiver key : Value) : Except MemberFault Value :=
  let refused : Except MemberFault Value := .error (.unreadable (h.text key) (h.tag receiver))
  match receiver, key with
  | .text s, .text k => if k == "length" then .ok (.ofNat s.length) else refused
  | .array ref, .text k => if k == "length" then .ok (.ofNat (h.elements ref).size) else refused
  | .text s, .number x => .ok (((Number.index? x).bind (charAt? s)).getD .nil)
  | .array ref, .number x =>
    .ok (((Number.index? x).bind fun i => (h.elements ref)[i]?).getD .nil)
  | .object ref, key => .ok (((h.fields ref).get? (h.text key)).getD .nil)
  | _, _ => refused

/-! ## Arguments -/

/-- An argument that is the whole part of a number, if it is there and not nil. -/
def position? (h : Heap) (arguments : List Value) (i : Nat) (method : String) : Except MemberFault (Option Int) :=
  match arguments[i]? with
  | none => .ok none
  | some .nil => .ok none
  | some (.number x) => .ok (some (Number.wholePart x))
  | some other => .error (.notNumber method (h.tag other))

def textArgument (h : Heap) (arguments : List Value) (i : Nat) (method : String) : Except MemberFault String :=
  match arguments[i]? with
  | some (.text s) => .ok s
  | some other => .error (.notText method (h.tag other))
  | none => .error (.missingText method)

/-- A position within a length. Negative ones count from the end. -/
def clamp (i : Int) (length : Nat) : Nat :=
  if i < 0 then (length + i).toNat else min i.toNat length

def sliceBounds (h : Heap) (arguments : List Value) (length : Nat) (method : String) :
    Except MemberFault (Nat × Nat) := do
  let first := ((← position? h arguments 0 method).map fun i => clamp i length).getD 0
  let last := ((← position? h arguments 1 method).map fun i => clamp i length).getD length
  return (first, max last first)

/-! ## Methods -/

def positionOrNone : Option Nat → Value
  | some i => .ofNat i
  | none => .number (-1)

def replyOfText (h : Heap) (s name : String) (arguments : List Value) : Except MemberFault Heap.Reply := do
  match name with
  | "toUpperCase" => return .value (.text (Text.upper s))
  | "toLowerCase" => return .value (.text (Text.lower s))
  | "trim" => return .value (.text (Text.trim s))
  | "split" =>
    let separator ← textArgument h arguments 0 name
    let parts := Text.split separator.toList s.toList
    return .array (parts.map fun part => Value.text (String.ofList part)).toArray
  | "includes" =>
    let part ← textArgument h arguments 0 name
    return .value (.bool (Text.occurs part.toList s.toList))
  | "startsWith" =>
    let part ← textArgument h arguments 0 name
    return .value (.bool (part.toList.isPrefixOf s.toList))
  | "endsWith" =>
    let part ← textArgument h arguments 0 name
    return .value (.bool (part.toList.isSuffixOf s.toList))
  | "replace" =>
    let part ← textArgument h arguments 0 name
    let replacement := ((arguments[1]?).map h.text).getD ""
    return .value (.text (String.ofList
      (Text.replaceFirst part.toList replacement.toList s.toList)))
  | "indexOf" =>
    let part ← textArgument h arguments 0 name
    return .value (positionOrNone (Text.find? part.toList s.toList))
  | "slice" =>
    let (first, last) ← sliceBounds h arguments s.length name
    return .value (.text (String.ofList ((s.toList.drop first).take (last - first))))
  | "charAt" =>
    let i := (← position? h arguments 0 name).getD 0
    return .value (if i < 0 then .text "" else (charAt? s i.toNat).getD (.text ""))
  | _ => .error (.noMethod name .text)

def replyOfArray (h : Heap) (ref : Ref) (name : String) (arguments : List Value) : Except MemberFault Heap.Reply := do
  let elements := h.elements ref
  match name with
  | "push" =>
    return .edited (.ofNat (elements.size + arguments.length)) (.append ref arguments)
  | "pop" => return .edited ((elements.back?).getD .nil) (.dropLast ref)
  | "join" =>
    let separator :=
      match arguments.head? with
      | some (.text s) => s
      | _ => ","
    return .value (.text (separator.intercalate (elements.toList.map h.text)))
  | "includes" =>
    let sought := (arguments.head?).getD .nil
    return .value (.bool (elements.any fun v => v.same sought))
  | "indexOf" =>
    let sought := (arguments.head?).getD .nil
    return .value (positionOrNone (elements.findIdx? fun v => v.same sought))
  | "slice" =>
    let (first, last) ← sliceBounds h arguments elements.size name
    return .array (elements.extract first last)
  | _ => .error (.noMethod name .array)

def replyOfObject (h : Heap) (ref : Ref) (name : String) (arguments : List Value) : Except MemberFault Heap.Reply :=
  let fields := h.fields ref
  match name with
  | "keys" => .ok (.array (fields.names.map Value.text).toArray)
  | "values" => .ok (.array fields.values.toArray)
  | "has" => .ok (.value (.bool (fields.contains (((arguments.head?).map h.text).getD ""))))
  | _ => .error (.noMethod name .object)

/-- What the call of a method comes to that needs nothing but the heap. -/
def reply (h : Heap) (receiver : Value) (name : String) (arguments : List Value) : Except MemberFault Heap.Reply :=
  match receiver with
  | .text s => replyOfText h s name arguments
  | .array ref => replyOfArray h ref name arguments
  | .object ref => replyOfObject h ref name arguments
  | other => .error (.noMethod name (h.tag other))

/-- **Call a method of a value** that needs nothing but the heap. -/
def call (h : Heap) (receiver : Value) (name : String) (arguments : List Value) : Except MemberFault (Value × Heap) :=
  (reply h receiver name arguments).map h.take

/-- The edit that gives a property of a value a value. Arrays grow by one element at most. -/
def edit (h : Heap) (receiver key value : Value) : Except Cause Heap.Edit :=
  match receiver, key with
  | .object ref, key => .ok (.setField ref (h.text key) value)
  | .array ref, .number x =>
    match Number.index? x with
    | some i =>
      let length := (h.elements ref).size
      if i < length then .ok (.setElement ref i value)
      else if i == length then .ok (.append ref [value])
      else .error (.outOfBounds (min i (Number.wordLimit - 1)) length)
    | none => .error (.notAssignable (h.text key) (h.tag receiver))
  | _, _ => .error (.notAssignable (h.text key) (h.tag receiver))

def write (h : Heap) (receiver key value : Value) : Except Cause Heap :=
  (edit h receiver key value).map h.apply

end Member

end Trellis
