import Trellis.Library.Builtin
import Trellis.Number.Decimal
import Trellis.Text.Quoted
import Trellis.Value.Fields

/-!
# The heap

What values refer to lives on the heap: the elements of arrays, the fields of objects, functions, built-in
functions, and the instants that functions on dates speak of. Nothing is ever removed from it, so a
reference that was valid once stays valid.

The text of a value depends on the heap, since an array is shown by its elements.
-/

namespace Trellis

structure Heap where
  arrays : Array (Array Value) := #[]
  objects : Array (Fields Value) := #[]
  functions : Array Closure := #[]
  builtins : Array Builtin := #[]
  /-- The instants that functions on dates speak of, in milliseconds. -/
  anchors : Array Int := #[]

namespace Heap

/-! ## Reading and writing -/

def elements (h : Heap) (ref : Ref) : Array Value :=
  (h.arrays[ref]?).getD #[]

def fields (h : Heap) (ref : Ref) : Fields Value :=
  (h.objects[ref]?).getD {}

@[inline] def modifyArray (h : Heap) (ref : Ref) (f : Array Value → Array Value) : Heap :=
  { h with arrays := h.arrays.modify ref f }

@[inline] def modifyObject (h : Heap) (ref : Ref) (f : Fields Value → Fields Value) : Heap :=
  { h with objects := h.objects.modify ref f }

def newArray (h : Heap) (elements : Array Value) : Value × Heap :=
  (.array h.arrays.size, { h with arrays := h.arrays.push elements })

def newObject (h : Heap) (fields : Fields Value) : Value × Heap :=
  (.object h.objects.size, { h with objects := h.objects.push fields })

def newFunction (h : Heap) (f : Closure) : Value × Heap :=
  (.function h.functions.size, { h with functions := h.functions.push f })

def newBuiltin (h : Heap) (b : Builtin) : Value × Heap :=
  (.builtin h.builtins.size, { h with builtins := h.builtins.push b })

def newAnchor (h : Heap) (instant : Int) : Ref × Heap :=
  (h.anchors.size, { h with anchors := h.anchors.push instant })

def newBuiltins (h : Heap) : List Builtin → List (String × Value) × Heap
  | [] => ([], h)
  | b :: rest =>
    let (v, h) := h.newBuiltin b
    let (exports, h) := h.newBuiltins rest
    ((b.name, v) :: exports, h)

/-! ## Edits -/

inductive Edit where
  /-- Append to the elements of an array. -/
  | append (ref : Ref) (values : List Value)
  /-- Drop the last element of an array, if there is one. -/
  | dropLast (ref : Ref)
  /-- Put a value in place of an element. -/
  | setElement (ref : Ref) (i : Nat) (v : Value)
  /-- Give a field of an object a value. -/
  | setField (ref : Ref) (name : String) (v : Value)

def apply (h : Heap) : Edit → Heap
  | .append ref values => h.modifyArray ref fun a => values.foldl Array.push a
  | .dropLast ref => h.modifyArray ref Array.pop
  | .setElement ref i v => h.modifyArray ref fun a => a.setIfInBounds i v
  | .setField ref name v => h.modifyObject ref fun fields => fields.insert name v

inductive Reply where
  | value (v : Value)
  | array (elements : Array Value)
  /-- A value, and an edit on the way. -/
  | edited (v : Value) (e : Edit)

def take (h : Heap) : Reply → Value × Heap
  | .value v => (v, h)
  | .array elements => h.newArray elements
  | .edited v e => (v, h.apply e)

/-! ## Kinds and texts -/

def tag (h : Heap) : Value → Tag
  | .number _ => .number
  | .text _ => .text
  | .bool _ => .boolean
  | .nil => .nil
  | .nan => .nan
  | .array _ => .array
  | .object _ => .object
  | .range _ _ => .range
  | .function ref =>
    match (h.functions[ref]?).map Closure.kind with
    | some .task => .taskFunction
    | some .lambda => .lambda
    | _ => .function
  | .builtin _ => .function
  | .module _ => .module
  | .task _ => .task

def numberText (x : Float) : String :=
  Number.text "Infinity" x

def functionText (h : Heap) (ref : Ref) : String :=
  match h.functions[ref]? with
  | some f =>
    match f.kind with
    | .plain => "[[Function " ++ f.name ++ "]]"
    | .task => "[[Task " ++ f.name ++ "]]"
    | .lambda => "[[Lambda]]"
  | none => ""

def builtinText (h : Heap) (ref : Ref) : String :=
  match h.builtins[ref]? with
  | some b => "[[Function " ++ b.name ++ "]]"
  | none => ""

/-- The text of a value that is nested to the given depth at most. Texts inside of others are quoted. -/
def textTo (h : Heap) : Nat → Value → String
  | 0, _ => ""
  | depth + 1, v =>
    let nested (v : Value) : String :=
      match v with
      | .text s => Text.quote s
      | other => h.textTo depth other
    match v with
    | .number x => numberText x
    | .text s => s
    | .bool b => if b then "true" else "false"
    | .nil => "nil"
    | .nan => "NaN"
    | .array ref => "[" ++ ", ".intercalate ((h.elements ref).toList.map nested) ++ "]"
    | .object ref =>
      let entries := (h.fields ref).entries.map fun (name, v) => name ++ ": " ++ nested v
      "\x7b" ++ ", ".intercalate entries ++ "\x7d"
    | .range first last => numberText first ++ ".." ++ numberText last
    | .function ref => h.functionText ref
    | .builtin ref => h.builtinText ref
    | .module _ => "[[Environment]]"
    | .task _ => "[[Task]]"

/-- **The text of a value.** A value that does not hold itself is nested no deeper than there are arrays
and objects. -/
def text (h : Heap) (v : Value) : String :=
  h.textTo (h.arrays.size + h.objects.size + 1) v

end Heap

end Trellis
