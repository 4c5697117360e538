import Trellis.Number.Binary
import Trellis.Number.Reading
import Trellis.Script
import Trellis.Text.Blank
import Trellis.Value.Tag

/-!
# Values

The values that a script computes with. Numbers, texts, booleans, ranges and the two special values are
what they are. Arrays, objects, functions, modules and tasks have an identity: such a value is a
*reference* to a thing that lives elsewhere, and two of them are equal if they refer to the same thing.
-/

namespace Trellis

/-- A reference to something on the heap. -/
abbrev Ref := Nat

/-- A reference to a scope. -/
abbrev ScopeId := Nat

/-- A reference to a task. -/
abbrev TaskId := Nat

inductive Value where
  /-- A number. It is never the one that is not a number, which is a value of its own. -/
  | number (x : Float)
  | text (s : String)
  | bool (b : Bool)
  | nil
  | nan
  | array (ref : Ref)
  | object (ref : Ref)
  | range (first last : Float)
  | function (ref : Ref)
  | builtin (ref : Ref)
  | module (scope : ScopeId)
  | task (id : TaskId)

/-- How a function was made. -/
inductive FunctionKind where
  | plain
  | task
  | lambda
deriving DecidableEq, Repr

/-- **A function of a script**, with the scope in which it was made. -/
structure Closure where
  kind : FunctionKind
  name : String
  params : List String
  body : Block
  scope : ScopeId

namespace Value

def ofFloat (x : Float) : Value :=
  if x.isNaN then nan else number x

def ofNat (n : Nat) : Value :=
  number (Float.ofNat n)

def isCallable : Value → Bool
  | function _ => true
  | builtin _ => true
  | _ => false

/-- **The number that arithmetic sees in a value.** A blank text is zero, and a text that reads as no
number is not a number. -/
def toNumber? : Value → Option Float
  | number x => some x
  | nan => some Number.notANumber
  | text s =>
    let trimmed := Text.trim s
    if trimmed == "" then some 0.0
    else some ((Number.read? trimmed).getD Number.notANumber)
  | _ => none

/-- **Equality of kind and content.** What is not a number is equal to nothing. -/
def same : Value → Value → Bool
  | number a, number b => a == b
  | text a, text b => a == b
  | bool a, bool b => a == b
  | nil, nil => true
  | range a b, range c d => a == c && b == d
  | array a, array b => a == b
  | object a, object b => a == b
  | function a, function b => a == b
  | builtin a, builtin b => a == b
  | module a, module b => a == b
  | task a, task b => a == b
  | _, _ => false

def textReads (s : String) (x : Float) : Bool :=
  match Number.read? (Text.trim s) with
  | some y => y == x
  | none => false

/-- **Equality as the language has it**: that of kind and content, and that of a number and a text that
reads as it. -/
def equal : Value → Value → Bool
  | number x, text s => textReads s x
  | text s, number x => textReads s x
  | a, b => same a b

end Value

end Trellis
