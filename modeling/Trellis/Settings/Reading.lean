import Trellis.Json
import Trellis.Keywords
import Trellis.Settings

/-!
# Reading settings and spellings

Settings are an object of which each known field may appear once, or a list of the fields in their order;
what is not mentioned keeps its default and unknown fields are passed over. Spellings of keywords are an
object from canonical names to texts.
-/

namespace Trellis

namespace Settings

/-- The value of a field that may appear at most once: `none` if it is repeated, `some none` if it is
absent. -/
def field? (fields : List (String × Json)) (name : String) : Option (Option Json) :=
  match fields.filter (·.1 == name) with
  | [] => some none
  | [(_, value)] => some (some value)
  | _ => none

/-- The limit of lenient matching: a field of an object, or the one item of a list. -/
def limit? : Json → Option Nat
  | .list [item] => item.size?
  | document => do
    let value ← field? (← document.fields?) "limit"
    (← value).size?

def matching? : Json → Option MatchMode
  | .text value => if value == some "strict" then some .strict else none
  | .object [(some "strict", .null)] => some .strict
  | .object [(some "scan", value)] => (limit? value).map .lenient
  | _ => none

def decodeOr {α : Type} (decode : Json → Option α) (default : α) : Option Json → Option α
  | some document => decode document
  | none => some default

def ofFields? (extension mark matching : Option Json) : Option Settings := do
  let defaults : Settings := {}
  return {
    moduleExtension := ← decodeOr Json.text? defaults.moduleExtension extension
    builtinMark := ← decodeOr Json.text? defaults.builtinMark mark
    matching := ← decodeOr matching? defaults.matching matching }

def ofJson? : Json → Option Settings
  | .list items =>
    if items.length ≤ 3 then ofFields? items[0]? items[1]? items[2]? else none
  | document => do
    let fields ← document.fields?
    ofFields? (← field? fields "module_extension") (← field? fields "builtin_prefix")
      (← field? fields "match_mode")

def read? (text : String) : Option Settings :=
  (Json.read? text).bind ofJson?

end Settings

namespace KeywordTable

def overrides? (document : Json) : Option (List (String × String)) := do
  (← document.fields?).mapM fun (name, value) => value.text?.map fun spelling => (name, spelling)

def read? (text : String) : Option KeywordTable := do
  return ofOverrides (← overrides? (← Json.read? text))

end KeywordTable

end Trellis
