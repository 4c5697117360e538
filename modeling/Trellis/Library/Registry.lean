import Trellis.Heap

/-!
# Built-in modules

The built-in modules of a run are registered under names. A module is built anew every time it is asked
for: its functions are new things with an identity of their own, and a module of dates starts with the
present instant.
-/

namespace Trellis

inductive BuiltinModule where
  /-- The functions that every script can call. -/
  | global
  | files
  | paths
  | dates
  | values (exports : List (String × Value))

structure Registry where
  modules : List (String × BuiltinModule) := []

namespace Registry

def register (r : Registry) (name : String) (m : BuiltinModule) : Registry :=
  ⟨r.modules.filter (·.1 != name) ++ [(name, m)]⟩

def standard : Registry :=
  ⟨[("global", .global), ("io", .files), ("path", .paths), ("date", .dates)]⟩

def names (r : Registry) : List String :=
  (r.modules.map (·.1)).mergeSort (· ≤ ·)

def make (now : Int) (h : Heap) : BuiltinModule → List (String × Value) × Heap
  | .global => h.newBuiltins [.print]
  | .files => h.newBuiltins (FileFunction.all.map .file)
  | .paths => h.newBuiltins (PathFunction.all.map .path)
  | .dates =>
    let (anchor, h) := h.newAnchor now
    h.newBuiltins (DateFunction.all.map (.date anchor))
  | .values exports => (exports, h)

def build? (r : Registry) (name : String) (now : Int) (h : Heap) : Option (List (String × Value) × Heap) :=
  (r.modules.find? (·.1 == name)).map fun entry => make now h entry.2

/-- The documented functions of the standard modules, each with the name of its module. -/
def documented : List (String × String) :=
  [("global", "print")] ++ FileFunction.all.map (fun f => ("io", f.name)) ++
    PathFunction.all.map (fun f => ("path", f.name)) ++
    DateFunction.listed.map (fun f => ("date", f.name))

end Registry

end Trellis
