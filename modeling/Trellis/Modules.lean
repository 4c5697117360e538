import Trellis.Fault
import Trellis.Value

/-!
# Modules

A module is evaluated once and kept. While a module is being evaluated it is marked as loading, and using
it then is a fault: its file would have to be evaluated before it has been.
-/

namespace Trellis

inductive ModuleKey where
  | builtin (name : String)
  | file (path : Path)

namespace ModuleKey

/-- Files are the same if their paths are. -/
instance : BEq ModuleKey where
  beq
    | builtin a, builtin b => a == b
    | file a, file b => a == b
    | _, _ => false

def describe : ModuleKey → String
  | builtin name => name
  | file path => path.text

end ModuleKey

structure ModuleTable where
  /-- The roots of the modules that were evaluated. -/
  loaded : List (ModuleKey × ScopeId) := []
  /-- The modules that are being evaluated. -/
  loading : List ModuleKey := []

namespace ModuleTable

def root? (t : ModuleTable) (key : ModuleKey) : Option ScopeId :=
  (t.loaded.find? (·.1 == key)).map (·.2)

def isLoading (t : ModuleTable) (key : ModuleKey) : Bool :=
  t.loading.contains key

def start (t : ModuleTable) (key : ModuleKey) : Except Fault ModuleTable :=
  if t.isLoading key then .error (.managing (.cyclicImport key.describe))
  else .ok { t with loading := key :: t.loading }

/-- Take away the mark of a module that is not evaluated any more. -/
def abandon (t : ModuleTable) (key : ModuleKey) : ModuleTable :=
  { t with loading := t.loading.filter fun other => !(other == key) }

def finish (t : ModuleTable) (key : ModuleKey) (root : ScopeId) : ModuleTable :=
  let t := t.abandon key
  { t with loaded := (key, root) :: t.loaded }

end ModuleTable

end Trellis
