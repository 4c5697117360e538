import Trellis.Fault
import Trellis.Text.Quoted
import Trellis.Value

/-!
# Scopes

A scope binds names to values. Scopes are nested: what a scope does not bind, it takes from the scope
around it. The outermost scope of a module is its *root*. A root may *link* single names to the root of
another module, under a name of its own if it likes, and it may import all names that another module
*exposes*.

The scopes of a run live in one store and refer to each other by their place in it. A scope is made after
the one around it, so it stands behind it in the store.

A name is looked up in three steps, and the first one that applies decides: what the scope binds or links
itself, the first wholesale import that exposes the name, the scope around it.
-/

namespace Trellis

inductive Binding where
  | value (v : Value)
  /-- The name means what it, or its alias, means in a module. -/
  | link (root : ScopeId)

structure Scope where
  parent : Option ScopeId := none
  bindings : List (String × Binding) := []
  /-- The names that cannot be assigned to. -/
  statics : List String := []
  exposed : List String := []
  /-- For local names of links, the names in the module. -/
  aliases : List (String × String) := []
  /-- The modules of which all exposed names are imported, in order. -/
  imports : List ScopeId := []
  /-- The file that the code of the scope is in. -/
  file : Option Path := none

namespace Scope

def binding? (s : Scope) (name : String) : Option Binding :=
  (s.bindings.find? (·.1 == name)).map (·.2)

def binds (s : Scope) (name : String) : Bool :=
  (s.binding? name).isSome

def isStatic (s : Scope) (name : String) : Bool :=
  s.statics.contains name

def exposes (s : Scope) (name : String) : Bool :=
  s.exposed.contains name

def remoteName (s : Scope) (name : String) : String :=
  ((s.aliases.find? (·.1 == name)).map (·.2)).getD name

def bind (s : Scope) (name : String) (b : Binding) : Scope :=
  { s with bindings := (name, b) :: s.bindings }

def rebind (s : Scope) (name : String) (v : Value) : Scope :=
  { s with bindings := s.bindings.map fun entry =>
      if entry.1 == name then (name, .value v) else entry }

/-- Take away a binding. Its alias and its mark as a constant stay. -/
def unbind (s : Scope) (name : String) : Scope :=
  { s with
    bindings := s.bindings.filter (·.1 != name)
    exposed := s.exposed.filter (· != name) }

def expose (s : Scope) (name : String) : Scope :=
  if s.exposes name then s else { s with exposed := name :: s.exposed }

def exposedNames (s : Scope) : List String :=
  s.exposed.mergeSort (· ≤ ·)

/-- The values that the scope binds itself, in order of their names. -/
def localValues (s : Scope) : List (String × Value) :=
  (s.bindings.filterMap fun entry =>
    match entry.2 with
    | .value v => some (entry.1, v)
    | .link _ => none).mergeSort fun a b => a.1 ≤ b.1

end Scope

structure Scopes where
  all : Array Scope := #[]
  aliasCount : Nat := 0

/-- How the search for a name ends. -/
inductive Lookup where
  | found (v : Value)
  /-- The name, as it is called where the search ends, is not declared. -/
  | undeclared (name : String)
  | endless

namespace Scopes

def get (s : Scopes) (id : ScopeId) : Scope :=
  (s.all[id]?).getD {}

@[inline] def modify (s : Scopes) (id : ScopeId) (f : Scope → Scope) : Scopes :=
  { s with all := s.all.modify id f }

def addRoot (s : Scopes) (file : Option Path) : ScopeId × Scopes :=
  (s.all.size, { s with all := s.all.push { file } })

def addChild (s : Scopes) (parent : ScopeId) : ScopeId × Scopes :=
  let file := (s.get parent).file
  (s.all.size, { s with all := s.all.push { parent := some parent, file } })

def chain (s : Scopes) (id : ScopeId) : List ScopeId :=
  match (s.get id).parent with
  | some parent => if _h : parent < id then id :: chain s parent else [id]
  | none => [id]
termination_by id

def owner? (s : Scopes) (id : ScopeId) (name : String) : Option ScopeId :=
  (s.chain id).find? fun i => (s.get i).binds name

/-! ## Looking up -/

def search (s : Scopes) : Nat → ScopeId → String → Lookup
  | 0, _, _ => .endless
  | bound + 1, id, name =>
    let scope := s.get id
    match scope.binding? name with
    | some (.value v) => .found v
    | some (.link root) => s.search bound root (scope.remoteName name)
    | none =>
      match scope.imports.find? fun root => (s.get root).exposes name with
      | some root => s.search bound root name
      | none =>
        match scope.parent with
        | some parent => s.search bound parent name
        | none => .undeclared name

/-- The number of steps in which a search that does not go in a circle ends: it comes to a scope with one
name at most once, and every name but the first one is an alias. -/
def searchBound (s : Scopes) : Nat :=
  s.all.size * (s.aliasCount + 1) + 1

def lookup (s : Scopes) (id : ScopeId) (name : String) : Except Fault Value :=
  match s.search s.searchBound id name with
  | .found v => .ok v
  | .undeclared missing => .error (.notDeclared missing)
  | .endless => .error (.notDeclared name)

/-- **The names that mean something in a scope**, the nearest ones first. -/
def visibleNames (s : Scopes) (id : ScopeId) : List String :=
  (s.chain id).flatMap fun i =>
    let scope := s.get i
    scope.bindings.map (·.1) ++ scope.imports.flatMap fun root => (s.get root).exposedNames

/-! ## Changing -/

def addBinding (s : Scopes) (id : ScopeId) (name : String) (v : Value) (static : Bool) : Scopes :=
  s.modify id fun scope =>
    let bound := scope.bind name (.value v)
    if static then { bound with statics := name :: bound.statics } else bound

def declareFault? (s : Scopes) (id : ScopeId) (name : String) : Option Fault :=
  if (s.get id).binds name then some (.managing (.alreadyDeclared name)) else none

def declare (s : Scopes) (id : ScopeId) (name : String) (v : Value) (static : Bool) : Except Fault Scopes :=
  match s.declareFault? id name with
  | some fault => .error fault
  | none => .ok (s.addBinding id name v static)

/-- Declare constants in a scope, but for those that it binds already. -/
def declareConstants (s : Scopes) (id : ScopeId) : List (String × Value) → Scopes
  | [] => s
  | (name, v) :: rest =>
    match s.declare id name v true with
    | .ok s => s.declareConstants id rest
    | .error _ => s.declareConstants id rest

/-- The scope that takes the value when a name is assigned to: the innermost one that binds it. -/
def assignee (s : Scopes) (id : ScopeId) (name : String) : Except Fault ScopeId :=
  match s.owner? id name with
  | none => .error (.notDeclared name)
  | some owner =>
    let scope := s.get owner
    if scope.isStatic name then .error (.managing (.constantAssigned name))
    else
      match scope.binding? name with
      | some (.link _) => .error (.managing (.importAssigned name))
      | _ => .ok owner

def replace (s : Scopes) (id : ScopeId) (name : String) (v : Value) : Scopes :=
  s.modify id fun scope => scope.rebind name v

def assign (s : Scopes) (id : ScopeId) (name : String) (v : Value) : Except Fault Scopes :=
  match s.assignee id name with
  | .error fault => .error fault
  | .ok owner => .ok (s.replace owner name v)

def delete (s : Scopes) (id : ScopeId) (name : String) : Except Fault Scopes :=
  match s.owner? id name with
  | none => .error (.notDeclared name)
  | some owner =>
    if (s.get owner).isStatic name then .error (.managing (.constantDeleted name))
    else .ok (s.modify owner fun scope => scope.unbind name)

def importAll (s : Scopes) (id root : ScopeId) : Scopes :=
  s.modify id fun scope => { scope with imports := scope.imports ++ [root] }

/-- **Link a name to a module.** The name `*` stands for all exposed names. -/
def link (s : Scopes) (id : ScopeId) (name : String) (root : ScopeId) : Except Fault Scopes :=
  if name == "*" then .ok (s.importAll id root)
  else if (s.get id).binds name then .error (.managing (.alreadyDeclared name))
  else .ok (s.modify id fun scope => scope.bind name (.link root))

def setAlias (s : Scopes) (id : ScopeId) (name remote : String) : Scopes :=
  let s := s.modify id fun scope => { scope with aliases := (name, remote) :: scope.aliases }
  { s with aliasCount := s.aliasCount + 1 }

def expose (s : Scopes) (id : ScopeId) (name : String) : Scopes :=
  s.modify id fun scope => scope.expose name

def setFile (s : Scopes) (id : ScopeId) (file : Path) : Scopes :=
  s.modify id fun scope => { scope with file := some file }

/-- A scope in one line: the names it binds, its file, and whether it has a scope around it. -/
def summary (s : Scopes) (id : ScopeId) : String :=
  let scope := s.get id
  let names := ((scope.bindings.map (·.1)).mergeSort (· ≤ ·)).map Text.quote
  let file :=
    match scope.file with
    | some path => "Some(" ++ Text.quote path.text ++ ")"
    | none => "None"
  "Environment \x7b names: [" ++ ", ".intercalate names ++ "], file_path: " ++ file ++
    ", has_parent: " ++ (if scope.parent.isSome then "true" else "false") ++ " \x7d"

end Scopes

end Trellis
