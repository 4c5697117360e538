/-!
# Fields

The fields of an object are a map from names to values that remembers the order in which names came in.
A new value for a name takes the place of the old one, and a name that was removed comes in anew.
-/

namespace Trellis

structure Fields (α : Type) where
  entries : List (String × α) := []

namespace Fields

variable {α : Type}

def get? (f : Fields α) (name : String) : Option α :=
  (f.entries.find? (·.1 == name)).map (·.2)

def contains (f : Fields α) (name : String) : Bool :=
  (f.get? name).isSome

/-- Put a value in the place of the first one that the name has, or behind all others. -/
def put (name : String) (a : α) : List (String × α) → List (String × α)
  | [] => [(name, a)]
  | entry :: rest => if entry.1 == name then (name, a) :: rest else entry :: put name a rest

def insert (f : Fields α) (name : String) (a : α) : Fields α :=
  ⟨put name a f.entries⟩

def erase (f : Fields α) (name : String) : Fields α :=
  ⟨f.entries.eraseP (·.1 == name)⟩

def ofList (entries : List (String × α)) : Fields α :=
  entries.foldl (fun f entry => f.insert entry.1 entry.2) {}

def names (f : Fields α) : List String :=
  f.entries.map (·.1)

def values (f : Fields α) : List α :=
  f.entries.map (·.2)

def size (f : Fields α) : Nat :=
  f.entries.length

@[simp] theorem get?_insert_self (f : Fields α) (name : String) (a : α) : (f.insert name a).get? name = some a := by
  cases f with
  | mk entries =>
    induction entries with
    | nil => simp [insert, put, get?]
    | cons entry rest ih =>
      by_cases h : entry.1 = name
      · simp [insert, put, get?, h]
      · simpa [insert, put, get?, h, List.find?_cons] using ih

end Fields

end Trellis
