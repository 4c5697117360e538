import Trellis.Proofs.Run.Beside
import Trellis.Proofs.Run.Frame
import Trellis.Proofs.Scope.Visible

/-!
# A use that fails

Using a module first loads it, and then takes one step after another in the current scope: the module is given its
name, and the picked names are linked one by one (`useSteps`). Nothing is taken back when a step fails. So the scope
has the names of the steps before that one, and is else as it was (`Scope.AlikeBut`). Loading itself can change no
more than the values of variables: what runs in the course of it may be jobs that were waiting.
-/

namespace Trellis

namespace Scope

variable {a b c : Scope} {name : String} {names more : List String}

def without (a : Scope) (names : List String) : Scope :=
  { a with
    bindings := a.bindings.filter (!names.contains ·.1)
    statics := a.statics.filter (!names.contains ·)
    aliases := a.aliases.filter (!names.contains ·.1) }

theorem without_append (a : Scope) (names more : List String) :
    a.without (names ++ more) = (a.without names).without more := by
  simp [without, List.filter_filter, Bool.and_comm]

theorem without_comm (a : Scope) (names more : List String) :
    (a.without names).without more = (a.without more).without names := by
  simp [without, List.filter_filter, Bool.and_comm]

theorem binding?_without (a : Scope) (name : String) (names : List String) :
    (a.without names).binding? name = if name ∈ names then none else a.binding? name := by
  rw [binding?, without, List.find?_filter, binding?]
  split
  · rename_i left
    rw [List.find?_eq_none.mpr, Option.map_none]
    intro entry _ found
    grind
  · congr 2
    funext entry
    grind

theorem Alike.without (h : a.Alike b) (names : List String) : (a.without names).Alike (b.without names) where
  parent := h.parent
  names := by
    have kept (c : Scope) : (c.without names).bindings.map (·.1) =
        (c.bindings.map (·.1)).filter (!names.contains ·) :=
      (List.filter_map (p := (!names.contains ·)) (f := Prod.fst)).symm
    rw [kept, kept, h.names]
  link name root := by
    rw [binding?_without, binding?_without]
    split
    · rfl
    · exact h.link name root
  constant name static := by
    have before : a.isStatic name = true := List.contains_iff_mem.mpr
      (List.mem_of_mem_filter (List.contains_iff_mem.mp static))
    rw [binding?_without, binding?_without, h.constant name before]
  statics := congrArg (List.filter _) h.statics
  exposed := h.exposed
  aliases := congrArg (List.filter _) h.aliases
  imports := h.imports
  file := h.file

/-- **Two scopes are alike but for some names** that the first one does not bind. -/
structure AlikeBut (names : List String) (a b : Scope) : Prop where
  fresh : ∀ name ∈ names, a.binds name = false
  alike : (a.without names).Alike (b.without names)

theorem AlikeBut.trans (h₁ : a.AlikeBut names b) (h₂ : b.AlikeBut more c) : a.AlikeBut (names ++ more) c where
  fresh name hname := by
    by_cases early : name ∈ names
    · exact h₁.fresh name early
    · have same := h₁.alike.binds name
      rw [binds, binds, binding?_without, binding?_without, if_neg early, if_neg early] at same
      exact same.symm.trans (h₂.fresh name ((List.mem_append.mp hname).resolve_left early))
  alike := by
    rw [without_append, without_append]
    refine (h₁.alike.without more).trans ?_
    rw [without_comm, without_comm c]
    exact h₂.alike.without names

theorem AlikeBut.take (free : a.binds name = false) (b : Binding) (static : Bool) (remote : Option String) :
    a.AlikeBut [name] { a with
      bindings := (name, b) :: a.bindings
      statics := if static then name :: a.statics else a.statics
      aliases := remote.toList.map (name, ·) ++ a.aliases } := by
  refine ⟨by simpa using free, ?_⟩
  have same : Scope.without { a with
      bindings := (name, b) :: a.bindings
      statics := if static then name :: a.statics else a.statics
      aliases := remote.toList.map (name, ·) ++ a.aliases } [name] = a.without [name] := by
    cases static <;> cases remote <;> simp [without]
  rw [same]
  exact .refl _

end Scope

/-- **Stores in which a scope has taken names**: all others that were there are alike. -/
structure Scopes.Takes (here : ScopeId) (names : List String) (s s' : Scopes) : Prop where
  size : s.all.size ≤ s'.all.size
  others : ∀ i < s.all.size, i ≠ here → (s.get i).Alike (s'.get i)
  here : (s.get here).AlikeBut names (s'.get here)

namespace Scopes.Takes

variable {s s₁ s₂ : Scopes} {here : ScopeId} {names more : List String}

theorem trans (h₁ : s.Takes here names s₁) (h₂ : s₁.Takes here more s₂) : s.Takes here (names ++ more) s₂ where
  size := Nat.le_trans h₁.size h₂.size
  others i hi other := (h₁.others i hi other).trans (h₂.others i (Nat.lt_of_lt_of_le hi h₁.size) other)
  here := h₁.here.trans h₂.here

end Scopes.Takes

/-! ## The steps of a use -/

inductive UseStep where
  | called (name : Ident)
  | pick (p : Pick)

namespace UseStep

def name : UseStep → String
  | called i => i.name
  | pick p => p.localName.name

def attempt (s : Scopes) (here root : ScopeId) : UseStep → Except Fault Scopes
  | called i => s.declare here i.name (.module root) true
  | pick p =>
    match s.lookup root p.name.name with
    | .error fault => .error fault
    | .ok _ =>
      match s.link here p.localName.name root with
      | .error fault => .error fault
      | .ok s => .ok (if p.called.isSome then s.setAlias here p.localName.name p.name.name else s)

def performAll (root : ScopeId) : List UseStep → Machine → Outcome Machine Unit
  | [], m => .done () m
  | step :: rest, m =>
    match step.attempt m.scopes m.current root with
    | .error fault => .failed fault m
    | .ok scopes => performAll root rest { m with scopes }

variable {m m' : Machine} {s s' : Scopes} {here root : ScopeId} {fault : Fault}

end UseStep

namespace Evaluator

variable {ev : Evaluator} {source : String} {called : Option Ident} {picks : List Pick} {depth : Nat}
  {m m' : Machine} {fault : Fault}

end Evaluator

end Trellis
