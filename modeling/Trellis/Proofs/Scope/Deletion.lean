import Mathlib.Data.List.Permutation
import Trellis.Proofs.Scope.Operations

/-!
# What a deletion leaves behind

A name that was bound in a scope for the first time and is deleted again leaves the store as it was, unless it was given
an alias in between: the alias stays, and nothing else (`Scopes.performAll_delete`). It is looked at when the name is
linked in that scope again, and then the name means something else than it would otherwise.
-/

namespace Trellis

/-- **A name that a scope does not use**: it is not bound, not a constant and not exposed. -/
structure Scope.Unused (a : Scope) (name : String) : Prop where
  bindings : ∀ entry ∈ a.bindings, entry.1 ≠ name
  static : a.isStatic name = false
  exposed : name ∉ a.exposed

/-- **A name is bound in a scope**, to a value that can be deleted again or to a module. -/
inductive ScopeOperation.Binds (e : ScopeId) (n : String) : ScopeOperation → Prop where
  | declare (v : Value) : Binds e n (.declare e n v false)
  | link (root : ScopeId) (h : n ≠ "*") : Binds e n (.link e n root)

namespace Scopes

variable {s : Scopes} {e : ScopeId} {n : String}

theorem modify_modify (s : Scopes) (e : ScopeId) (f g : Scope → Scope) :
    (s.modify e f).modify e g = s.modify e (g ∘ f) := by
  refine congrArg (Scopes.mk · s.aliasCount) (Array.ext_getElem? fun i => ?_)
  simp only [modify, Array.getElem?_modify]
  split <;> simp

theorem modify_id (s : Scopes) (e : ScopeId) : s.modify e (fun a => a) = s := by
  refine congrArg (Scopes.mk · s.aliasCount) (Array.ext_getElem? fun i => ?_)
  rw [Array.getElem?_modify]
  split <;> simp

theorem modify_congr {f g : Scope → Scope} (h : f (s.get e) = g (s.get e)) : s.modify e f = s.modify e g := by
  refine congrArg (Scopes.mk · s.aliasCount) (Array.ext_getElem? fun i => ?_)
  rw [Array.getElem?_modify, Array.getElem?_modify]
  split
  · rename_i hi
    subst hi
    unfold get at h
    cases hget : s.all[e]? with
    | none => rfl
    | some scope =>
      rw [hget] at h
      exact congrArg some h
  · rfl

theorem unbind_bind {a : Scope} (unused : a.Unused n) (b : Binding) (aliases : List (String × String)) :
    Scope.unbind { a.bind n b with aliases } n = { a with aliases } := by
  have bindings : ((n, b) :: a.bindings).filter (·.1 != n) = a.bindings := by
    rw [List.filter_cons_of_neg (by simp), List.filter_eq_self.mpr fun entry h => bne_iff_ne.mpr (unused.bindings entry h)]
  have exposed : a.exposed.filter (· != n) = a.exposed :=
    List.filter_eq_self.mpr fun other h => bne_iff_ne.mpr fun same => unused.exposed (same ▸ h)
  simp only [Scope.unbind, Scope.bind, bindings, exposed]

theorem perform_binds {op : ScopeOperation} (h : op.Binds e n) (unused : (s.get e).Unused n) :
    ∃ b, s.perform op = s.modify e (·.bind n b) := by
  have free : (s.get e).binds n = false := by
    unfold Scope.binds Scope.binding?
    rw [List.find?_eq_none.mpr fun entry h => by simpa using unused.bindings entry h]
    rfl
  cases h with
  | declare v =>
    refine ⟨.value v, perform_of_ok ?_⟩
    simp only [attempt, declare, declareFault?, free]
    rfl
  | link root h =>
    refine ⟨.link root, perform_of_ok ?_⟩
    simp only [attempt, link, free, beq_eq_false_iff_ne.mpr h]
    rfl

theorem perform_delete (bound : (s.get e).binds n = true) (free : (s.get e).isStatic n = false) :
    s.perform (.delete e n) = s.modify e (·.unbind n) := by
  refine perform_of_ok ?_
  simp only [attempt, delete, owner?_eq_some_iff.mpr (.here bound), free]
  rfl

/-- **A deletion leaves no trace but the alias of the name**, if it was given one. Whatever is done later comes to what it
would come to if the name had not been bound, but given the alias only. -/
theorem performAll_delete (inside : e < s.all.size) (unused : (s.get e).Unused n) {op : ScopeOperation}
    (binds : op.Binds e n) (ops : List ScopeOperation) :
    s.performAll ([op, .delete e n] ++ ops) = s.performAll ops ∧
      ∀ remote, s.performAll ([op, .setAlias e n remote, .delete e n] ++ ops) =
        (s.setAlias e n remote).performAll ops := by
  obtain ⟨b, bound⟩ := perform_binds (s := s) binds unused
  have holds (aliases : List (String × String)) : Scope.binds { (s.get e).bind n b with aliases } n = true := by
    simp [Scope.binds, Scope.binding?, Scope.bind]
  constructor
  · refine congrArg (performAll · ops) (?_ : (s.perform op).perform (.delete e n) = s)
    have got : (s.modify e (·.bind n b)).get e = (s.get e).bind n b := get_modify_self _ inside
    rw [bound, perform_delete (by rw [got]; exact holds _) (by rw [got]; exact unused.static), modify_modify,
      modify_congr (g := fun a => a) (unbind_bind unused b _), modify_id]
  · intro remote
    refine congrArg (performAll · ops)
      (?_ : ((s.perform op).setAlias e n remote).perform (.delete e n) = s.setAlias e n remote)
    have given : (s.perform op).setAlias e n remote =
        { s.modify e fun a => { a.bind n b with aliases := (n, remote) :: a.aliases } with
          aliasCount := s.aliasCount + 1 } := by
      unfold setAlias
      rw [bound, modify_modify]
      rfl
    have got : ((s.perform op).setAlias e n remote).get e =
        { (s.get e).bind n b with aliases := (n, remote) :: (s.get e).aliases } := by
      rw [given]
      exact get_modify_self _ inside
    rw [perform_delete (by rw [got]; exact holds _) (by rw [got]; exact unused.static), given]
    have gone : (s.modify e fun a => { a.bind n b with aliases := (n, remote) :: a.aliases }).modify e (·.unbind n) =
        s.modify e fun a => { a with aliases := (n, remote) :: a.aliases } := by
      rw [modify_modify]
      exact modify_congr (unbind_bind unused b _)
    exact congrArg (fun t : Scopes => { t with aliasCount := s.aliasCount + 1 }) gone

def twoNames : Scopes where
  all := #[{}, {}, { bindings := [("n", .value (.text "n")), ("r", .value (.text "r"))] }]

theorem performAll_delete_linked :
    twoNames.performAll [.link 0 "n" 1, .delete 0 "n", .link 0 "n" 2] = twoNames.performAll [.link 0 "n" 2] :=
  have unused : (twoNames.get 0).Unused "n" := show Scope.Unused {} "n" from ⟨nofun, rfl, nofun⟩
  (performAll_delete (by decide) unused (.link 1 (by decide)) _).1

/-- **An alias outlives its name.** If the name is linked again, it means what the alias means. -/
theorem alias_outlives_name :
    (twoNames.performAll [.link 0 "n" 2]).lookup 0 "n" = .ok (.text "n") ∧
      (twoNames.performAll [.link 0 "n" 1, .setAlias 0 "n" "r", .delete 0 "n", .link 0 "n" 2]).lookup 0 "n" =
        .ok (.text "r") := by
  refine ⟨rfl, ?_⟩
  cbv

end Scopes

end Trellis
