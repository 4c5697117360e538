import Trellis.Evaluation.Expression
import Trellis.Proofs.Scope.Visible

/-!
# Reading what was assigned

A reading looks at each scope outwards for a binding and then for a module of which all names are imported; an
assignment looks for bindings only. So the two part where a name is *imported in front* (`Scopes.ImportedFrom`): on
the way outwards a scope imports a module that exposes the name, and only behind it the name is bound. Then the
assignment succeeds, and the reading gives what the name is in the module. Everywhere else it gives the value that was
assigned (`Scopes.lookup_assign`).
-/

namespace Trellis

theorem Scope.Alike.exposes {a b : Scope} (h : a.Alike b) (name : String) : b.exposes name = a.exposes name := by
  rw [Scope.exposes, h.exposed, Scope.exposes]

namespace Scopes

variable {s s' : Scopes} {id i parent owner root : ScopeId} {name : String} {v : Value}

/-! ## Where a reading turns aside -/

def importer? (s : Scopes) (i : ScopeId) (name : String) : Option ScopeId :=
  (s.get i).imports.find? fun root => (s.get root).exposes name

/-- **A name is imported in front of all that bind it**: the first scope on the way outwards that binds the name or
imports it does not bind it, and imports it from the given module. -/
inductive ImportedFrom (s : Scopes) (name : String) (root : ScopeId) : ScopeId → Prop where
  | here {i : ScopeId} (free : (s.get i).binds name = false) (imported : s.importer? i name = some root) :
      ImportedFrom s name root i
  | outward {i parent : ScopeId} (free : (s.get i).binds name = false) (own : s.importer? i name = none)
      (around : (s.get i).parent = some parent) (next : ImportedFrom s name root parent) :
      ImportedFrom s name root i

theorem binding?_of_free (free : (s.get i).binds name = false) : (s.get i).binding? name = none :=
  Option.not_isSome_iff_eq_none.mp (ne_true_of_eq_false free)

theorem search_importer (free : (s.get i).binds name = false) (imported : s.importer? i name = some root)
    (bound : Nat) : s.search (bound + 1) i name = s.search bound root name := by
  rw [importer?] at imported
  simp only [search, binding?_of_free free, imported]

theorem search_around (free : (s.get i).binds name = false) (own : s.importer? i name = none)
    (around : (s.get i).parent = some parent) (bound : Nat) :
    s.search (bound + 1) i name = s.search bound parent name := by
  rw [importer?] at own
  simp only [search, binding?_of_free free, own, around]

theorem lookup_of_step (wf : WellFounded (flip s.Refers)) {next : ScopeId}
    (step : ∀ bound, s.search (bound + 1) i name = s.search bound next name) :
    s.lookup i name = s.lookup next name := by
  have enough : s.all.size < s.searchBound :=
    Nat.lt_succ_of_le (Nat.le_mul_of_pos_right _ (Nat.succ_pos _))
  have same : s.search s.searchBound i name = s.search s.searchBound next name := by
    rw [← search_of_le (search_ne_endless wf enough i name) (Nat.le_succ _), step]
  rw [lookup, same, lookup]

theorem ImportedFrom.lookup (wf : WellFounded (flip s.Refers)) (h : s.ImportedFrom name root i) :
    s.lookup i name = s.lookup root name := by
  induction h with
  | here free imported => exact lookup_of_step wf (search_importer free imported)
  | outward free own around _ ih => exact (lookup_of_step wf (search_around free own around)).trans ih

theorem ResolvesTo.lookup (wf : WellFounded (flip s.Refers)) (h : s.ResolvesTo name owner i)
    (value : (s.get owner).binding? name = some (.value v)) (own : ∀ root, ¬ s.ImportedFrom name root i) :
    s.lookup i name = .ok v := by
  induction h with
  | here bound => simp only [Scopes.lookup, searchBound, search, value]
  | @outward i parent free around before next ih =>
    have aside : s.importer? i name = none :=
      Option.eq_none_iff_forall_ne_some.mpr fun root imported => own root (.here free imported)
    rw [lookup_of_step wf (search_around free aside around)]
    exact ih fun root behind => own root (.outward free aside around behind)

/-! ## The store behind an assignment -/

section

variable (binds : ∀ i, (s'.get i).binds name = (s.get i).binds name)
  (parents : ∀ i, (s'.get i).parent = (s.get i).parent)

include binds parents

theorem ImportedFrom.transfer (importer : ∀ i, s'.importer? i name = s.importer? i name)
    (h : s.ImportedFrom name root i) : s'.ImportedFrom name root i := by
  induction h with
  | here free imported => exact .here ((binds _).trans free) ((importer _).trans imported)
  | outward free own around _ ih =>
    exact .outward ((binds _).trans free) ((importer _).trans own) ((parents _).trans around) ih

theorem ResolvesTo.transfer (h : s.ResolvesTo name owner i) : s'.ResolvesTo name owner i := by
  induction h with
  | here bound => exact .here ((binds _).trans bound)
  | outward free around before _ ih => exact .outward ((binds _).trans free) ((parents _).trans around) before ih

end

theorem Refers.of_replace {target : ScopeId} (h : (s.replace owner name v).Refers i target) : s.Refers i target := by
  unfold Refers replace at h
  rcases s.get_modify owner (fun scope => scope.rebind name v) i with ⟨-, changed⟩ | kept
  · rw [changed] at h
    exact h.imp_right fun linked => Scope.targets_rebind _ _ _ linked
  · rw [kept] at h
    exact h

theorem binding?_replace (v : Value) (h : s.ResolvesTo name owner i) :
    ((s.replace owner name v).get owner).binding? name = some (.value v) := by
  have bound : (s.get owner).binds name = true := by
    induction h with
    | here bound => exact bound
    | outward _ _ _ _ ih => exact ih
  have inside : owner < s.all.size := by
    refine Nat.lt_of_not_le fun outside => ?_
    rw [Scopes.get, Array.getElem?_eq_none outside] at bound
    cases bound
  obtain ⟨before, hbefore⟩ := Option.isSome_iff_exists.mp bound
  rw [replace, get_modify_self _ inside, Scope.binding?_rebind, if_pos rfl, hbefore]
  rfl

theorem resolvesTo_of_assignee (h : s.assignee i name = .ok owner) : s.ResolvesTo name owner i := by
  unfold assignee at h
  split at h
  · cases h
  · rename_i found
    dsimp only at h
    split at h
    · cases h
    · split at h <;> cases h
      exact owner?_eq_some_iff.mp found

/-- **What is read behind an assignment.** If the name is not imported in front of all that bind it, the value is read
that was assigned, also by code that assigns and reads where it runs. If it is, what is read is the name in the module
that it is imported from. -/
theorem lookup_assign (wf : WellFounded (flip s.Refers)) (h : s.assign id name v = .ok s') :
    ((∀ root, ¬ s.ImportedFrom name root id) → s'.lookup id name = .ok v ∧
      ∀ m : Machine, m.scopes = s → m.current = id →
        (Evaluator.assignName name v >>= fun _ => Evaluator.readName name) m = .done v { m with scopes := s' }) ∧
    ∀ root, s.ImportedFrom name root id → s'.lookup id name = s'.lookup root name := by
  unfold assign at h
  split at h
  · cases h
  · rename_i owner hassignee
    cases h
    have alike (i : ScopeId) : (s.get i).Alike ((s.replace owner name v).get i) :=
      (AlikeBelow.replace (n := i + 1) v hassignee).alike i (Nat.lt_succ_self i)
    have binds (i : ScopeId) := (alike i).binds name
    have parents (i : ScopeId) := (alike i).parent
    have importer (i : ScopeId) : (s.replace owner name v).importer? i name = s.importer? i name := by
      simp only [importer?, (alike _).imports, (alike _).exposes]
    have wf' : WellFounded (flip (s.replace owner name v).Refers) := Subrelation.wf Refers.of_replace wf
    refine ⟨fun own => ?_, fun root imported => (imported.transfer binds parents importer).lookup wf'⟩
    have resolves := resolvesTo_of_assignee hassignee
    have read : (s.replace owner name v).lookup id name = .ok v := by
      refine (resolves.transfer binds parents).lookup wf' (binding?_replace v resolves) fun root imported => ?_
      exact own root (imported.transfer (fun i => (binds i).symm) (fun i => (parents i).symm)
        fun i => (importer i).symm)
    refine ⟨read, ?_⟩
    rintro m rfl rfl
    rw [Action.bind_apply, Evaluator.assignName, hassignee]
    dsimp only
    rw [Evaluator.readName, read]

/-- A module that exposes a name, another one that declares it, and a scope of the second one that imports all names
of the first one. -/
def crossing : Scopes :=
  { all := #[
      { bindings := [("x", .value .nil)], exposed := ["x"] },
      { bindings := [("x", .value .nil)] },
      { parent := some 1, imports := [0] }] }

theorem wellFounded_crossing : WellFounded (flip crossing.Refers) := by
  refine Subrelation.wf (r := (· < ·)) (fun {target i} (refers : crossing.Refers i target) => ?_) Nat.lt_wfRel.wf
  have inside : i < 3 := refers.lt_size
  rcases refers with around | linked
  · rcases i with _ | _ | _ | i
    · cases around
    · cases around
    · cases around
      exact Nat.lt_succ_self 1
    · exact absurd inside (Nat.not_lt.mpr (Nat.le_add_left 3 i))
  · rcases i with _ | _ | _ | i
    · cases linked
    · cases linked
    · cases List.mem_singleton.mp linked
      exact Nat.succ_pos 1
    · exact absurd inside (Nat.not_lt.mpr (Nat.le_add_left 3 i))

theorem assign_crossing (v : Value) (h : crossing.ResolvesTo "x" 1 i) :
    crossing.assign i "x" v = .ok (crossing.replace 1 "x" v) := by
  rw [assign, assignee, owner?_eq_some_iff.mpr h]
  rfl

/-- In the inner scope the name is what it is in the first module, and in the second module it is what was assigned. -/
theorem lookup_assign_crossing :
    (crossing.replace 1 "x" (.bool true)).lookup 2 "x" = (crossing.replace 1 "x" (.bool true)).lookup 0 "x" ∧
    (crossing.replace 1 "x" (.bool true)).lookup 1 "x" = .ok (.bool true) := by
  have resolves : crossing.ResolvesTo "x" 1 1 := .here rfl
  have own (root : ScopeId) : ¬ crossing.ImportedFrom "x" root 1 := by
    rintro (⟨free, -⟩ | ⟨free, -⟩) <;> cases free
  have inner := assign_crossing (.bool true) (resolves.outward (i := 2) rfl rfl (Nat.lt_succ_self 1))
  exact ⟨(lookup_assign wellFounded_crossing inner).2 0 (.here rfl rfl),
    ((lookup_assign wellFounded_crossing (assign_crossing (.bool true) resolves)).1 own).1⟩

/-- **An assignment that is not seen where it is made.** -/
theorem assign_unseen_crossing : WellFounded (flip crossing.Refers) ∧
    crossing.assign 2 "x" (.bool true) = .ok (crossing.replace 1 "x" (.bool true)) ∧
    (crossing.replace 1 "x" (.bool true)).lookup 2 "x" ≠ .ok (.bool true) := by
  have read : (crossing.replace 1 "x" (.bool true)).lookup 2 "x" = .ok .nil := rfl
  refine ⟨wellFounded_crossing, assign_crossing _ (.outward rfl rfl (Nat.lt_succ_self 1) (.here rfl)), ?_⟩
  rw [read]
  rintro ⟨⟩

end Scopes

end Trellis
