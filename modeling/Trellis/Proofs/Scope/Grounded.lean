import Mathlib.Data.List.Perm.Subperm
import Mathlib.Order.WellFounded
import Trellis.Modules
import Trellis.Proofs.Scope.Alike

/-!
# Looking up names comes to an end

The search for a name goes from a scope to the one around it, to the module that the name is linked to, or to
a module of which all names are imported. It comes to an end if these references do not go in a circle, that
is if the relation `Scopes.Refers` is well-founded.

They do not if the store is *grounded* (`Scopes.Grounded`): a scope stands behind the one around it, links and
imports lead to modules that were evaluated, and each module that was evaluated has its links and imports
among those that were evaluated before it. Then the modules are well-founded one after another in the order of
their evaluation, and all other scopes in the order of the store. No search then comes to a scope twice, so
none takes more steps than there are scopes, and the bound that `Scopes.lookup` sets is never reached.
-/

namespace Trellis

def Binding.target? : Binding → Option ScopeId
  | value _ => none
  | link root => some root

variable {name : String} {root : ScopeId}

namespace Scope

def targets (s : Scope) : List ScopeId :=
  s.bindings.filterMap (·.2.target?) ++ s.imports

theorem mem_targets_of_binding? {s : Scope} (h : s.binding? name = some (.link root)) : root ∈ s.targets := by
  obtain ⟨entry, hfind, hlink⟩ := Option.map_eq_some_iff.mp h
  refine List.mem_append_left _ (List.mem_filterMap.mpr ⟨entry, List.mem_of_find?_eq_some hfind, ?_⟩)
  rw [hlink]
  rfl

theorem targets_rebind (s : Scope) (name : String) (v : Value) : (s.rebind name v).targets ⊆ s.targets := by
  intro target h
  unfold targets rebind at h
  rcases List.mem_append.mp h with linked | imported
  · obtain ⟨entry, hmem, htarget⟩ := List.mem_filterMap.mp linked
    obtain ⟨before, hbefore, rfl⟩ := List.mem_map.mp hmem
    split at htarget
    · cases htarget
    · exact List.mem_append_left _ (List.mem_filterMap.mpr ⟨before, hbefore, htarget⟩)
  · exact List.mem_append_right _ imported

end Scope

namespace Scopes

variable {s s' : Scopes} {id target : ScopeId}

/-- **A scope refers to another one**: to the one around it, to the module that a name is linked to, or to a
module of which all names are imported. -/
def Refers (s : Scopes) (id target : ScopeId) : Prop :=
  (s.get id).parent = some target ∨ target ∈ (s.get id).targets

theorem Refers.lt_size (h : s.Refers id target) : id < s.all.size := by
  by_cases inside : id < s.all.size
  · exact inside
  · have blank : s.get id = {} := by
      unfold get
      rw [Array.getElem?_eq_none (Nat.le_of_not_lt inside)]
      rfl
    unfold Refers at h
    rw [blank] at h
    rcases h with around | linked
    · cases around
    · cases linked

/-! ## Searching -/

theorem search_succ (s : Scopes) (id : ScopeId) (name : String) :
    (∃ found, found ≠ .endless ∧ ∀ bound, s.search (bound + 1) id name = found) ∨
    ∃ next other, s.Refers id next ∧
      ∀ bound, s.search (bound + 1) id name = s.search bound next other := by
  cases hbinding : (s.get id).binding? name with
  | some binding =>
    cases binding with
    | value v =>
      refine .inl ⟨.found v, nofun, fun bound => ?_⟩
      simp only [search, hbinding]
    | link root =>
      refine .inr ⟨root, (s.get id).remoteName name, .inr (Scope.mem_targets_of_binding? hbinding),
        fun bound => ?_⟩
      simp only [search, hbinding]
  | none =>
    cases himport : (s.get id).imports.find? fun root => (s.get root).exposes name with
    | some root =>
      refine .inr ⟨root, name, .inr (List.mem_append_right _ (List.mem_of_find?_eq_some himport)),
        fun bound => ?_⟩
      simp only [search, hbinding, himport]
    | none =>
      cases hparent : (s.get id).parent with
      | some parent =>
        refine .inr ⟨parent, name, .inl hparent, fun bound => ?_⟩
        simp only [search, hbinding, himport, hparent]
      | none =>
        refine .inl ⟨.undeclared name, nofun, fun bound => ?_⟩
        simp only [search, hbinding, himport, hparent]

theorem search_of_le {bound more : Nat} (h : s.search bound id name ≠ .endless) (le : bound ≤ more) :
    s.search more id name = s.search bound id name := by
  induction bound generalizing id name more with
  | zero => exact absurd rfl h
  | succ bound ih =>
    obtain ⟨more, rfl⟩ := Nat.exists_eq_succ_of_ne_zero (Nat.ne_of_gt (Nat.lt_of_lt_of_le bound.succ_pos le))
    rcases s.search_succ id name with ⟨found, -, ends⟩ | ⟨next, other, -, goes⟩
    · rw [ends, ends]
    · rw [goes] at h
      rw [goes, goes]
      exact ih h (Nat.le_of_succ_le_succ le)

/-- A search that does not end visits as many scopes as it may take steps, each of which refers, over some
others maybe, to all that come behind it. -/
theorem path_of_endless {bound : Nat} (h : s.search bound id name = .endless) :
    ∃ path : List ScopeId, path.length = bound ∧ (∀ i ∈ path, i < s.all.size) ∧
      (∀ i ∈ path, Relation.ReflTransGen s.Refers id i) ∧
      path.Pairwise (Relation.TransGen s.Refers) := by
  induction bound generalizing id name with
  | zero => exact ⟨[], rfl, nofun, nofun, .nil⟩
  | succ bound ih =>
    rcases s.search_succ id name with ⟨found, ends, hfound⟩ | ⟨next, other, refers, goes⟩
    · exact absurd ((hfound bound).symm.trans h) ends
    · obtain ⟨path, hlength, hsize, hreach, hpath⟩ := ih ((goes bound).symm.trans h)
      refine ⟨id :: path, congrArg (· + 1) hlength, ?_, ?_, ?_⟩
      · intro i hi
        rcases List.mem_cons.mp hi with rfl | hi
        · exact refers.lt_size
        · exact hsize i hi
      · intro i hi
        rcases List.mem_cons.mp hi with rfl | hi
        · exact .refl
        · exact .head refers (hreach i hi)
      · exact .cons (fun i hi => Relation.TransGen.head' refers (hreach i hi)) hpath

/-- **Where references do not go in a circle, every search comes to an end**, in no more steps than there are
scopes and one. -/
theorem search_ne_endless (wf : WellFounded (flip s.Refers)) {bound : Nat}
    (h : s.all.size < bound) (id : ScopeId) (name : String) : s.search bound id name ≠ .endless := by
  intro endless
  obtain ⟨path, hlength, hsize, -, hpath⟩ := path_of_endless endless
  have irrefl (i : ScopeId) : ¬ Relation.TransGen s.Refers i i := by
    intro circle
    exact wf.transGen.irrefl.irrefl i (Relation.transGen_swap.mpr circle)
  have distinct : path.Nodup := hpath.imp fun {a b} hab => by
    rintro rfl
    exact irrefl a hab
  have short : path.length ≤ (List.range s.all.size).length :=
    (List.subperm_of_subset distinct fun i hi => List.mem_range.mpr (hsize i hi)).length_le
  rw [List.length_range, hlength] at short
  exact Nat.not_lt_of_le short h

/-! ## Grounded stores -/

/-- **The modules that were evaluated**, the last one first, are roots whose links and imports lead to those
that were evaluated before. -/
def Settled (s : Scopes) : List (ModuleKey × ScopeId) → Prop
  | [] => True
  | (_, root) :: earlier =>
    (s.get root).parent = none ∧ (∀ target ∈ (s.get root).targets, target ∈ earlier.map (·.2)) ∧
      Settled s earlier

structure Grounded (s : Scopes) (loaded : List (ModuleKey × ScopeId)) : Prop where
  /-- A scope stands behind the one around it. -/
  parent : ∀ id parent, (s.get id).parent = some parent → parent < id
  /-- Links and imports lead to modules that were evaluated. -/
  target : ∀ id, ∀ target ∈ (s.get id).targets, target ∈ loaded.map (·.2)
  /-- Modules have roots in the store. -/
  bounded : ∀ root ∈ loaded.map (·.2), root < s.all.size
  settled : s.Settled loaded

variable {loaded : List (ModuleKey × ScopeId)}

theorem Settled.acc (h : s.Settled loaded) : ∀ root ∈ loaded.map (·.2), Acc (flip s.Refers) root := by
  induction loaded with
  | nil => exact nofun
  | cons entry earlier ih =>
    obtain ⟨around, targets, rest⟩ := h
    have before := ih rest
    intro root hroot
    rcases List.mem_cons.mp hroot with rfl | hroot
    · refine ⟨_, fun target refers => ?_⟩
      rcases refers with parent | linked
      · rw [around] at parent
        cases parent
      · exact before target (targets target linked)
    · exact before root hroot

theorem Grounded.wellFounded (h : s.Grounded loaded) : WellFounded (flip s.Refers) := by
  refine ⟨fun id => ?_⟩
  -- modules are settled already, and a scope around another one stands before it
  induction id using Nat.strongRecOn with
  | ind id ih =>
    refine ⟨_, fun target refers => ?_⟩
    rcases refers with parent | linked
    · exact ih target (h.parent id target parent)
    · exact h.settled.acc target (h.target id target linked)

structure LookupEnds (s : Scopes) : Prop where
  /-- References do not go in a circle. -/
  wellFounded : WellFounded (flip s.Refers)
  /-- A search comes to the same end whenever it may take more steps than there are scopes, and so it does in
  the number of steps that it has. -/
  search : ∀ id name, ∃ found, found ≠ .endless ∧ s.search s.searchBound id name = found ∧
    ∀ bound, s.all.size < bound → s.search bound id name = found
  /-- The names that mean something in a scope are its own, those that it imports, and then those of the
  scope around it. -/
  names : ∀ id, s.visibleNames id = (s.get id).bindings.map (·.1) ++
    ((s.get id).imports.flatMap fun root => (s.get root).exposedNames) ++
    ((s.get id).parent.elim [] s.visibleNames)

theorem Grounded.lookupEnds (h : s.Grounded loaded) : s.LookupEnds where
  wellFounded := h.wellFounded
  search id name := by
    have ends := search_ne_endless h.wellFounded (Nat.lt_succ_self s.all.size) id name
    have enough : s.all.size < s.searchBound :=
      Nat.lt_succ_of_le (Nat.le_mul_of_pos_right _ (Nat.succ_pos _))
    exact ⟨_, ends, search_of_le ends enough, fun bound more => search_of_le ends more⟩
  names id := by
    unfold visibleNames
    rw [chain]
    cases hparent : (s.get id).parent with
    | none => simp
    | some parent => simp [h.parent id parent hparent]

/-! ## Changes that leave a store grounded -/

theorem get_modify (s : Scopes) (id : ScopeId) (f : Scope → Scope) (i : ScopeId) :
    (i = id ∧ (s.modify id f).get i = f (s.get i)) ∨ (s.modify id f).get i = s.get i := by
  by_cases hi : i = id
  · by_cases hsize : i < s.all.size
    · subst hi
      exact .inl ⟨rfl, get_modify_self f hsize⟩
    · exact .inr (get_modify_of_size_le f (Nat.le_of_not_lt hsize))
  · exact .inr (get_modify_of_ne f hi)

theorem parent_modify {f : Scope → Scope} (parent : ∀ scope, (f scope).parent = scope.parent)
    (i : ScopeId) : ((s.modify id f).get i).parent = (s.get i).parent := by
  rcases s.get_modify id f i with ⟨-, changed⟩ | kept
  · rw [changed, parent]
  · rw [kept]

theorem link_eq_modify (h : s.link id name root = .ok s') :
    ∃ f, s' = s.modify id f ∧ (∀ scope, (f scope).parent = scope.parent) ∧
      ∀ scope, ∀ target ∈ (f scope).targets, target ∈ scope.targets ∨ target = root := by
  obtain ⟨-, rfl⟩ | ⟨-, -, rfl⟩ := of_link h
  · refine ⟨_, rfl, fun _ => rfl, fun scope target ht => ?_⟩
    rcases List.mem_append.mp ht with linked | imported
    · exact .inl (List.mem_append_left _ linked)
    · rcases List.mem_append.mp imported with before | new
      · exact .inl (List.mem_append_right _ before)
      · exact .inr (List.mem_singleton.mp new)
  · refine ⟨_, rfl, fun _ => rfl, fun scope target ht => ?_⟩
    rcases List.mem_cons.mp ht with new | before
    · exact .inr new
    · exact .inl before

theorem Settled.mono (h : s.Settled loaded)
    (kept : ∀ root ∈ loaded.map (·.2), (s'.get root).parent = (s.get root).parent ∧
      (s'.get root).targets ⊆ (s.get root).targets) : s'.Settled loaded := by
  induction loaded with
  | nil => trivial
  | cons entry earlier ih =>
    obtain ⟨around, targets, rest⟩ := h
    obtain ⟨parent, subset⟩ := kept entry.2 (.head _)
    exact ⟨parent.trans around, fun target ht => targets target (subset ht),
      ih rest fun root hroot => kept root (.tail _ hroot)⟩

namespace Grounded

theorem empty : Grounded {} [] where
  parent _ _ h := by cases h
  target _ _ h := by cases h
  bounded _ h := by cases h
  settled := trivial

/-- **A scope is changed** that keeps the scope around it. It may lead to modules that were evaluated, unless
it is one of them itself. -/
theorem modify (h : s.Grounded loaded) {f : Scope → Scope}
    (parent : ∀ scope, (f scope).parent = scope.parent)
    (targets : ∀ target ∈ (f (s.get id)).targets, target ∈ (s.get id).targets ∨
      (target ∈ loaded.map (·.2) ∧ id ∉ loaded.map (·.2))) : (s.modify id f).Grounded loaded := by
  refine ⟨fun i p hp => h.parent i p (parent_modify parent i ▸ hp), fun i target ht => ?_, ?_, ?_⟩
  · rcases s.get_modify id f i with ⟨rfl, changed⟩ | kept
    · rw [changed] at ht
      exact (targets target ht).elim (h.target i target) And.left
    · exact h.target i target (kept ▸ ht)
  · rw [size_modify]
    exact h.bounded
  · refine h.settled.mono fun root hroot => ⟨parent_modify parent root, fun target ht => ?_⟩
    rcases s.get_modify id f root with ⟨rfl, changed⟩ | kept
    · rw [changed] at ht
      exact (targets target ht).elim (fun before => before) fun other => absurd hroot other.2
    · exact kept ▸ ht

theorem counting (h : s.Grounded loaded) (count : Nat) :
    ({ s with aliasCount := count } : Scopes).Grounded loaded where
  parent := h.parent
  target := h.target
  bounded := h.bounded
  settled := h.settled.mono fun _ _ => ⟨rfl, fun _ ht => ht⟩

theorem push (h : s.Grounded loaded) {scope : Scope} (count : Nat) (targets : scope.targets = [])
    (parent : ∀ p, scope.parent = some p → p < s.all.size) :
    ({ all := s.all.push scope, aliasCount := count } : Scopes).Grounded loaded := by
  have cases (i : ScopeId) :
      (i = s.all.size ∧ ({ all := s.all.push scope, aliasCount := count } : Scopes).get i = scope) ∨
      ({ all := s.all.push scope, aliasCount := count } : Scopes).get i = s.get i := by
    by_cases hi : i = s.all.size
    · refine .inl ⟨hi, ?_⟩
      unfold get
      rw [hi, Array.getElem?_push, if_pos rfl]
      rfl
    · refine .inr ?_
      unfold get
      rw [Array.getElem?_push, if_neg hi]
  refine ⟨fun i p hp => ?_, fun i target ht => ?_, fun root hroot => ?_, ?_⟩
  · rcases cases i with ⟨rfl, made⟩ | kept
    · exact parent p (made ▸ hp)
    · exact h.parent i p (kept ▸ hp)
  · rcases cases i with ⟨rfl, made⟩ | kept
    · rw [made, targets] at ht
      cases ht
    · exact h.target i target (kept ▸ ht)
  · rw [Array.size_push]
    exact Nat.lt_succ_of_lt (h.bounded root hroot)
  · refine h.settled.mono fun root hroot => ?_
    rw [get_push scope count (h.bounded root hroot)]
    exact ⟨rfl, fun _ ht => ht⟩

theorem finish (h : s.Grounded loaded) (key : ModuleKey) (size : root < s.all.size)
    (around : (s.get root).parent = none) : s.Grounded ((key, root) :: loaded) where
  parent := h.parent
  target id target ht := .tail _ (h.target id target ht)
  bounded other hother := by
    rcases List.mem_cons.mp hother with rfl | hother
    · exact size
    · exact h.bounded other hother
  settled := ⟨around, h.target root, h.settled⟩

end Grounded

end Scopes

end Trellis
