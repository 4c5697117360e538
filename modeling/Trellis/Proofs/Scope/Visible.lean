import Trellis.Proofs.Scope.Grounded
import Trellis.Proofs.Scope.Operations

/-!
# Visible names

Looking up a name and listing the names that can be looked up are two different walks over scopes. The first
one follows links to modules under the names that they go by there, and the second one does not: it lists a
name that is linked without asking whether the module has it. Likewise it lists whatever a module exposes. So
the two agree only where a store is *tidy* (`Scopes.Tidy`): what is exposed is bound to a value, and a link
leads to a name that means something in its module.

What a name means in a scope is told by the relation `Scopes.Knows`, which has a case for each way of coming by
a meaning. Scopes only come to know more as a store grows, so each change leaves a tidy store tidy as long as
the scope that is changed stays tidy itself (`Scopes.Tidy.change`). In a tidy store in which looking up comes to
an end, both walks find the names that a scope knows (`Scopes.Tidy.namesResolve`).
-/

namespace Trellis

namespace Scope

variable {a a' : Scope} {name other : String}

theorem binding?_bind_self (a : Scope) (name : String) (b : Binding) : (a.bind name b).binding? name = some b := by
  unfold binding? bind
  rw [List.find?_cons_of_pos (by simp)]
  rfl

theorem mem_names_iff : name ∈ a.bindings.map (·.1) ↔ a.binds name = true := by
  unfold binds binding?
  rw [Option.isSome_map, List.find?_isSome, List.mem_map]
  simp

theorem Alike.binds {b : Scope} (h : a.Alike b) (name : String) : b.binds name = a.binds name := by
  rw [Bool.eq_iff_iff, ← mem_names_iff, ← mem_names_iff, h.names]

theorem mem_exposedNames_iff : name ∈ a.exposedNames ↔ a.exposes name = true := by
  unfold exposedNames exposes
  rw [List.mem_mergeSort, List.contains_iff_mem]

theorem exposes_expose_iff : (a.expose name).exposes other = true ↔ other = name ∨ a.exposes other = true := by
  unfold expose
  split
  · rename_i exposed
    constructor
    · exact .inr
    · rintro (rfl | before)
      · exact exposed
      · exact before
  · unfold exposes
    simp only [List.contains_iff_mem, List.mem_cons]

theorem remoteName_of_alias (a : Scope) (name remote : String) :
    ({ a with aliases := (name, remote) :: a.aliases } : Scope).remoteName name = remote := by
  unfold remoteName
  rw [List.find?_cons_of_pos (by simp)]
  rfl

theorem remoteName_of_other_alias (a : Scope) (remote : String) (h : other ≠ name) :
    ({ a with aliases := (name, remote) :: a.aliases } : Scope).remoteName other = a.remoteName other := by
  unfold remoteName
  rw [List.find?_cons_of_neg (by simpa using Ne.symm h)]

theorem remoteName_of_no_alias (free : ∀ entry ∈ a.aliases, entry.1 ≠ name) : a.remoteName name = name := by
  unfold remoteName
  rw [List.find?_eq_none.mpr fun entry hentry => by simpa using free entry hentry]
  rfl

/-- **A scope grows**: it keeps what it has, though a variable may get another value. -/
structure Grows (a a' : Scope) : Prop where
  parent : ∀ p, a.parent = some p → a'.parent = some p
  value : ∀ name v, a.binding? name = some (.value v) → ∃ w, a'.binding? name = some (.value w)
  link : ∀ name root, a.binding? name = some (.link root) →
    a'.binding? name = some (.link root) ∧ a'.remoteName name = a.remoteName name
  imports : a.imports ⊆ a'.imports
  exposes : ∀ name, a.exposes name = true → a'.exposes name = true

theorem Grows.refl (a : Scope) : a.Grows a :=
  ⟨fun _ h => h, fun _ v h => ⟨v, h⟩, fun _ _ h => ⟨h, rfl⟩, fun _ h => h, fun _ h => h⟩

theorem Grows.binds (h : a.Grows a') (bound : a.binds name = true) : a'.binds name = true := by
  obtain ⟨b, hb⟩ := Option.isSome_iff_exists.mp bound
  cases b with
  | value v =>
    obtain ⟨w, hw⟩ := h.value name v hb
    exact binds_of_binding? hw
  | link root => exact binds_of_binding? (h.link name root hb).1

end Scope

namespace Scopes

variable {s s' : Scopes} {id root : ScopeId} {name : String}

/-- **A name means something in a scope**: it is bound there, or linked to a name that means something in a
module, or exposed by a module that is imported, or means something in the scope around. -/
inductive Knows (s : Scopes) : ScopeId → String → Prop where
  | value {id : ScopeId} {name : String} {v : Value}
      (bound : (s.get id).binding? name = some (.value v)) : Knows s id name
  | link {id root : ScopeId} {name : String} (bound : (s.get id).binding? name = some (.link root))
      (next : Knows s root ((s.get id).remoteName name)) : Knows s id name
  | imported {id root : ScopeId} {name : String} (imported : root ∈ (s.get id).imports)
      (exposed : (s.get root).exposes name = true) : Knows s id name
  | around {id parent : ScopeId} {name : String} (around : (s.get id).parent = some parent)
      (next : Knows s parent name) : Knows s id name

theorem Knows.mono (h : s.Knows id name) (grows : ∀ i, (s.get i).Grows (s'.get i)) : s'.Knows id name := by
  induction h with
  | value bound =>
    obtain ⟨w, hw⟩ := (grows _).value _ _ bound
    exact .value hw
  | link bound _ ih =>
    -- the alias is kept, so the link leads to the same name as before
    obtain ⟨bound', same⟩ := (grows _).link _ _ bound
    exact .link bound' (by rw [same]; exact ih)
  | imported imported exposed => exact .imported ((grows _).imports imported) ((grows _).exposes _ exposed)
  | around around _ ih => exact .around ((grows _).parent _ around) ih

theorem knows_of_search {bound : Nat} {v : Value} (h : s.search bound id name = .found v) : s.Knows id name := by
  -- the cases are those of the search, each of which is a way of being known
  induction bound generalizing id name with
  | zero => cases h
  | succ bound ih =>
    unfold search at h
    dsimp only at h
    split at h
    · rename_i hbinding
      exact .value hbinding
    · rename_i hbinding
      exact .link hbinding (ih h)
    · split at h
      · rename_i root himport
        have exposed : (s.get root).exposes name = true := by
          simpa using List.find?_some himport
        exact .imported (List.mem_of_find?_eq_some himport) exposed
      · split at h
        · rename_i hparent
          exact .around hparent (ih h)
        · cases h

theorem knows_of_lookup {v : Value} (h : s.lookup id name = .ok v) : s.Knows id name := by
  unfold lookup at h
  split at h
  · rename_i hsearch
    exact knows_of_search hsearch
  · cases h
  · cases h

/-! ## Tidy stores -/

structure Tidy (s : Scopes) : Prop where
  /-- What is exposed is bound to a value. -/
  exposed : ∀ id name, (s.get id).exposes name = true → ∃ v, (s.get id).binding? name = some (.value v)
  /-- A link leads to a name that means something in its module. -/
  linked : ∀ id name root, (s.get id).binding? name = some (.link root) →
    s.Knows root ((s.get id).remoteName name)
  /-- Aliases are those of names that are bound, or of `*`, which is never a link. -/
  aliased : ∀ id, ∀ entry ∈ (s.get id).aliases, (s.get id).binds entry.1 = true ∨ entry.1 = "*"
  star : ∀ id root, (s.get id).binding? "*" ≠ some (.link root)

/-- **A scope of a store may be changed into another one**: it grows, and stays tidy itself. -/
structure Allows (s : Scopes) (a a' : Scope) : Prop extends a.Grows a' where
  exposed : ∀ name, a'.exposes name = true → ∃ v, a'.binding? name = some (.value v)
  linked : ∀ name root, a'.binding? name = some (.link root) →
    a.binding? name = some (.link root) ∨ s.Knows root (a'.remoteName name)
  aliased : ∀ entry ∈ a'.aliases, a'.binds entry.1 = true ∨ entry.1 = "*"
  star : ∀ root, a'.binding? "*" ≠ some (.link root)

namespace Tidy

theorem empty : Tidy {} where
  exposed _ _ h := by cases h
  linked _ _ _ h := by cases h
  aliased _ _ h := by cases h
  star _ _ h := by cases h

variable (h : s.Tidy)

include h

theorem change (changed : ∀ i, s'.get i = s.get i ∨ s.Allows (s.get i) (s'.get i)) : s'.Tidy := by
  have grows (i : ScopeId) : (s.get i).Grows (s'.get i) := by
    rcases changed i with same | allowed
    · rw [same]
      exact .refl _
    · exact allowed.toGrows
  refine ⟨fun id name hname => ?_, fun id name root hlink => ?_, fun id entry hentry => ?_, fun id => ?_⟩
  · rcases changed id with same | allowed
    · rw [same] at hname ⊢
      exact h.exposed id name hname
    · exact allowed.exposed name hname
  · rcases changed id with same | allowed
    · rw [same] at hlink ⊢
      exact (h.linked id name root hlink).mono grows
    · -- a link of before leads to a name that is still known, since no scope loses anything
      rcases allowed.linked name root hlink with before | known
      · rw [(allowed.link name root before).2]
        exact (h.linked id name root before).mono grows
      · exact known.mono grows
  · rcases changed id with same | allowed
    · rw [same] at hentry ⊢
      exact h.aliased id entry hentry
    · exact allowed.aliased entry hentry
  · rcases changed id with same | allowed
    · rw [same]
      exact h.star id
    · exact allowed.star

theorem modify {f : Scope → Scope}
    (allowed : id < s.all.size → s.Allows (s.get id) (f (s.get id))) : (s.modify id f).Tidy := by
  refine h.change fun i => ?_
  by_cases hi : i = id
  · by_cases hsize : id < s.all.size
    · subst hi
      rw [get_modify_self f hsize]
      exact .inr (allowed hsize)
    · subst hi
      exact .inl (get_modify_of_size_le f (Nat.le_of_not_lt hsize))
  · exact .inl (get_modify_of_ne f hi)

theorem push (parent : Option ScopeId) (file : Option Path) (count : Nat) :
    ({ all := s.all.push { parent, file }, aliasCount := count } : Scopes).Tidy := by
  refine h.change fun i => ?_
  by_cases hi : i = s.all.size
  · -- there was nothing at this place, so the new scope has nothing to keep
    refine .inr ?_
    have before : s.get i = {} := by
      unfold get
      rw [Array.getElem?_eq_none (Nat.le_of_eq hi.symm)]
      rfl
    have made : ({ all := s.all.push { parent, file }, aliasCount := count } : Scopes).get i = { parent, file } := by
      unfold get
      rw [hi, Array.getElem?_push, if_pos rfl]
      rfl
    rw [before, made]
    exact {
      parent := fun p hp => by cases hp
      value := fun _ _ hv => by cases hv
      link := fun _ _ hl => by cases hl
      imports := fun _ hi => by cases hi
      exposes := fun _ he => by cases he
      exposed := fun _ he => by cases he
      linked := fun _ _ hl => by cases hl
      aliased := fun _ he => by cases he
      star := fun _ hs => by cases hs }
  · refine .inl ?_
    unfold get
    rw [Array.getElem?_push, if_neg hi]

/-! ### What scopes may be changed into -/

theorem remoteName_of_free (free : (s.get id).binds name = false) (hname : name ≠ "*") :
    (s.get id).remoteName name = name := by
  refine Scope.remoteName_of_no_alias fun entry hentry heq => ?_
  rcases h.aliased id entry hentry with bound | star
  · rw [heq, free] at bound
    cases bound
  · exact hname (heq.symm.trans star)

theorem allows_bind {b : Binding} {statics : List String} {aliases : List (String × String)}
    (free : (s.get id).binds name = false)
    (others : ∀ o, o ≠ name →
      ({ s.get id with aliases } : Scope).remoteName o = (s.get id).remoteName o)
    (entries : ∀ entry ∈ aliases, entry ∈ (s.get id).aliases ∨ entry.1 = name)
    (linked : ∀ root, b = .link root →
      name ≠ "*" ∧ s.Knows root (({ s.get id with aliases } : Scope).remoteName name)) :
    s.Allows (s.get id) { (s.get id).bind name b with statics, aliases } := by
  have other {o : String} (hne : o ≠ name) :
      ({ (s.get id).bind name b with statics, aliases } : Scope).binding? o = (s.get id).binding? o :=
    Scope.binding?_bind b hne
  have own : ({ (s.get id).bind name b with statics, aliases } : Scope).binding? name = some b :=
    Scope.binding?_bind_self (s.get id) name b
  have kept {o : String} {b' : Binding} (bound : (s.get id).binding? o = some b') :
      ({ (s.get id).bind name b with statics, aliases } : Scope).binding? o = some b' :=
    (other (Scope.ne_of_not_binds free bound)).trans bound
  exact {
    parent := fun _ hp => hp
    value := fun o v hv => ⟨v, kept hv⟩
    link := fun o root hl => ⟨kept hl, others o (Scope.ne_of_not_binds free hl)⟩
    imports := fun _ hi => hi
    exposes := fun _ he => he
    exposed := fun o he => by
      obtain ⟨v, hv⟩ := h.exposed id o he
      exact ⟨v, kept hv⟩
    linked := fun o root hl => by
      by_cases ho : o = name
      · subst ho
        exact .inr (linked root (Option.some.inj (own.symm.trans hl))).2
      · exact .inl ((other ho).symm.trans hl)
    aliased := fun entry he => by
      rcases entries entry he with before | rfl
      · refine (h.aliased id entry before).imp_left fun bound => ?_
        obtain ⟨b', hb'⟩ := Option.isSome_iff_exists.mp bound
        exact Scope.binds_of_binding? (kept hb')
      · exact .inl (Scope.binds_of_binding? own)
    star := fun root hs => by
      by_cases ho : "*" = name
      · subst ho
        exact (linked root (Option.some.inj (own.symm.trans hs))).1 rfl
      · exact h.star id root ((other ho).symm.trans hs) }

theorem allows_star (remote : String) :
    s.Allows (s.get id) { s.get id with aliases := ("*", remote) :: (s.get id).aliases } where
  parent _ hp := hp
  value _ v hv := ⟨v, hv⟩
  link o root hl := by
    refine ⟨hl, Scope.remoteName_of_other_alias _ remote ?_⟩
    rintro rfl
    exact h.star id root hl
  imports _ hi := hi
  exposes _ he := he
  exposed := h.exposed id
  linked _ _ hl := .inl hl
  aliased entry he := by
    rcases List.mem_cons.mp he with rfl | before
    · exact .inr rfl
    · exact h.aliased id entry before
  star := h.star id

theorem allows_rebind (v : Value)
    (unlinked : ∀ root, (s.get id).binding? name ≠ some (.link root)) :
    s.Allows (s.get id) ((s.get id).rebind name v) := by
  have value {o : String} {w : Value} (bound : (s.get id).binding? o = some (.value w)) :
      ∃ w', ((s.get id).rebind name v).binding? o = some (.value w') := by
    rw [Scope.binding?_rebind]
    split
    · rename_i ho
      rw [← ho, bound]
      exact ⟨v, rfl⟩
    · exact ⟨w, bound⟩
  have link {o : String} {root : ScopeId} :
      ((s.get id).rebind name v).binding? o = some (.link root) ↔
        (s.get id).binding? o = some (.link root) := by
    rw [Scope.binding?_rebind]
    split
    · rename_i ho
      subst ho
      refine ⟨fun bound => ?_, fun bound => absurd bound (unlinked root)⟩
      obtain ⟨_, _, hlink⟩ := Option.map_eq_some_iff.mp bound
      cases hlink
    · rfl
  have grows : (s.get id).Grows ((s.get id).rebind name v) :=
    ⟨fun _ hp => hp, fun _ _ => value, fun _ _ hl => ⟨link.mpr hl, rfl⟩, fun _ hi => hi, fun _ he => he⟩
  exact {
    toGrows := grows
    exposed := fun o he => by
      obtain ⟨w, hw⟩ := h.exposed id o he
      exact value hw
    linked := fun o root hl => .inl (link.mp hl)
    aliased := fun entry he => (h.aliased id entry he).imp_left grows.binds
    star := fun root hs => h.star id root (link.mp hs) }

theorem allows_expose {v : Value} (bound : (s.get id).binding? name = some (.value v)) :
    s.Allows (s.get id) ((s.get id).expose name) := by
  have exposes (o : String) : ((s.get id).expose name).exposes o = true ↔ o = name ∨ (s.get id).exposes o = true :=
    Scope.exposes_expose_iff
  have rest : ∃ exposed, (s.get id).expose name = { s.get id with exposed } := by
    unfold Scope.expose
    split
    · exact ⟨_, rfl⟩
    · exact ⟨_, rfl⟩
  obtain ⟨exposed, hrest⟩ := rest
  rw [hrest] at exposes ⊢
  exact {
    parent := fun _ hp => hp
    value := fun _ v hv => ⟨v, hv⟩
    link := fun _ _ hl => ⟨hl, rfl⟩
    imports := fun _ hi => hi
    exposes := fun o he => (exposes o).mpr (.inr he)
    exposed := fun o he => by
      rcases (exposes o).mp he with rfl | before
      · exact ⟨v, bound⟩
      · exact h.exposed id o before
    linked := fun _ _ hl => .inl hl
    aliased := h.aliased id
    star := h.star id }

theorem allows_import (root : ScopeId) :
    s.Allows (s.get id) { s.get id with imports := (s.get id).imports ++ [root] } where
  parent _ hp := hp
  value _ v hv := ⟨v, hv⟩
  link _ _ hl := ⟨hl, rfl⟩
  imports := List.subset_append_left _ _
  exposes _ he := he
  exposed := h.exposed id
  linked _ _ hl := .inl hl
  aliased := h.aliased id
  star := h.star id

/-! ### Changes of the store -/

theorem addBinding (v : Value) (static : Bool) (free : s.declareFault? id name = none) :
    (s.addBinding id name v static).Tidy := by
  have unbound : (s.get id).binds name = false := by
    unfold declareFault? at free
    split at free
    · cases free
    · rename_i hbinds
      exact Bool.eq_false_iff.mpr hbinds
  refine h.modify fun _ => ?_
  cases static <;>
    exact h.allows_bind unbound (fun _ _ => rfl) (fun _ he => .inl he) fun root hroot => by cases hroot

theorem replace (v : Value) {owner : ScopeId} (hassign : s.assignee id name = .ok owner) :
    (s.replace owner name v).Tidy :=
  h.modify fun _ => h.allows_rebind v (assignee_eq_ok hassign).2

theorem expose (bound : id < s.all.size → ∃ v, (s.get id).binding? name = some (.value v)) :
    (s.expose id name).Tidy :=
  h.modify fun inside => by
    obtain ⟨v, hv⟩ := bound inside
    exact h.allows_expose hv

theorem importAll (root : ScopeId) : (s.importAll id root).Tidy :=
  h.modify fun _ => h.allows_import root

theorem pick (known : s.Knows root name) (linked : s.link id name root = .ok s') : s'.Tidy := by
  rcases of_link linked with ⟨-, rfl⟩ | ⟨hname, free, rfl⟩
  · exact h.importAll root
  · refine h.modify fun _ => h.allows_bind free (fun _ _ => rfl) (fun _ he => .inl he) ?_
    rintro other ⟨⟩
    exact ⟨hname, (h.remoteName_of_free free hname).symm ▸ known⟩

theorem pickAs {remote : String} (known : s.Knows root remote)
    (linked : s.link id name root = .ok s') : (s'.setAlias id name remote).Tidy := by
  rcases of_link linked with ⟨rfl, rfl⟩ | ⟨hname, free, rfl⟩
  · have imported : (s.importAll id root).Tidy := h.importAll root
    exact (imported.modify fun _ => imported.allows_star remote).change fun _ => .inl rfl
  · -- the link alone may lead nowhere, so the two changes are seen as one
    refine h.change fun i => ?_
    by_cases hi : i = id
    · subst hi
      by_cases hsize : i < s.all.size
      · refine .inr ?_
        have both : ((s.modify i fun scope => scope.bind name (.link root)).setAlias i name remote).get i =
            { (s.get i).bind name (.link root) with aliases := (name, remote) :: (s.get i).aliases } := by
          show (Scopes.modify _ i _).get i = _
          rw [get_modify_self _ (by rw [size_modify]; exact hsize), get_modify_self _ hsize]
          rfl
        rw [both]
        refine h.allows_bind free (fun o ho => Scope.remoteName_of_other_alias _ remote ho) ?_ ?_
        · intro entry he
          rcases List.mem_cons.mp he with rfl | before
          · exact .inr rfl
          · exact .inl before
        · rintro other ⟨⟩
          exact ⟨hname, (Scope.remoteName_of_alias (s.get i) name remote).symm ▸ known⟩
      · refine .inl ?_
        show (Scopes.modify _ i _).get i = _
        rw [get_modify_of_size_le _ (by rw [size_modify]; exact Nat.le_of_not_lt hsize),
          get_modify_of_size_le _ (Nat.le_of_not_lt hsize)]
    · refine .inl ?_
      show (Scopes.modify _ id _).get i = _
      rw [get_modify_of_ne _ hi, get_modify_of_ne _ hi]

end Tidy

/-! ## Looking up and listing -/

/-- **How a search ends in a tidy store**: it finds the names that are known, and of the others it says that
they are not declared. -/
theorem Tidy.search_ends (h : s.Tidy) (wf : WellFounded (flip s.Refers)) (id : ScopeId) (name : String) :
    ∃ bound, (s.Knows id name ∧ ∃ v, s.search bound id name = .found v) ∨
      (¬ s.Knows id name ∧ s.search bound id name = .undeclared name) := by
  induction id using wf.induction generalizing name with
  | _ id ih =>
    -- a search that goes on at a scope where the name is known ends there
    have goes {next : ScopeId} {other : String} (refers : s.Refers id next) (known : s.Knows next other) :
        ∃ bound v, s.search bound next other = .found v := by
      obtain ⟨bound, ⟨-, v, found⟩ | ⟨unknown, -⟩⟩ := ih next refers other
      · exact ⟨bound, v, found⟩
      · exact absurd known unknown
    cases hbinding : (s.get id).binding? name with
    | some binding =>
      cases binding with
      | value v => exact ⟨1, .inl ⟨.value hbinding, v, by simp only [search, hbinding]⟩⟩
      | link root =>
        have known := h.linked id name root hbinding
        obtain ⟨bound, v, found⟩ := goes (.inr (Scope.mem_targets_of_binding? hbinding)) known
        exact ⟨bound + 1, .inl ⟨.link hbinding known, v, by simp only [search, hbinding, found]⟩⟩
    | none =>
      cases himport : (s.get id).imports.find? fun root => (s.get root).exposes name with
      | some root =>
        have mem := List.mem_of_find?_eq_some himport
        have exposed : (s.get root).exposes name = true := by simpa using List.find?_some himport
        obtain ⟨w, hw⟩ := h.exposed root name exposed
        obtain ⟨bound, v, found⟩ := goes (.inr (List.mem_append_right _ mem)) (.value hw)
        exact ⟨bound + 1, .inl ⟨.imported mem exposed, v, by simp only [search, hbinding, himport, found]⟩⟩
      | none =>
        -- this scope has nothing under the name, so that it can only be known around it
        have only (known : s.Knows id name) : ∃ parent, (s.get id).parent = some parent ∧ s.Knows parent name := by
          cases known with
          | value bound => rw [hbinding] at bound; cases bound
          | link bound _ => rw [hbinding] at bound; cases bound
          | imported mem exposed => exact absurd exposed (List.find?_eq_none.mp himport _ mem)
          | around around next => exact ⟨_, around, next⟩
        cases hparent : (s.get id).parent with
        | none =>
          refine ⟨1, .inr ⟨fun known => ?_, by simp only [search, hbinding, himport, hparent]⟩⟩
          obtain ⟨parent, around, -⟩ := only known
          rw [hparent] at around
          cases around
        | some parent =>
          obtain ⟨bound, ⟨known, v, found⟩ | ⟨unknown, missing⟩⟩ := ih parent (.inl hparent) name
          · exact ⟨bound + 1, .inl ⟨.around hparent known, v,
              by simp only [search, hbinding, himport, hparent, found]⟩⟩
          · refine ⟨bound + 1, .inr ⟨fun known => ?_, by simp only [search, hbinding, himport, hparent, missing]⟩⟩
            obtain ⟨other, around, next⟩ := only known
            rw [hparent] at around
            cases around
            exact unknown next

theorem LookupEnds.search_eq (ends : s.LookupEnds) {bound : Nat} {found : Lookup}
    (h : s.search bound id name = found) (hne : found ≠ .endless) :
    s.search s.searchBound id name = found := by
  obtain ⟨other, -, looked, always⟩ := ends.search id name
  have more : s.search (bound + s.all.size + 1) id name = s.search bound id name :=
    search_of_le (h ▸ hne) (by omega)
  rw [looked, ← h, ← more]
  exact (always _ (by omega)).symm

theorem Tidy.lookup_cases (h : s.Tidy) (ends : s.LookupEnds) (id : ScopeId) (name : String) :
    (s.Knows id name ∧ ∃ v, s.lookup id name = .ok v) ∨
      (¬ s.Knows id name ∧ s.lookup id name = .error (.notDeclared name)) := by
  unfold lookup
  obtain ⟨bound, ⟨known, v, found⟩ | ⟨unknown, missing⟩⟩ := h.search_ends ends.wellFounded id name
  · rw [ends.search_eq found (by rintro ⟨⟩)]
    exact .inl ⟨known, v, rfl⟩
  · rw [ends.search_eq missing (by rintro ⟨⟩)]
    exact .inr ⟨unknown, rfl⟩

theorem Tidy.mem_visibleNames_iff (h : s.Tidy) (ends : s.LookupEnds) :
    name ∈ s.visibleNames id ↔ s.Knows id name := by
  have step (id : ScopeId) (name : String) : name ∈ s.visibleNames id ↔ (s.get id).binds name = true ∨
      (∃ root ∈ (s.get id).imports, (s.get root).exposes name = true) ∨
      ∃ parent, (s.get id).parent = some parent ∧ name ∈ s.visibleNames parent := by
    rw [ends.names id, List.mem_append, List.mem_append, Scope.mem_names_iff, List.mem_flatMap, or_assoc]
    simp only [Scope.mem_exposedNames_iff]
    cases (s.get id).parent <;> simp
  constructor
  · intro hmem
    induction id using ends.wellFounded.induction with
    | _ id ih =>
      rcases (step id name).mp hmem with bound | ⟨root, mem, exposed⟩ | ⟨parent, around, next⟩
      · obtain ⟨binding, hbinding⟩ := Option.isSome_iff_exists.mp bound
        cases binding with
        | value v => exact .value hbinding
        -- a link is listed wherever it leads, and in a tidy store it leads to a name that is known
        | link root => exact .link hbinding (h.linked id name root hbinding)
      · exact .imported mem exposed
      · exact .around around (ih parent (.inl around) next)
  · intro known
    induction known with
    | value bound => exact (step _ _).mpr (.inl (Scope.binds_of_binding? bound))
    | link bound _ _ => exact (step _ _).mpr (.inl (Scope.binds_of_binding? bound))
    | imported mem exposed => exact (step _ _).mpr (.inr (.inl ⟨_, mem, exposed⟩))
    | around around _ ih => exact (step _ _).mpr (.inr (.inr ⟨_, around, ih⟩))

structure NamesResolve (s : Scopes) : Prop where
  visible : ∀ id name, (∃ v, s.lookup id name = .ok v) ↔ name ∈ s.visibleNames id
  /-- Of any other name it is said that this very name is not declared. -/
  missing : ∀ id name, name ∉ s.visibleNames id → s.lookup id name = .error (.notDeclared name)
  /-- What a module exposes can be looked up by everybody who imports all of its names. -/
  imported : ∀ id, ∀ root ∈ (s.get id).imports, ∀ name, (s.get root).exposes name = true →
    ∃ v, s.lookup id name = .ok v
  /-- A name that is linked to a module has the value that it has there. -/
  linked : ∀ id name root, (s.get id).binding? name = some (.link root) →
    ∃ v, s.lookup root ((s.get id).remoteName name) = .ok v ∧ s.lookup id name = .ok v

theorem Tidy.namesResolve (h : s.Tidy) (ends : s.LookupEnds) : s.NamesResolve := by
  have looked (id : ScopeId) (name : String) : (∃ v, s.lookup id name = .ok v) ↔ s.Knows id name := by
    rcases h.lookup_cases ends id name with ⟨known, found⟩ | ⟨unknown, missing⟩
    · exact iff_of_true found known
    · refine iff_of_false ?_ unknown
      rintro ⟨v, found⟩
      rw [missing] at found
      cases found
  refine ⟨fun id name => (looked id name).trans (h.mem_visibleNames_iff ends).symm, fun id name hmem => ?_,
    fun id root mem name exposed => (looked id name).mpr (.imported mem exposed),
    fun id name root hlink => ?_⟩
  · rcases h.lookup_cases ends id name with ⟨known, -⟩ | ⟨-, missing⟩
    · exact absurd ((h.mem_visibleNames_iff ends).mpr known) hmem
    · exact missing
  · obtain ⟨v, hv⟩ := (looked root _).mpr (h.linked id name root hlink)
    refine ⟨v, hv, ?_⟩
    have found : s.search s.searchBound root ((s.get id).remoteName name) = .found v := by
      unfold lookup at hv
      split at hv
      · rename_i found
        cases hv
        exact found
      · cases hv
      · cases hv
    -- from the scope with the link, the search takes one step more than from the module
    have next : s.search (s.searchBound + 1) id name = .found v := by
      simp only [search, hlink, found]
    unfold lookup
    rw [ends.search_eq next (by rintro ⟨⟩)]

end Scopes

end Trellis
