import Trellis.Scope

/-!
# Scopes that are alike

Two scopes are *alike* if all that tells them apart are the values of their variables: they bind the same
names, each of them to a value in both or to the same module in both, and they agree in everything else, the
values of their constants included. An assignment leaves every scope alike, and what changes a single scope
leaves all others as they were.
-/

namespace Trellis

variable {name : String}

namespace Scope

variable {a b c : Scope}

/-- **Two scopes are alike** if they differ in nothing but the values of variables. -/
structure Alike (a b : Scope) : Prop where
  parent : b.parent = a.parent
  names : b.bindings.map (·.1) = a.bindings.map (·.1)
  /-- A name is linked in both, and to the same module, or in none of them. -/
  link : ∀ name root, b.binding? name = some (.link root) ↔ a.binding? name = some (.link root)
  constant : ∀ name, a.isStatic name = true → b.binding? name = a.binding? name
  statics : b.statics = a.statics
  exposed : b.exposed = a.exposed
  aliases : b.aliases = a.aliases
  imports : b.imports = a.imports
  file : b.file = a.file

theorem Alike.refl (a : Scope) : a.Alike a :=
  ⟨rfl, rfl, fun _ _ => .rfl, fun _ _ => rfl, rfl, rfl, rfl, rfl, rfl⟩

theorem Alike.trans (h₁ : a.Alike b) (h₂ : b.Alike c) : a.Alike c where
  parent := h₂.parent.trans h₁.parent
  names := h₂.names.trans h₁.names
  link name root := (h₂.link name root).trans (h₁.link name root)
  constant name static := by
    have static' : b.isStatic name = true := by rw [isStatic, h₁.statics]; exact static
    exact (h₂.constant name static').trans (h₁.constant name static)
  statics := h₂.statics.trans h₁.statics
  exposed := h₂.exposed.trans h₁.exposed
  aliases := h₂.aliases.trans h₁.aliases
  imports := h₂.imports.trans h₁.imports
  file := h₂.file.trans h₁.file

theorem binding?_rebind (a : Scope) (name other : String) (v : Value) :
    (a.rebind name v).binding? other =
      if other = name then (a.binding? name).map fun _ => .value v else a.binding? other := by
  unfold binding? rebind
  simp only
  induction a.bindings with
  | nil => simp
  | cons entry rest ih =>
    by_cases hname : entry.1 = name
    · by_cases hother : other = name
      · simp [hname, hother]
      · have hne : ¬ name = other := fun h => hother h.symm
        simpa [hname, hother, hne, List.find?_cons] using ih
    · by_cases hother : other = name
      · simpa [hname, hother, List.find?_cons] using ih
      · by_cases hentry : entry.1 = other
        · simp [hother, hentry]
        · simpa [hname, hother, hentry, List.find?_cons] using ih

theorem alike_rebind (v : Value) (free : a.isStatic name = false)
    (unlinked : ∀ root, a.binding? name ≠ some (.link root)) : a.Alike (a.rebind name v) where
  parent := rfl
  names := by
    unfold rebind
    rw [List.map_map]
    refine List.map_congr_left fun entry _ => ?_
    by_cases h : entry.1 = name <;> simp [h]
  link other root := by
    rw [binding?_rebind]
    split
    · rename_i h
      subst h
      refine ⟨fun hlink => ?_, fun hlink => absurd hlink (unlinked root)⟩
      obtain ⟨_, _, hvalue⟩ := Option.map_eq_some_iff.mp hlink
      cases hvalue
    · exact .rfl
  constant other static := by
    rw [binding?_rebind, if_neg]
    rintro rfl
    rw [free] at static
    cases static
  statics := rfl
  exposed := rfl
  aliases := rfl
  imports := rfl
  file := rfl

end Scope

/-! ## Stores of scopes -/

namespace Scopes

variable {s s₁ s₂ : Scopes} {id i n : Nat} {root : ScopeId}

theorem get_push (scope : Scope) (count : Nat) (h : i < s.all.size) :
    ({ all := s.all.push scope, aliasCount := count } : Scopes).get i = s.get i := by
  unfold get
  rw [Array.getElem?_push, if_neg (Nat.ne_of_lt h)]

theorem get_addRoot (file : Option Path) (h : i < s.all.size) : (s.addRoot file).2.get i = s.get i :=
  get_push _ _ h

theorem get_addChild (parent : ScopeId) (h : i < s.all.size) : (s.addChild parent).2.get i = s.get i :=
  get_push _ _ h

theorem size_modify (s : Scopes) (id : ScopeId) (f : Scope → Scope) : (s.modify id f).all.size = s.all.size :=
  Array.size_modify

theorem get_modify_of_ne (f : Scope → Scope) (h : i ≠ id) : (s.modify id f).get i = s.get i := by
  unfold get modify
  rw [Array.getElem?_modify, if_neg (Ne.symm h)]

theorem get_modify_of_size_le (f : Scope → Scope) (h : s.all.size ≤ i) : (s.modify id f).get i = s.get i := by
  unfold get
  rw [Array.getElem?_eq_none h, Array.getElem?_eq_none ((size_modify s id f).symm ▸ h)]

theorem get_modify_self (f : Scope → Scope) (h : id < s.all.size) : (s.modify id f).get id = f (s.get id) := by
  unfold get modify
  rw [Array.getElem?_modify, if_pos rfl, Array.getElem?_eq_getElem h]
  rfl

theorem of_link (linked : s.link id name root = .ok s₁) :
    (name = "*" ∧ s₁ = s.importAll id root) ∨ (name ≠ "*" ∧ (s.get id).binds name = false ∧
      s₁ = s.modify id fun scope => scope.bind name (.link root)) := by
  unfold link at linked
  split at linked
  · rename_i hname
    cases linked
    exact .inl ⟨by simpa using hname, rfl⟩
  · rename_i hname
    split at linked
    · cases linked
    · rename_i free
      cases linked
      exact .inr ⟨by simpa using hname, Bool.eq_false_iff.mpr free, rfl⟩

theorem link_eq_error {fault : Fault} (h : s.link id name root = .error fault) :
    fault = .managing (.alreadyDeclared name) := by
  unfold link at h
  split at h
  · cases h
  · split at h <;> cases h
    rfl

theorem assignee_eq_ok {owner : ScopeId} (h : s.assignee id name = .ok owner) :
    (s.get owner).isStatic name = false ∧ ∀ root, (s.get owner).binding? name ≠ some (.link root) := by
  unfold assignee at h
  split at h
  · cases h
  · dsimp only at h
    split at h
    · cases h
    · rename_i free
      split at h
      · cases h
      · rename_i unlinked
        cases h
        exact ⟨by simpa using free, unlinked⟩

/-- **The first scopes of two stores are alike**, and none of the first store is missing in the second. -/
structure AlikeBelow (n : Nat) (s s' : Scopes) : Prop where
  size : s.all.size ≤ s'.all.size
  alike : ∀ i < n, (s.get i).Alike (s'.get i)

namespace AlikeBelow

theorem refl (n : Nat) (s : Scopes) : AlikeBelow n s s :=
  ⟨Nat.le_refl _, fun _ _ => .refl _⟩

theorem trans (h₁ : AlikeBelow n s s₁) (h₂ : AlikeBelow n s₁ s₂) : AlikeBelow n s s₂ :=
  ⟨Nat.le_trans h₁.size h₂.size, fun i hi => (h₁.alike i hi).trans (h₂.alike i hi)⟩

theorem addRoot (file : Option Path) (h : n ≤ s.all.size) : AlikeBelow n s (s.addRoot file).2 where
  size := by simp [Scopes.addRoot]
  alike i hi := by rw [get_addRoot file (Nat.lt_of_lt_of_le hi h)]; exact .refl _

theorem addChild (parent : ScopeId) (h : n ≤ s.all.size) : AlikeBelow n s (s.addChild parent).2 where
  size := by simp [Scopes.addChild]
  alike i hi := by rw [get_addChild parent (Nat.lt_of_lt_of_le hi h)]; exact .refl _

theorem modify (f : Scope → Scope) (h : n ≤ id) : AlikeBelow n s (s.modify id f) where
  size := Nat.le_of_eq (size_modify s id f).symm
  alike i hi := by rw [get_modify_of_ne f (Nat.ne_of_lt (Nat.lt_of_lt_of_le hi h))]; exact .refl _

theorem setAlias (name remote : String) (h : n ≤ id) : AlikeBelow n s (s.setAlias id name remote) := by
  have changed : AlikeBelow n s
      (s.modify id fun scope => { scope with aliases := (name, remote) :: scope.aliases }) :=
    .modify _ h
  exact ⟨changed.size, changed.alike⟩

theorem link (h : n ≤ id) (hlink : s.link id name root = .ok s₁) : AlikeBelow n s s₁ := by
  obtain ⟨-, rfl⟩ | ⟨-, -, rfl⟩ := of_link hlink
  · exact .modify _ h
  · exact .modify _ h

theorem replace {owner : ScopeId} (v : Value)
    (h : s.assignee id name = .ok owner) : AlikeBelow n s (s.replace owner name v) where
  size := Nat.le_of_eq (size_modify s owner _).symm
  alike i _ := by
    obtain ⟨free, unlinked⟩ := assignee_eq_ok h
    by_cases hi : i = owner
    · subst hi
      by_cases hsize : i < s.all.size
      · rw [Scopes.replace, get_modify_self _ hsize]
        exact Scope.alike_rebind v free unlinked
      · rw [Scopes.replace, get_modify_of_size_le _ (Nat.le_of_not_lt hsize)]
        exact .refl _
    · rw [Scopes.replace, get_modify_of_ne _ hi]
      exact .refl _

end AlikeBelow

end Scopes

end Trellis
