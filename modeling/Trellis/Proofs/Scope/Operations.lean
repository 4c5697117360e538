import Trellis.Proofs.Scope.Alike

/-!
# Operations on scopes

All that ever happens to a store of scopes is one of a few operations (`ScopeOperation`): scopes are made,
names are declared, assigned to, deleted, linked to modules, given an alias or exposed, and a scope is told in
which file its code is. An operation that fails leaves the store as it was, so a sequence of operations can be
carried out one after another whatever becomes of each of them (`Scopes.performAll`).

What a name that is assigned to or deleted refers to is found by going outwards from a scope to the first one
that binds the name (`Scopes.ResolvesTo`).

A constant holds fast (`Scopes.HoldsFast`): no operation, wherever it is carried out, takes it away or gives it
another value, because each of the operations that could do so first asks whether the name is a constant, or
whether it is bound already.
-/

namespace Trellis

inductive ScopeOperation where
  | addRoot (file : Option Path)
  | addChild (parent : ScopeId)
  | declare (id : ScopeId) (name : String) (v : Value) (static : Bool)
  | assign (id : ScopeId) (name : String) (v : Value)
  | delete (id : ScopeId) (name : String)
  | link (id : ScopeId) (name : String) (root : ScopeId)
  | setAlias (id : ScopeId) (name remote : String)
  | expose (id : ScopeId) (name : String)
  | setFile (id : ScopeId) (file : Path)

namespace Scope

variable {a : Scope} {name other : String}

theorem binding?_bind (b : Binding) (h : other ≠ name) : (a.bind name b).binding? other = a.binding? other := by
  unfold binding? bind
  rw [List.find?_cons_of_neg (by simpa using Ne.symm h)]

theorem binding?_unbind (h : other ≠ name) : (a.unbind name).binding? other = a.binding? other := by
  have kept (entry : String × Binding) (hentry : (entry.1 == other) = true) : (entry.1 != name) = true := by
    rw [beq_iff_eq.mp hentry]
    exact bne_iff_ne.mpr h
  unfold binding? unbind
  rw [List.find?_filter]
  congr 2
  funext entry
  cases hentry : entry.1 == other with
  | false => simp
  | true => simp [kept entry hentry]

theorem binds_of_binding? {b : Binding} (h : a.binding? name = some b) : a.binds name = true := by
  unfold binds
  rw [h]
  rfl

theorem ne_of_not_binds {b : Binding} (free : a.binds name = false) (bound : a.binding? other = some b) :
    other ≠ name := by
  rintro rfl
  rw [binds_of_binding? bound] at free
  cases free

end Scope

namespace Scopes

variable {s s' : Scopes} {id i : ScopeId} {name : String} {v : Value}

/-! ## Carrying out operations -/

def attempt (s : Scopes) : ScopeOperation → Except Fault Scopes
  | .addRoot file => .ok (s.addRoot file).2
  | .addChild parent => .ok (s.addChild parent).2
  | .declare id name v static => s.declare id name v static
  | .assign id name v => s.assign id name v
  | .delete id name => s.delete id name
  | .link id name root => s.link id name root
  | .setAlias id name remote => .ok (s.setAlias id name remote)
  | .expose id name => .ok (s.expose id name)
  | .setFile id file => .ok (s.setFile id file)

def perform (s : Scopes) (op : ScopeOperation) : Scopes :=
  match s.attempt op with
  | .ok s' => s'
  | .error _ => s

def performAll (s : Scopes) (ops : List ScopeOperation) : Scopes :=
  ops.foldl perform s

theorem performAll_append (s : Scopes) (ops more : List ScopeOperation) :
    s.performAll (ops ++ more) = (s.performAll ops).performAll more :=
  List.foldl_append

theorem perform_of_ok {op : ScopeOperation} (h : s.attempt op = .ok s') : s.perform op = s' := by
  unfold perform
  rw [h]

theorem perform_of_error {op : ScopeOperation} {fault : Fault} (h : s.attempt op = .error fault) :
    s.perform op = s := by
  unfold perform
  rw [h]

/-! ## What a name refers to -/

/-- **A name resolves to a scope**, seen from another one, if that is the first scope that binds the name on
the way outwards. -/
inductive ResolvesTo (s : Scopes) (name : String) (owner : ScopeId) : ScopeId → Prop where
  | here (bound : (s.get owner).binds name = true) : ResolvesTo s name owner owner
  | outward {i parent} (free : (s.get i).binds name = false)
      (around : (s.get i).parent = some parent) (before : parent < i)
      (next : ResolvesTo s name owner parent) : ResolvesTo s name owner i

theorem owner?_eq_some_iff {owner : ScopeId} : s.owner? i name = some owner ↔ s.ResolvesTo name owner i := by
  induction i using Nat.strongRecOn with
  | ind i ih =>
    unfold owner?
    rw [chain]
    cases bound : (s.get i).binds name with
    | true =>
      -- the search ends at the first scope it comes to
      have first (rest : List ScopeId) : (i :: rest).find? (fun j => (s.get j).binds name) = some i :=
        List.find?_cons_of_pos bound
      have found : s.ResolvesTo name owner i ↔ some i = some owner := by
        constructor
        · rintro (_ | ⟨free, _⟩)
          · rfl
          · rw [bound] at free
            cases free
        · rintro ⟨⟩
          exact .here bound
      rw [found]
      cases (s.get i).parent with
      | none => rw [first]
      | some parent =>
        dsimp only
        split <;> rw [first]
    | false =>
      have skip (rest : List ScopeId) : (i :: rest).find? (fun j => (s.get j).binds name) =
          rest.find? fun j => (s.get j).binds name :=
        List.find?_cons_of_neg (by simpa using bound)
      cases around : (s.get i).parent with
      | none =>
        rw [skip]
        refine ⟨nofun, ?_⟩
        rintro (bound' | ⟨_, around', _⟩)
        · rw [bound] at bound'
          cases bound'
        · rw [around] at around'
          cases around'
      | some parent =>
        dsimp only
        split
        · rename_i before
          rw [skip]
          refine (ih parent before).trans ⟨.outward bound around before, ?_⟩
          rintro (bound' | ⟨_, around', _, next⟩)
          · rw [bound] at bound'
            cases bound'
          · rw [around] at around'
            cases around'
            exact next
        · rename_i behind
          rw [skip]
          refine ⟨nofun, ?_⟩
          rintro (bound' | ⟨_, around', before, _⟩)
          · rw [bound] at bound'
            cases bound'
          · rw [around] at around'
            cases around'
            exact absurd before behind

/-! ## Constants -/

structure IsConstant (s : Scopes) (id : ScopeId) (name : String) (v : Value) : Prop where
  bound : (s.get id).binding? name = some (.value v)
  static : (s.get id).isStatic name = true

namespace IsConstant

variable (h : s.IsConstant id name v) {other : String}

include h

theorem lt_size : id < s.all.size := by
  refine Nat.lt_of_not_le fun outside => ?_
  have blank : s.get id = {} := by
    unfold get
    rw [Array.getElem?_eq_none outside]
    rfl
  have bound := h.bound
  rw [blank] at bound
  cases bound

theorem push (scope : Scope) (count : Nat) :
    ({ all := s.all.push scope, aliasCount := count } : Scopes).IsConstant id name v := by
  constructor
  · rw [get_push scope count h.lt_size]
    exact h.bound
  · rw [get_push scope count h.lt_size]
    exact h.static

theorem modify {f : Scope → Scope}
    (bound : i = id → (f (s.get id)).binding? name = (s.get id).binding? name)
    (static : i = id → (s.get id).isStatic name = true → (f (s.get id)).isStatic name = true) :
    (s.modify i f).IsConstant id name v := by
  by_cases hi : id = i
  · subst hi
    constructor
    · rw [get_modify_self f h.lt_size, bound rfl]
      exact h.bound
    · rw [get_modify_self f h.lt_size]
      exact static rfl h.static
  · constructor
    · rw [get_modify_of_ne f hi]
      exact h.bound
    · rw [get_modify_of_ne f hi]
      exact h.static

theorem ne_of_free (hi : i = id) (free : (s.get i).binds other = false) : name ≠ other := by
  subst hi
  exact Scope.ne_of_not_binds free h.bound

theorem ne_of_variable (hi : i = id) (free : (s.get i).isStatic other = false) : name ≠ other := by
  subst hi
  rintro rfl
  rw [h.static] at free
  cases free

theorem declare {w : Value} {static : Bool} (ok : s.declare i other w static = .ok s') : s'.IsConstant id name v := by
  unfold Scopes.declare declareFault? at ok
  cases free : (s.get i).binds other with
  | true =>
    rw [free] at ok
    cases ok
  | false =>
    rw [free] at ok
    cases ok
    refine h.modify (fun hi => ?_) fun _ marked => ?_
    · cases static <;> exact Scope.binding?_bind _ (h.ne_of_free hi free)
    · cases static with
      | false => exact marked
      | true =>
        unfold Scope.isStatic at marked ⊢
        exact List.contains_iff_mem.mpr (.tail _ (List.contains_iff_mem.mp marked))

theorem assign {w : Value} (ok : s.assign i other w = .ok s') : s'.IsConstant id name v := by
  unfold Scopes.assign at ok
  cases hassignee : s.assignee i other with
  | error fault =>
    rw [hassignee] at ok
    cases ok
  | ok owner =>
    rw [hassignee] at ok
    cases ok
    refine h.modify (fun hi => ?_) fun _ marked => marked
    rw [Scope.binding?_rebind, if_neg (h.ne_of_variable hi (assignee_eq_ok hassignee).1)]

theorem delete (ok : s.delete i other = .ok s') : s'.IsConstant id name v := by
  unfold Scopes.delete at ok
  cases howner : s.owner? i other with
  | none =>
    rw [howner] at ok
    cases ok
  | some owner =>
    rw [howner] at ok
    dsimp only at ok
    cases free : (s.get owner).isStatic other with
    | true =>
      rw [free] at ok
      cases ok
    | false =>
      rw [free] at ok
      cases ok
      exact h.modify (fun hi => Scope.binding?_unbind (h.ne_of_variable hi free)) fun _ marked => marked

theorem link {root : ScopeId} (ok : s.link i other root = .ok s') : s'.IsConstant id name v := by
  obtain ⟨-, rfl⟩ | ⟨-, free, rfl⟩ := of_link ok
  · exact h.modify (fun _ => rfl) fun _ marked => marked
  · exact h.modify (fun hi => Scope.binding?_bind _ (h.ne_of_free hi free)) fun _ marked => marked

theorem setAlias (other remote : String) : (s.setAlias i other remote).IsConstant id name v := by
  have changed : (s.modify i fun scope =>
      { scope with aliases := (other, remote) :: scope.aliases }).IsConstant id name v :=
    h.modify (fun _ => rfl) fun _ marked => marked
  exact ⟨changed.bound, changed.static⟩

theorem expose (other : String) : (s.expose i other).IsConstant id name v := by
  refine h.modify (fun _ => ?_) fun _ marked => ?_
  · unfold Scope.expose
    split <;> rfl
  · unfold Scope.expose
    split <;> exact marked

theorem perform (op : ScopeOperation) : (s.perform op).IsConstant id name v := by
  cases hop : s.attempt op with
  | error fault =>
    rw [perform_of_error hop]
    exact h
  | ok s' =>
    -- only what succeeds changes anything, so in each case the checks of the operation were passed
    rw [perform_of_ok hop]
    cases op with
    | addRoot file => cases hop; exact h.push _ _
    | addChild parent => cases hop; exact h.push _ _
    | declare i other w static => exact h.declare hop
    | assign i other w => exact h.assign hop
    | delete i other => exact h.delete hop
    | link i other root => exact h.link hop
    | setAlias i other remote => cases hop; exact h.setAlias other remote
    | expose i other => cases hop; exact h.expose other
    | setFile i file => cases hop; exact h.modify (fun _ => rfl) fun _ marked => marked

theorem performAll (ops : List ScopeOperation) : (s.performAll ops).IsConstant id name v := by
  induction ops generalizing s with
  | nil => exact h
  | cons op rest ih => exact ih (h.perform op)

end IsConstant

theorem isConstant_of_declare (inside : id < s.all.size) (h : s.declare id name v true = .ok s') :
    s'.IsConstant id name v := by
  unfold declare at h
  split at h
  · cases h
  · cases h
    unfold addBinding
    constructor
    · rw [get_modify_self _ inside]
      simp [Scope.bind, Scope.binding?]
    · rw [get_modify_self _ inside]
      simp [Scope.isStatic]

/-- **A constant holds fast.** Its value is found in its scope, and whoever assigns to it or deletes it, be it
in its scope or in one inside of that, is told so, and nothing changes. -/
structure HoldsFast (s : Scopes) (id : ScopeId) (name : String) (v : Value) : Prop where
  lookup : s.lookup id name = .ok v
  static : (s.get id).isStatic name = true
  resolves : s.ResolvesTo name id id
  assign : ∀ i, s.ResolvesTo name id i → ∀ w,
    s.assign i name w = .error (.managing (.constantAssigned name)) ∧ s.perform (.assign i name w) = s
  delete : ∀ i, s.ResolvesTo name id i →
    s.delete i name = .error (.managing (.constantDeleted name)) ∧ s.perform (.delete i name) = s

namespace IsConstant

theorem assignee (h : s.IsConstant id name v) (hi : s.ResolvesTo name id i) :
    s.assignee i name = .error (.managing (.constantAssigned name)) := by
  unfold Scopes.assignee
  rw [owner?_eq_some_iff.mpr hi]
  exact if_pos h.static

theorem holdsFast (h : s.IsConstant id name v) : s.HoldsFast id name v where
  lookup := by
    unfold Scopes.lookup searchBound search
    dsimp only
    rw [h.bound]
  static := h.static
  resolves := .here (Scope.binds_of_binding? h.bound)
  assign i hi w := by
    have refused : s.assign i name w = .error (.managing (.constantAssigned name)) := by
      unfold Scopes.assign
      rw [h.assignee hi]
    exact ⟨refused, perform_of_error refused⟩
  delete i hi := by
    have refused : s.delete i name = .error (.managing (.constantDeleted name)) := by
      unfold Scopes.delete
      rw [owner?_eq_some_iff.mpr hi]
      exact if_pos h.static
    exact ⟨refused, perform_of_error refused⟩

end IsConstant

end Scopes

end Trellis
