import Mathlib.Data.List.Permutation
import Trellis.Proofs.Run.Grounded
import Trellis.Proofs.Scope.Assignment

/-!
# Parameters without arguments

A call makes a scope inside of the one that the function was declared in, and binds parameters there as far as there
are arguments. A parameter that gets none is a name like any other. As long as neither the scope of the call nor a
scope inside of it binds or imports the name, a reading gives what the name is where the function was declared, and
an assignment goes where it would go from there (`Evaluator.unsupplied_means`). So reading it is a fault if and only
if the name means nothing there.
-/

namespace Trellis

def Closure.Lacks (f : Closure) (given : Nat) (name : String) : Prop :=
  name ∈ f.params.drop given ∧ name ∉ f.params.take given

namespace Scopes

variable {s : Scopes} {name : String} {i outer beyond : ScopeId} {loaded : List (ModuleKey × ScopeId)}

/-- **A name has no meaning of its own up to a scope**: on the way outwards no scope binds it or imports it, and the
last one that is looked at is the given one. -/
inductive FreeUpTo (s : Scopes) (name : String) (outer : ScopeId) : ScopeId → Prop where
  | here (free : (s.get outer).binds name = false) (own : s.importer? outer name = none) : FreeUpTo s name outer outer
  | outward {i parent} (free : (s.get i).binds name = false) (own : s.importer? i name = none)
      (around : (s.get i).parent = some parent) (next : FreeUpTo s name outer parent) : FreeUpTo s name outer i

theorem FreeUpTo.lookup (grounded : s.Grounded loaded) (around : (s.get outer).parent = some beyond)
    (h : s.FreeUpTo name outer i) : s.lookup i name = s.lookup beyond name := by
  have step {i parent : ScopeId} (free : (s.get i).binds name = false) (own : s.importer? i name = none)
      (around : (s.get i).parent = some parent) : s.lookup i name = s.lookup parent name :=
    lookup_of_step grounded.wellFounded (search_around free own around)
  induction h with
  | here free own => exact step free own around
  | outward free own inside _ ih => exact (step free own inside).trans ih

theorem owner?_around (grounded : s.Grounded loaded) (free : (s.get i).binds name = false)
    (around : (s.get i).parent = some beyond) : s.owner? i name = s.owner? beyond name := by
  have before : beyond < i := grounded.parent i beyond around
  have passed : (s.get i).binds name ≠ true := ne_true_of_eq_false free
  unfold owner?
  rw [chain, around]
  simp only [before, dif_pos]
  exact List.find?_cons_of_neg passed

theorem FreeUpTo.assignee (grounded : s.Grounded loaded) (around : (s.get outer).parent = some beyond)
    (h : s.FreeUpTo name outer i) : s.assignee i name = s.assignee beyond name := by
  have owner : s.owner? i name = s.owner? beyond name := by
    induction h with
    | here free _ => exact owner?_around grounded free around
    | outward free _ inside _ ih => exact (owner?_around grounded free inside).trans ih
  rw [Scopes.assignee, owner, Scopes.assignee]

end Scopes

namespace Evaluator

variable {m m₀ : Machine} {f : Closure} {arguments : List Value} {name : String}

def entered (f : Closure) (m : Machine) : Machine :=
  (m.note (.called f)).enter (m.scopes.addChild f.scope)

/-- **What a call does before the body begins**: it makes a scope, and binds parameters to arguments. -/
def supply (f : Closure) (arguments : List Value) : Run Unit := fun m =>
  bindParams m.scopes.all.size f.params (spread m.heap f arguments) ((entered f m).moveTo m.current)

theorem free_bindParams {scope : ScopeId} {params : List String} {given : List Value}
    (other : name ∉ params.take given.length) (bound : bindParams scope params given m = .done () m₀) :
    (m₀.scopes.get scope).binds name = (m.scopes.get scope).binds name ∧
      (m₀.scopes.get scope).imports = (m.scopes.get scope).imports := by
  induction params generalizing given m with
  | nil => cases bound; exact ⟨rfl, rfl⟩
  | cons param params ih =>
    cases given with
    | nil => cases bound; exact ⟨rfl, rfl⟩
    | cons argument given =>
      obtain ⟨differs, later⟩ : name ≠ param ∧ name ∉ params.take given.length := by simpa using other
      unfold bindParams at bound
      rw [Action.bind_apply, Run.declare] at bound
      cases fault : m.scopes.declareFault? scope param with
      | some fault' => rw [fault] at bound; cases bound
      | none =>
        rw [fault] at bound
        obtain ⟨binds, imports⟩ := ih later bound
        rw [binds, imports, Scopes.addBinding]
        rcases m.scopes.get_modify scope _ scope with ⟨-, changed⟩ | kept
        · rw [changed]
          exact ⟨congrArg Option.isSome (Scope.binding?_bind _ differs), rfl⟩
        · rw [kept]
          exact ⟨rfl, rfl⟩

theorem get_entered (f : Closure) (m : Machine) : (entered f m).scopes.get m.scopes.all.size =
    { parent := some f.scope, file := (m.scopes.get f.scope).file } :=
  congrArg (Option.getD · ({} : Scope)) Array.getElem?_push_size

theorem free_supply (lacks : f.Lacks (spread m.heap f arguments).length name)
    (supplied : supply f arguments m = .done () m₀) :
    m₀.scopes.FreeUpTo name m.scopes.all.size m.scopes.all.size := by
  obtain ⟨binds, imports⟩ := free_bindParams lacks.2 supplied
  have free : (m₀.scopes.get m.scopes.all.size).binds name = false :=
    binds.trans (congrArg (Scope.binds · name) (get_entered f m))
  have alone : (m₀.scopes.get m.scopes.all.size).imports = [] :=
    imports.trans (congrArg Scope.imports (get_entered f m))
  exact .here free (congrArg (List.find? _) alone)

/-- **As the body goes on, the machine stays grounded**, and the scope of the call stays inside of the one that the
function was declared in. -/
theorem grounded_body (grounded : m.Grounded) (made : f ∈ m.heap.functions)
    (supplied : supply f arguments m = .done () m₀) {ev : Evaluator} (hev : ev.Follows) :
    (ev.statements .nil f.body.body (m₀.moveTo m.scopes.all.size)).Ends fun _ m₁ =>
      m₁.Grounded ∧ (m₁.scopes.get m.scopes.all.size).parent = some f.scope := by
  have noted := Machine.StaysGrounded.noted grounded rfl (.called f)
  have inside : (entered f m).Grounded :=
    (Machine.StaysGrounded.enterChild noted.grounded (grounded.functions f made)).grounded
  have bound := (doing_bindParams (V := ev) (W := ev) (E := .job ⟨0, .nil, [], [], 0, {}⟩) rfl m.scopes.all.size
    f.body f.params (spread m.heap f arguments) nofun).follows hev true (.inl rfl) ((entered f m).moveTo m.current)
  obtain ⟨m₁, before, rfl⟩ := bound.done supplied
  have there : m₁.current = m.scopes.all.size := before.current
  have begun (scope : ScopeId) : (m₁.moveTo scope).moveTo m.scopes.all.size = m₁ := there ▸ rfl
  refine (follows_statements (w := true) hev .nil f.body.body rfl _).imp fun _ m₂ body => ?_
  rw [begun] at body
  have stays := (Course.seq before body).staysGrounded inside fun _ => grounded.size_notMem_roots
  refine ⟨stays.grounded, (stays.parent _ inside.current).trans ?_⟩
  exact congrArg Scope.parent (get_entered f m)

/-- **What a parameter without an argument means.** When the body begins, the scope of the call neither binds nor
imports the name. At every moment from then on, wherever the name has no meaning of its own up to that scope, reading
it gives what it is where the function was declared, and assigning to it changes what would be changed from there. -/
theorem unsupplied_means (grounded : m.Grounded) (made : f ∈ m.heap.functions)
    (lacks : f.Lacks (spread m.heap f arguments).length name) (supplied : supply f arguments m = .done () m₀) :
    m₀.scopes.FreeUpTo name m.scopes.all.size m.scopes.all.size ∧
      ∀ stop depth, ((upTo stop depth).statements .nil f.body.body (m₀.moveTo m.scopes.all.size)).Ends fun _ m₁ =>
        ∀ inner, m₁.scopes.FreeUpTo name m.scopes.all.size inner →
          m₁.scopes.lookup inner name = m₁.scopes.lookup f.scope name ∧
            m₁.scopes.assignee inner name = m₁.scopes.assignee f.scope name := by
  refine ⟨free_supply lacks supplied, fun stop depth => ?_⟩
  refine (grounded_body grounded made supplied (follows_upTo stop depth)).imp fun _ m₁ stays inner free => ?_
  obtain ⟨grounded₁, around⟩ := stays
  exact ⟨free.lookup grounded₁.scopes around, free.assignee grounded₁.scopes around⟩

def ofTwo (body : ExprForm) : Closure :=
  ⟨.plain, "f", ["a", "b"], ⟨0, {}, [⟨0, {}, .expression ⟨{}, body⟩⟩]⟩, 0⟩

def beside (f : Closure) : Machine :=
  { scopes := { all := #[{ bindings := [("b", .value (.bool true))] }] }, heap := { functions := #[f] } }

theorem grounded_beside {f : Closure} (root : f.scope = 0) : (beside f).Grounded where
  scopes := Scopes.Grounded.empty.push _ rfl fun _ h => by cases h
  current := Nat.zero_lt_one
  functions g hg := by
    cases (List.mem_singleton.mp (Array.mem_def.mp hg) : g = f)
    exact root ▸ Nat.zero_lt_one
  jobs _ hjob := by cases hjob

/-- The function gets one argument and reads `b`. -/
theorem unsupplied_means_variable :
    ∃ m₀, supply (ofTwo (.name "b")) [.nil] (beside (ofTwo (.name "b"))) = .done () m₀ ∧
      (ofTwo (.name "b")).Lacks 1 "b" ∧ m₀.scopes.FreeUpTo "b" 1 1 ∧
      m₀.scopes.lookup 1 "b" = .ok (.bool true) :=
  have lacks : (ofTwo (.name "b")).Lacks 1 "b" := by unfold Closure.Lacks; decide
  have made : ofTwo (.name "b") ∈ #[].push (ofTwo (.name "b")) := Array.mem_push_self
  have means := unsupplied_means (grounded_beside rfl) made
    (show Closure.Lacks _ (spread _ _ [.nil]).length _ from lacks) rfl
  ⟨_, rfl, lacks, means.1, (means.2 (fun _ => true) 1 1 means.1).1⟩

/-- **A parameter without an argument is not always undeclared.** Where `b` is a variable around the function, reading
the parameter gives the value of the variable, and assigning to it changes the variable. -/
theorem unsupplied_captured :
    (∃ m', (ofDepth 4).callClosure (ofTwo (.name "b")) [.nil] (beside (ofTwo (.name "b"))) =
      .done (.bool true) m') ∧
    match (ofDepth 4).callClosure (ofTwo (.assign ⟨{}, .name "b"⟩ ⟨{}, .literal .nil⟩)) [.nil]
      (beside (ofTwo (.name "b"))) with
    | .done _ m' => m'.scopes.lookup 0 "b" = .ok .nil
    | _ => False := by
  refine ⟨⟨_, rfl⟩, ?_⟩
  cbv

end Evaluator

end Trellis
