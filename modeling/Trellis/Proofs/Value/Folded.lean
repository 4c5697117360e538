import Trellis.Machine
import Trellis.Proofs.Number.Folding
import Trellis.Proofs.Scope.Alike
import Trellis.Value.Member
import Trellis.Value.Operation

/-!
# Folded values

What is not a number has a value of its own, and no number that a script computes with is to be that. A value is
*folded* if this is so, and so are scopes, a heap and tasks if all values in them are. What scopes, arrays, objects,
tasks and operators do with folded values comes to folded values again. The machine that all this is part of is looked
at in `Trellis.Proofs.Run.Folded`.
-/

namespace Trellis

/-! ## Values -/

namespace Value

def Folded : Value → Prop
  | number x => x.isNaN = false
  | range first last => first.isNaN = false ∧ last.isNaN = false
  | _ => True

theorem folded_ofFloat (x : Float) : (ofFloat x).Folded := by
  unfold ofFloat
  cases h : x.isNaN with
  | true => trivial
  | false => exact h

theorem folded_ofNat (n : Nat) : (ofNat n).Folded :=
  Number.isNaN_ofNat n

theorem folded_getD {v? : Option Value} {other : Value} (h : ∀ v ∈ v?, v.Folded) (ho : other.Folded) :
    (v?.getD other).Folded := by
  cases v? with
  | none => exact ho
  | some v => exact h v rfl

variable {v : Value}

theorem Folded.same (h : v.Folded) (proper : v ≠ .nan) : v.same v = true := by
  cases v with
  | number x => exact Number.beq_self h
  | range first last =>
    show (first == first && last == last) = true
    rw [Number.beq_self h.1, Number.beq_self h.2]
    rfl
  | nan => exact absurd rfl proper
  | _ => simp [Value.same]

theorem Folded.equal (h : v.Folded) (proper : v ≠ .nan) : v.equal v = true := by
  have same := h.same proper
  cases v <;> exact same

end Value

open Value

/-! ## Heaps -/

variable {v : Value}

namespace Fields

def Folded (f : Fields Value) : Prop :=
  ∀ entry ∈ f.entries, entry.2.Folded

variable {f : Fields Value}

theorem Folded.insert (hf : f.Folded) (name : String) (hv : v.Folded) : (f.insert name v).Folded := by
  have put (entries : List (String × Value)) (h : ∀ entry ∈ entries, entry.2.Folded) :
      ∀ entry ∈ Fields.put name v entries, entry.2.Folded := by
    induction entries with
    | nil => simpa [Fields.put] using hv
    | cons first rest ih =>
      have later := ih fun entry hentry => h entry (.tail _ hentry)
      unfold Fields.put
      split
      · exact List.forall_mem_cons.mpr ⟨hv, fun entry hentry => h entry (.tail _ hentry)⟩
      · exact List.forall_mem_cons.mpr ⟨h first (.head _), later⟩
  exact put f.entries hf

theorem folded_ofList {entries : List (String × Value)} (h : ∀ entry ∈ entries, entry.2.Folded) :
    (ofList entries).Folded := by
  have more (f : Fields Value) (hf : f.Folded) :
      (entries.foldl (fun f entry => f.insert entry.1 entry.2) f).Folded := by
    induction entries generalizing f with
    | nil => exact hf
    | cons first rest ih =>
      exact ih (fun entry hentry => h entry (.tail _ hentry)) _ (hf.insert first.1 (h first (.head _)))
  exact more {} nofun

theorem Folded.get? (hf : f.Folded) (name : String) : ∀ v ∈ f.get? name, v.Folded := by
  intro v hv
  obtain ⟨entry, found, rfl⟩ := Option.map_eq_some_iff.mp hv
  exact hf entry (List.mem_of_find?_eq_some found)

end Fields

namespace Heap

structure Folded (h : Heap) : Prop where
  arrays : ∀ elements ∈ h.arrays, ∀ v ∈ elements, v.Folded
  objects : ∀ fields ∈ h.objects, fields.Folded

def Edit.Folded : Edit → Prop
  | append _ values => ∀ v ∈ values, v.Folded
  | dropLast _ => True
  | setElement _ _ v => v.Folded
  | setField _ _ v => v.Folded

def Reply.Folded : Reply → Prop
  | value v => v.Folded
  | array elements => ∀ v ∈ elements, v.Folded
  | edited v e => v.Folded ∧ e.Folded

variable {h : Heap}

theorem Folded.elements (hh : h.Folded) (ref : Ref) : ∀ v ∈ h.elements ref, v.Folded := by
  unfold Heap.elements
  cases found : h.arrays[ref]? with
  | none => exact nofun
  | some elements => exact hh.arrays elements (Array.mem_of_getElem? found)

theorem Folded.fields (hh : h.Folded) (ref : Ref) : (h.fields ref).Folded := by
  unfold Heap.fields
  cases found : h.objects[ref]? with
  | none => exact nofun
  | some fields => exact hh.objects fields (Array.mem_of_getElem? found)

theorem Folded.newArray (hh : h.Folded) {elements : Array Value} (he : ∀ v ∈ elements, v.Folded) :
    (h.newArray elements).2.Folded where
  arrays other hother := by
    rcases Array.mem_push.mp hother with before | rfl
    · exact hh.arrays other before
    · exact he
  objects := hh.objects

theorem Folded.newObject (hh : h.Folded) {fields : Fields Value} (hf : fields.Folded) :
    (h.newObject fields).2.Folded where
  arrays := hh.arrays
  objects other hother := by
    rcases Array.mem_push.mp hother with before | rfl
    · exact hh.objects other before
    · exact hf

theorem forall_mem_modify {α : Type} {P : α → Prop} {xs : Array α} {f : α → α} (i : Nat) (h : ∀ a ∈ xs, P a)
    (hf : ∀ a, P a → P (f a)) : ∀ a ∈ xs.modify i f, P a := by
  intro a ha
  obtain ⟨j, hj, rfl⟩ := Array.mem_iff_getElem.mp ha
  rw [Array.getElem_modify]
  split
  · exact hf _ (h _ (Array.getElem_mem _))
  · exact h _ (Array.getElem_mem _)

theorem Folded.apply (hh : h.Folded) {e : Edit} (he : e.Folded) : (h.apply e).Folded := by
  have array (ref : Ref) {f : Array Value → Array Value}
      (hf : ∀ elements : Array Value, (∀ v ∈ elements, v.Folded) → ∀ v ∈ f elements, v.Folded) :
      (h.modifyArray ref f).Folded :=
    ⟨forall_mem_modify ref hh.arrays hf, hh.objects⟩
  cases e with
  | append ref values =>
    refine array ref fun elements before v hv => ?_
    rw [List.foldl_push_eq_append'] at hv
    rcases Array.mem_append.mp hv with old | new
    · exact before v old
    · exact he v (List.mem_toArray.mp new)
  | dropLast ref =>
    refine array ref fun elements before v hv => before v (Array.mem_def.mpr ?_)
    exact List.dropLast_subset _ (Array.toList_pop ▸ Array.mem_def.mp hv)
  | setElement ref i v =>
    refine array ref fun elements before other hother => ?_
    rcases Array.mem_or_eq_of_mem_setIfInBounds hother with old | rfl
    · exact before other old
    · exact he
  | setField ref name v =>
    exact ⟨hh.arrays, forall_mem_modify ref hh.objects fun fields before => before.insert name he⟩

theorem Folded.take (hh : h.Folded) {r : Reply} (hr : r.Folded) : (h.take r).1.Folded ∧ (h.take r).2.Folded := by
  cases r with
  | value v => exact ⟨hr, hh⟩
  | array elements => exact ⟨trivial, hh.newArray hr⟩
  | edited v e => exact ⟨hr.1, hh.apply hr.2⟩

theorem Folded.newBuiltins (hh : h.Folded) (bs : List Builtin) :
    (∀ entry ∈ (h.newBuiltins bs).1, entry.2.Folded) ∧ (h.newBuiltins bs).2.Folded := by
  induction bs generalizing h with
  | nil => exact ⟨nofun, hh⟩
  | cons b rest ih =>
    obtain ⟨exports, built⟩ := ih (h := (h.newBuiltin b).2) ⟨hh.arrays, hh.objects⟩
    exact ⟨List.forall_mem_cons.mpr ⟨trivial, exports⟩, built⟩

end Heap

/-! ## Scopes and tasks -/

def Scope.Folded (s : Scope) : Prop :=
  ∀ name v, (name, Binding.value v) ∈ s.bindings → v.Folded

def Scopes.Folded (s : Scopes) : Prop :=
  ∀ scope ∈ s.all, scope.Folded

namespace Scopes

variable {s : Scopes} {id : ScopeId} {name : String} {v : Value} (hs : s.Folded)

include hs

theorem Folded.get (id : ScopeId) : (s.get id).Folded := by
  unfold Scopes.get
  cases found : s.all[id]? with
  | none => exact nofun
  | some scope => exact hs scope (Array.mem_of_getElem? found)

theorem Folded.search {bound : Nat} (found : s.search bound id name = .found v) : v.Folded := by
  induction bound generalizing id name with
  | zero => cases found
  | succ bound ih =>
    unfold Scopes.search at found
    dsimp only at found
    split at found
    · rename_i bound
      cases found
      obtain ⟨entry, held, value⟩ := Option.map_eq_some_iff.mp bound
      exact hs.get id entry.1 v (value ▸ List.mem_of_find?_eq_some held)
    · exact ih found
    · split at found
      · exact ih found
      · split at found
        · exact ih found
        · cases found

theorem Folded.lookup (found : s.lookup id name = .ok v) : v.Folded := by
  unfold Scopes.lookup at found
  split at found
  · rename_i ends
    cases found
    exact hs.search ends
  · cases found
  · cases found

theorem Folded.modify (id : ScopeId) {f : Scope → Scope} (hf : ∀ scope, scope.Folded → (f scope).Folded) :
    (s.modify id f).Folded :=
  Heap.forall_mem_modify id hs hf

theorem Folded.push {scope : Scope} (new : scope.bindings = []) : ∀ other ∈ s.all.push scope, other.Folded := by
  intro other hother
  rcases Array.mem_push.mp hother with before | rfl
  · exact hs other before
  · intro name v hv
    rw [new] at hv
    cases hv

theorem Folded.addBinding (id : ScopeId) (name : String) (hv : v.Folded) (static : Bool) :
    (s.addBinding id name v static).Folded := by
  refine hs.modify id fun scope before => ?_
  have bound : (scope.bind name (.value v)).Folded := by
    intro other w hw
    rcases List.mem_cons.mp hw with new | old
    · cases new
      exact hv
    · exact before other w old
  cases static <;> exact bound

theorem Folded.replace (id : ScopeId) (name : String) (hv : v.Folded) : (s.replace id name v).Folded := by
  refine hs.modify id fun scope before other w hw => ?_
  obtain ⟨entry, held, new⟩ := List.mem_map.mp hw
  split at new
  · cases new
    exact hv
  · exact before other w (new ▸ held)

theorem Folded.expose (id : ScopeId) (name : String) : (s.expose id name).Folded := by
  refine hs.modify id fun scope before => ?_
  unfold Scope.expose
  split <;> exact before

theorem Folded.setAlias (id : ScopeId) (name remote : String) : (s.setAlias id name remote).Folded :=
  hs.modify id (f := fun scope => { scope with aliases := (name, remote) :: scope.aliases }) fun _ before => before

theorem Folded.link {s' : Scopes} {root : ScopeId} (linked : s.link id name root = .ok s') : s'.Folded := by
  obtain ⟨-, rfl⟩ | ⟨-, -, rfl⟩ := of_link linked
  · exact hs.modify id fun _ before => before
  · refine hs.modify id fun scope before other w hw => ?_
    rcases List.mem_cons.mp hw with new | old
    · cases new
    · exact before other w old

theorem Folded.declareConstants (id : ScopeId) {exports : List (String × Value)}
    (he : ∀ entry ∈ exports, entry.2.Folded) : (s.declareConstants id exports).Folded := by
  induction exports generalizing s with
  | nil => exact hs
  | cons entry rest ih =>
    have later : ∀ entry ∈ rest, entry.2.Folded := fun entry hentry => he entry (.tail _ hentry)
    unfold Scopes.declareConstants Scopes.declare
    cases s.declareFault? id entry.1 with
    | some fault => exact ih hs later
    | none => exact ih (hs.addBinding id entry.1 (he entry (.head _)) true) later

end Scopes

/-- **A call that was put off is folded** if what is called and its arguments are. -/
def Job.Folded (job : Job) : Prop :=
  job.callee.Folded ∧ ∀ v ∈ job.arguments, v.Folded

structure TaskQueue.Folded (q : TaskQueue) : Prop where
  jobs : ∀ job ∈ q.jobs.toList, job.Folded
  results : ∀ v, some v ∈ q.results → v.Folded

namespace TaskQueue

variable {q : TaskQueue}

theorem Folded.schedule (hq : q.Folded) {job : Job} (hjob : job.Folded) : (q.reserve.2.push job).Folded where
  jobs other hother := by
    rcases List.mem_append.mp (Queue.toList_push _ _ ▸ hother) with before | new
    · exact hq.jobs other before
    · rw [List.mem_singleton.mp new]
      exact hjob
  results v hv := by
    rcases Array.mem_push.mp hv with before | new
    · exact hq.results v before
    · cases new

theorem Folded.pop? {rest : TaskQueue} {job : Job} (hq : q.Folded) (pop : q.pop? = some (job, rest)) :
    job.Folded ∧ rest.Folded := by
  obtain ⟨⟨_, _⟩, popped, same⟩ := Option.map_eq_some_iff.mp pop
  cases same
  have all := Queue.toList_of_pop? popped
  exact ⟨hq.jobs job (all ▸ .head _), fun other hother => hq.jobs other (all ▸ .tail _ hother), hq.results⟩

theorem Folded.result? (hq : q.Folded) {task : TaskId} (found : q.result? task = some v) : v.Folded := by
  unfold TaskQueue.result? at found
  exact hq.results v (Array.mem_of_getElem? (Option.join_eq_some_iff.mp found))

theorem Folded.resolve (hq : q.Folded) (task : TaskId) (hv : v.Folded) : (q.resolve task v).Folded where
  jobs := hq.jobs
  results w hw := by
    rcases Array.mem_or_eq_of_mem_setIfInBounds hw with old | new
    · exact hq.results w old
    · cases new
      exact hv

theorem Folded.clear (hq : q.Folded) : q.clear.Folded :=
  ⟨nofun, hq.results⟩

end TaskQueue

def Registry.Folded (r : Registry) : Prop :=
  ∀ name exports, (name, BuiltinModule.values exports) ∈ r.modules → ∀ entry ∈ exports, entry.2.Folded

theorem Registry.Folded.build? {r : Registry} (hr : r.Folded) {h heap : Heap} (hh : h.Folded) {name : String}
    {now : Int} {exports : List (String × Value)} (built : r.build? name now h = some (exports, heap)) :
    (∀ entry ∈ exports, entry.2.Folded) ∧ heap.Folded := by
  obtain ⟨⟨key, m⟩, found, same⟩ := Option.map_eq_some_iff.mp built
  have made : (∀ entry ∈ (make now h m).1, entry.2.Folded) ∧ (make now h m).2.Folded := by
    cases m with
    | dates => exact Heap.Folded.newBuiltins (h := (h.newAnchor now).2) ⟨hh.arrays, hh.objects⟩ _
    | values given => exact ⟨hr key given (List.mem_of_find?_eq_some found), hh⟩
    | _ => exact hh.newBuiltins _
  rw [same] at made
  exact made

/-! ## Operations -/

theorem Operation.folded_arithmetic {h : Heap} {operator : Arithmetic} {left right v : Value}
    (computed : arithmetic h operator left right = .ok v) : v.Folded := by
  have numbers {operator : Arithmetic} {left : Value}
      (computed : arithmeticOnNumbers h operator left right = .ok v) : v.Folded := by
    unfold arithmeticOnNumbers at computed
    split at computed
    · cases computed
      exact folded_ofFloat _
    · cases computed
  unfold arithmetic at computed
  split at computed
  · cases computed
    trivial
  · split at computed
    · exact numbers computed
    · cases computed
  · exact numbers computed

theorem Operation.folded_compare {h : Heap} {operator : Comparison} {left right v : Value}
    (compared : compare h operator left right = .ok v) : v.Folded := by
  unfold compare at compared
  split at compared <;> cases compared <;> trivial

namespace Member

variable {h : Heap}

theorem folded_charAt? {s : String} {i : Nat} (hv : charAt? s i = some v) : v.Folded := by
  obtain ⟨c, -, rfl⟩ := Option.map_eq_some_iff.mp hv
  trivial

theorem folded_read (hh : h.Folded) {receiver key v : Value} (given : read h receiver key = .ok v) : v.Folded := by
  unfold read at given
  dsimp only at given
  split at given
  · split at given <;> cases given
    exact folded_ofNat _
  · split at given <;> cases given
    exact folded_ofNat _
  · cases given
    refine folded_getD (fun v hv => ?_) trivial
    obtain ⟨i, -, hv⟩ := Option.bind_eq_some_iff.mp hv
    exact folded_charAt? hv
  · cases given
    refine folded_getD (fun v hv => ?_) trivial
    obtain ⟨i, -, hv⟩ := Option.bind_eq_some_iff.mp hv
    exact hh.elements _ v (Array.mem_of_getElem? hv)
  · cases given
    exact folded_getD ((hh.fields _).get? _) trivial
  · cases given

def Gives (r : Except MemberFault Heap.Reply) : Prop :=
  ∀ reply, r = .ok reply → reply.Folded

theorem gives_pure {r : Heap.Reply} (hr : r.Folded) : Gives (pure r) := by
  rintro _ ⟨⟩
  exact hr

theorem gives_bind {α : Type} {x : Except MemberFault α} {f : α → Except MemberFault Heap.Reply}
    (hf : ∀ a, Gives (f a)) : Gives (x >>= f) := by
  cases x with
  | error fault => exact nofun
  | ok a => exact hf a

theorem folded_positionOrNone (i : Option Nat) : (positionOrNone i).Folded := by
  cases i with
  | none => exact (by decide : (-1 : Float).isNaN = false)
  | some i => exact folded_ofNat i

theorem gives_replyOfText (s name : String) (arguments : List Value) : Gives (replyOfText h s name arguments) := by
  unfold replyOfText
  split
  all_goals first
    | exact gives_pure trivial
    | refine gives_bind fun _ => gives_pure ?_
    | exact nofun
  all_goals try trivial
  · -- the parts of a text
    intro v hv
    obtain ⟨part, -, rfl⟩ := List.mem_map.mp (List.mem_toArray.mp hv)
    trivial
  · exact folded_positionOrNone _
  · show Value.Folded (ite _ _ _)
    split
    · trivial
    · exact folded_getD (fun _ => folded_charAt?) trivial

theorem gives_replyOfArray (hh : h.Folded) (ref : Ref) (name : String) {arguments : List Value}
    (ha : ∀ v ∈ arguments, v.Folded) : Gives (replyOfArray h ref name arguments) := by
  have elements := hh.elements ref
  unfold replyOfArray
  dsimp only
  split
  · exact gives_pure ⟨folded_ofNat _, ha⟩
  · exact gives_pure ⟨folded_getD (fun v hv => elements v (Array.mem_of_back? hv)) trivial, trivial⟩
  · exact gives_pure trivial
  · exact gives_pure trivial
  · exact gives_pure (folded_positionOrNone _)
  · refine gives_bind fun _ => gives_pure fun v hv => ?_
    obtain ⟨i, hi, rfl⟩ := Array.mem_iff_getElem.mp hv
    rw [Array.getElem_extract]
    exact elements _ (Array.getElem_mem _)
  · exact nofun

theorem gives_replyOfObject (hh : h.Folded) (ref : Ref) (name : String) (arguments : List Value) :
    Gives (replyOfObject h ref name arguments) := by
  unfold replyOfObject
  dsimp only
  split
  · refine gives_pure fun v hv => ?_
    obtain ⟨key, -, rfl⟩ := List.mem_map.mp (List.mem_toArray.mp hv)
    trivial
  · refine gives_pure fun v hv => ?_
    obtain ⟨entry, held, rfl⟩ := List.mem_map.mp (List.mem_toArray.mp hv)
    exact hh.fields ref entry held
  · exact gives_pure trivial
  · exact nofun

theorem folded_reply (hh : h.Folded) {receiver : Value} {name : String} {arguments : List Value} {r : Heap.Reply}
    (ha : ∀ v ∈ arguments, v.Folded) (replied : reply h receiver name arguments = .ok r) : r.Folded := by
  unfold reply at replied
  split at replied
  · exact gives_replyOfText _ _ _ _ replied
  · exact gives_replyOfArray hh _ _ ha _ replied
  · exact gives_replyOfObject hh _ _ _ _ replied
  · cases replied

theorem folded_edit {receiver key v : Value} {e : Heap.Edit} (hv : v.Folded) (edited : edit h receiver key v = .ok e) :
    e.Folded := by
  unfold edit at edited
  split at edited
  · cases edited
    exact hv
  · split at edited
    · dsimp only at edited
      split at edited
      · cases edited
        exact hv
      · split at edited
        · cases edited
          exact List.forall_mem_singleton.mpr hv
        · cases edited
    · cases edited
  · cases edited

end Member

end Trellis
