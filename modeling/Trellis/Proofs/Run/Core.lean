import Trellis.Evaluation
import Trellis.Proofs.Script.Core

/-!
# The core of a machine

A machine holds code in the functions on its heap, in the continuations of the jobs that wait, and in the journal. It
holds places of a script in the faults that it recorded and in its jobs. The *core* of a machine is what is left of
it when all this code is replaced by its core and all places are given up. What a run reads of a machine is in its
core, and what it does to a machine can be done before or after the core is taken.
-/

namespace Trellis

/-! ## Faults -/

def Fault.core (f : Fault) : Fault :=
  { f with span := f.span.map nowhere }

theorem Fault.core_located (f : Fault) (span : Span) : (f.located span).core = f.core.located {} := by
  obtain ⟨stage, cause, place, file, hint⟩ := f
  cases place <;> rfl

theorem Fault.core_inFile (f : Fault) (file : Option Path) : (f.inFile file).core = f.core.inFile file := rfl

def FaultLog.core (log : FaultLog) : FaultLog :=
  ⟨log.faults.map Fault.core⟩

theorem FaultLog.core_record (log : FaultLog) (f : Fault) : (log.record f).core = log.core.record f.core := by
  simp only [FaultLog.core, FaultLog.record, List.map_append, List.map_cons, List.map_nil]

theorem FaultLog.core_surface (log : FaultLog) (f : Fault) : (log.surface f).core = log.core.surface f.core := by
  obtain ⟨faults⟩ := log
  cases faults <;> rfl

/-! ## The heap -/

def Closure.core (f : Closure) : Closure :=
  { f with body := f.body.core nowhere }

theorem Closure.core_core (f : Closure) : f.core.core = f.core :=
  congrArg (fun body => { f with body }) f.body.core_core

namespace Heap

def core (h : Heap) : Heap :=
  { h with functions := h.functions.map Closure.core }

theorem getElem?_functions_core (h : Heap) (ref : Ref) :
    h.core.functions[ref]? = (h.functions[ref]?).map Closure.core :=
  Array.getElem?_map

@[simp] theorem elements_core (h : Heap) (ref : Ref) : h.core.elements ref = h.elements ref := rfl

@[simp] theorem fields_core (h : Heap) (ref : Ref) : h.core.fields ref = h.fields ref := rfl

@[simp] theorem tag_core (h : Heap) (v : Value) : h.core.tag v = h.tag v := by
  cases v with
  | function ref =>
    simp only [tag, getElem?_functions_core]
    cases h.functions[ref]? <;> rfl
  | _ => rfl

theorem functionText_core (h : Heap) (ref : Ref) : h.core.functionText ref = h.functionText ref := by
  unfold functionText
  rw [getElem?_functions_core]
  cases h.functions[ref]? <;> rfl

theorem textTo_core (h : Heap) (depth : Nat) : h.core.textTo depth = h.textTo depth := by
  induction depth with
  | zero => rfl
  | succ depth ih =>
    funext v
    cases v with
    | function ref => exact functionText_core h ref
    | _ => simp only [textTo, ih, elements_core, fields_core] <;> rfl

@[simp] theorem text_core (h : Heap) : h.core.text = h.text := by
  funext v
  exact congrFun (textTo_core h _) v

theorem core_newFunction (h : Heap) (f : Closure) :
    (h.newFunction f).1 = (h.core.newFunction f.core).1 ∧
      (h.newFunction f).2.core = (h.core.newFunction f.core).2 := by
  constructor
  · exact congrArg Value.function Array.size_map.symm
  · simp only [newFunction, core, Array.map_push]

theorem core_apply (h : Heap) (e : Edit) : (h.apply e).core = h.core.apply e := by
  cases e <;> rfl

theorem core_take (h : Heap) (r : Reply) : h.core.take r = ((h.take r).1, (h.take r).2.core) := by
  cases r with
  | value v => rfl
  | array elements => rfl
  | edited v e => exact congrArg (Prod.mk v) (core_apply h e).symm

theorem core_newBuiltins (h : Heap) (bs : List Builtin) :
    h.core.newBuiltins bs = ((h.newBuiltins bs).1, (h.newBuiltins bs).2.core) := by
  induction bs generalizing h with
  | nil => rfl
  | cons b rest ih =>
    have next := ih (h.newBuiltin b).2
    simp only [newBuiltins]
    rw [show (h.core.newBuiltin b).2 = (h.newBuiltin b).2.core from rfl, next]
    rfl

end Heap

theorem Registry.make_core (now : Int) (h : Heap) (b : BuiltinModule) :
    Registry.make now h.core b = ((Registry.make now h b).1, (Registry.make now h b).2.core) := by
  cases b with
  | dates => exact Heap.core_newBuiltins (h.newAnchor now).2 _
  | values exports => rfl
  | _ => exact Heap.core_newBuiltins h _

theorem Registry.build?_core (r : Registry) (name : String) (now : Int) (h : Heap) :
    r.build? name now h.core = (r.build? name now h).map fun built => (built.1, built.2.core) := by
  unfold Registry.build?
  rw [Option.map_map]
  exact Option.map_congr fun entry _ => Registry.make_core now h entry.2

namespace Member

theorem read_core (h : Heap) (receiver key : Value) : read h.core receiver key = read h receiver key := by
  simp only [read, Heap.text_core, Heap.tag_core, Heap.elements_core, Heap.fields_core]

theorem edit_core (h : Heap) (receiver key value : Value) :
    edit h.core receiver key value = edit h receiver key value := by
  simp only [edit, Heap.text_core, Heap.tag_core, Heap.elements_core]
  rfl

theorem textArgument_core (h : Heap) (arguments : List Value) (i : Nat) (method : String) :
    textArgument h.core arguments i method = textArgument h arguments i method := by
  simp only [textArgument, Heap.tag_core]

theorem position?_core (h : Heap) (arguments : List Value) (i : Nat) (method : String) :
    position? h.core arguments i method = position? h arguments i method := by
  simp only [position?, Heap.tag_core]

theorem sliceBounds_core (h : Heap) (arguments : List Value) (length : Nat) (method : String) :
    sliceBounds h.core arguments length method = sliceBounds h arguments length method := by
  simp only [sliceBounds, position?_core]

theorem reply_core (h : Heap) (receiver : Value) (name : String) (arguments : List Value) :
    reply h.core receiver name arguments = reply h receiver name arguments := by
  cases receiver with
  | text s =>
    simp only [reply, replyOfText, textArgument_core, position?_core, sliceBounds_core, Heap.text_core]
  | array ref =>
    simp only [reply, replyOfArray, sliceBounds_core, Heap.text_core, Heap.elements_core]
  | object ref => simp only [reply, replyOfObject, Heap.text_core, Heap.fields_core]
  | _ => simp only [reply, Heap.tag_core]

end Member

namespace Operation

theorem arithmetic_core (h : Heap) (operator : Arithmetic) (left right : Value) :
    arithmetic h.core operator left right = arithmetic h operator left right := by
  simp only [arithmetic, arithmeticOnNumbers, Heap.text_core, Heap.tag_core]

theorem compare_core (h : Heap) (operator : Comparison) (left right : Value) :
    compare h.core operator left right = compare h operator left right := by
  simp only [compare, Heap.tag_core]

end Operation

/-! ## Tasks -/

def Job.core (job : Job) : Job :=
  { job with continuations := Continuation.coreOf nowhere job.continuations, span := nowhere job.span }

def TaskQueue.core (q : TaskQueue) : TaskQueue :=
  { q with jobs := ⟨q.jobs.front.map Job.core, q.jobs.back.map Job.core⟩ }

theorem TaskQueue.pop?_core (q : TaskQueue) :
    q.core.pop? = q.pop?.map fun popped => (popped.1.core, popped.2.core) := by
  obtain ⟨⟨front, back⟩, results, pending⟩ := q
  cases front with
  | cons job rest => rfl
  | nil =>
    simp only [TaskQueue.core, TaskQueue.pop?, Queue.pop?, List.map_nil, ← List.map_reverse]
    cases back.reverse <;> rfl

theorem TaskQueue.core_clear (q : TaskQueue) : q.clear.core = q.core.clear := rfl

/-! ## The journal and the machine -/

def Event.core : Event → Event
  | .scheduled task => .scheduled task
  | .started task => .started task
  | .resolved task v => .resolved task v
  | .moduleRead path program => .moduleRead path program
  | .called f => .called f.core

def Machine.core (m : Machine) : Machine :=
  { m with
    heap := m.heap.core
    tasks := m.tasks.core
    log := m.log.core
    journal := m.journal.map Event.core }

theorem Machine.core_addPrelude (m : Machine) (root : ScopeId) :
    (m.addPrelude root).core = m.core.addPrelude root := by
  have built := m.registry.build?_core "global" m.clock.now m.heap
  unfold Machine.addPrelude
  rw [show m.core.registry.build? "global" m.core.clock.now m.core.heap = _ from built]
  cases m.registry.build? "global" m.clock.now m.heap <;> rfl

theorem Machine.observer_addPrelude (m : Machine) (root : ScopeId) : (m.addPrelude root).observer = m.observer := by
  unfold Machine.addPrelude
  cases m.registry.build? "global" m.clock.now m.heap <;> rfl

end Trellis
