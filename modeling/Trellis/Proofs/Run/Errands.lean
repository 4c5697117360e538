import Trellis.Proofs.Run.Agreement
import Trellis.Proofs.Run.Beside
import Trellis.Proofs.Run.Folds
import Trellis.Proofs.Script.Nodes

/-!
# What evaluation is made of

Most of evaluation is the same for whatever is to be told of a run: operands are evaluated from left to right, lists
are gone through, one thing is done behind another. Here all parts of evaluation are gone through once, and it is told
of what pieces they are made (`Errand.Doing`). What holds of the pieces, and of two pieces in a row, then holds of
evaluation.

An *errand* is what is being done at a time: an expression is evaluated, a statement is performed, statements are
executed in a row, a job is done, or the jobs are done that are left. An errand has to do with the code of some nodes
(`Errand.Has`), and it raises faults at some places (`Errand.Marks`). Most pieces are *still* (`Run.IsStill`): they
change nothing but arrays, objects, files and the clock's anchors.

Two evaluators that do the same errand do it by the same pieces, up to where they go back to themselves. So what
evaluation is made of is told of two evaluators at a time.
-/

namespace Trellis

/-! ## Faults -/

def Fault.IsAt (f : Fault) (span : Span) : Prop :=
  f.file = none ∧ f.span.getD span = span

/-- Does a cause speak of values, names and modules, and not of the form of a script? -/
def Cause.isOfRunning : Cause → Bool
  | scan _ => false
  | unexpected _ => false
  | expected _ _ => false
  | notExposable => false
  | invalidTarget => false
  | notRunnable => false
  | openTemplate => false
  | emptySlot => false
  | notDeclared _ => true
  | alreadyDeclared _ => true
  | constantAssigned _ => true
  | importAssigned _ => true
  | constantDeleted _ => true
  | notCondition _ => true
  | notIterable _ => true
  | notNegatable _ => true
  | badBounds _ _ => true
  | badOperands _ _ _ => true
  | incomparable _ _ _ => true
  | notCallback _ => true
  | notFilterResult _ => true
  | tooFewArguments _ _ _ => true
  | notCallable _ => true
  | neverResolved => true
  | outOfBounds _ _ => true
  | notAssignable _ _ => true
  | member _ => true
  | library _ => true
  | noModule _ => true
  | cyclicImport _ => true
  | unreadableModule _ _ => true
  | ended => true
  | reported _ => false

/-- **A fault that a script which was read can have**: one of running has a cause of running. -/
def Fault.IsProper (f : Fault) : Prop :=
  f.stage = .running → f.cause.isOfRunning = true

variable {cause : Cause}

namespace Fault

/-- A fault at a place that a script which was read can have. -/
structure IsPlain (f : Fault) (span : Span) : Prop where
  isAt : f.IsAt span
  isProper : f.IsProper

variable {span : Span}

theorem isProper_managing (cause : Cause) : (managing cause).IsProper := by
  rintro ⟨⟩

theorem isProper_running (h : cause.isOfRunning = true) (span : Span) : (running cause span).IsProper :=
  fun _ => h

theorem isPlain_managing (cause : Cause) : (managing cause).IsPlain span :=
  ⟨⟨rfl, rfl⟩, isProper_managing cause⟩

theorem isPlain_running (h : cause.isOfRunning = true) : (running cause span).IsPlain span :=
  ⟨⟨rfl, rfl⟩, isProper_running h span⟩

theorem isPlain_notDeclared (name : String) : (notDeclared name).IsPlain span :=
  ⟨⟨rfl, rfl⟩, fun _ => rfl⟩

theorem IsPlain.suggest {f : Fault} (h : f.IsPlain span) (m : Machine) (name : String) :
    (m.suggest name f).IsPlain span := by
  unfold Machine.suggest
  split
  · split
    · exact ⟨h.isAt, h.isProper⟩
    · exact h
  · exact h

end Fault

namespace Scopes

variable {s : Scopes} {id : ScopeId} {name : String} {fault : Fault} {span : Span}

theorem isPlain_of_declareFault? (span : Span) (h : s.declareFault? id name = some fault) : fault.IsPlain span := by
  unfold declareFault? at h
  split at h
  · cases h
    exact Fault.isPlain_managing _
  · cases h

theorem isPlain_of_lookup (h : s.lookup id name = .error fault) : fault.IsPlain span := by
  unfold lookup at h
  split at h
  · cases h
  · cases h
    exact Fault.isPlain_notDeclared _
  · cases h
    exact Fault.isPlain_notDeclared _

theorem isPlain_of_assignee (span : Span) (h : s.assignee id name = .error fault) : fault.IsPlain span := by
  unfold assignee at h
  split at h
  · cases h
    exact Fault.isPlain_notDeclared _
  · dsimp only at h
    split at h
    · cases h
      exact Fault.isPlain_managing _
    · split at h
      · cases h
        exact Fault.isPlain_managing _
      · cases h

end Scopes

/-! ## Pieces that leave code alone -/

/-- **A change that is no concern of code**: it is quiet, and the log and the observer stay as they are. -/
structure Machine.Still (m m' : Machine) : Prop extends m.Quiet m' where
  log : m'.log = m.log
  observer : m'.observer = m.observer

namespace Machine.Still

theorem refl (m : Machine) : m.Still m :=
  ⟨.refl m, rfl, rfl⟩

theorem trans {m m₁ m₂ : Machine} (h₁ : m.Still m₁) (h₂ : m₁.Still m₂) : m.Still m₂ :=
  ⟨h₁.toQuiet.trans h₂.toQuiet, h₂.log.trans h₁.log, h₂.observer.trans h₁.observer⟩

theorem heap (m : Machine) {heap : Heap} (functions : heap.functions = m.heap.functions) : m.Still { m with heap } :=
  ⟨⟨rfl, rfl, rfl, rfl, rfl, functions, rfl, rfl, rfl⟩, rfl, rfl⟩

end Machine.Still

def Outcome.Still {α : Type} (span : Span) (m : Machine) : Outcome Machine α → Prop
  | .done _ m' => m.Still m'
  | .failed f m' => m.Still m' ∧ f.IsPlain span
  | .exhausted => True

/-- **An action that leaves code alone**, that no observer can tell, and that does not depend on the layout of code. It
is told at what place it fails. Or else it is told what the action comes to: it folds. -/
structure Run.IsStill {α : Type} (k : Prop) (P : α → Prop) (x : Span → Run α) : Prop where
  still : ¬ k → ∀ span m, (x span m).Still span m
  blind : ¬ k → ∀ span, IsBlind (x span)
  agrees : ¬ k → ∀ span span', Agrees (x span) (x span')
  folds : k → ∀ span, Folds P (x span)

open Run

namespace Run.IsStill

variable {α β : Type} {k : Prop} {P : α → Prop} {Q : β → Prop}

theorem pure {a : α} (h : k → P a) : IsStill k P fun _ => (Pure.pure a : Run α) :=
  ⟨fun _ _ m => .refl m, fun _ _ => .pure a, fun _ _ _ => .pure a, fun hk _ => .pure (h hk)⟩

theorem read {f : Machine → α} (seen : ∀ (m : Machine) o t, f (m.seenBy o t) = f m)
    (core : ∀ m : Machine, f m.core = f m) (h : k → ∀ m, m.Folded → P (f m)) : IsStill k P fun _ => Action.read f :=
  ⟨fun _ _ m => .refl m, fun _ _ => .read seen, fun _ _ _ => .readCore core, fun hk _ => .read (h hk)⟩

theorem seen {f : Machine → α} (seen : ∀ (m : Machine) o t, f (m.seenBy o t) = f m)
    (core : ∀ m : Machine, f m.core = f m) : IsStill k (fun _ => True) fun _ => Action.read f :=
  read seen core fun _ _ _ => trivial

theorem textOf (v : Value) : IsStill k (fun _ => True) fun _ => Run.textOf v :=
  seen (fun _ _ _ => rfl) fun m => congrFun m.heap.text_core v

theorem tagOf (v : Value) : IsStill k (fun _ => True) fun _ => Run.tagOf v :=
  seen (fun _ _ _ => rfl) fun m => m.heap.tag_core v

theorem fail (h : cause.isOfRunning = true) : IsStill k P (Run.fail cause : Span → Run α) :=
  ⟨fun _ _ m => ⟨.refl m, Fault.isPlain_running h⟩, fun _ => .fail cause, fun _ => .fail cause, fun _ => .fail cause⟩

theorem alloc {f : Heap → α × Heap} (h : ∀ heap, (f heap).2.functions = heap.functions)
    (core : ∀ heap, f heap.core = ((f heap).1, (f heap).2.core))
    (folds : k → ∀ h, h.Folded → (f h).2.Folded ∧ P (f h).1) : IsStill k P fun _ => Run.alloc f :=
  ⟨fun _ _ m => .heap m (h m.heap), fun _ _ => .alloc f, fun _ _ _ => .alloc core, fun hk _ => .alloc (folds hk)⟩

theorem bind {x : Span → Run α} {f : α → Span → Run β} (hx : IsStill k P x)
    (hf : ∀ a, (k → P a) → IsStill k Q (f a)) : IsStill k Q fun span => x span >>= fun a => f a span := by
  have any (none : ¬ k) (a : α) := hf a fun hk => absurd hk none
  refine ⟨fun none span m => ?_, fun none span => (hx.blind none span).bind fun a => (any none a).blind none span,
    fun none span span' => (hx.agrees none span span').bind fun a => (any none a).agrees none span span',
    fun hk span => (hx.folds hk span).bind fun a ha => (hf a fun _ => ha).folds hk span⟩
  have first := hx.still none span m
  rw [Action.bind_apply]
  cases hs : x span m with
  | exhausted => trivial
  | failed fault m₁ => rw [hs] at first; exact first
  | done a m₁ =>
    rw [hs] at first
    have second := (any none a).still none span m₁
    dsimp only
    cases hnext : f a span m₁ with
    | exhausted => trivial
    | done b m₂ => rw [hnext] at second; exact first.trans second
    | failed fault m₂ => rw [hnext] at second; exact ⟨first.trans second.1, second.2⟩

end Run.IsStill

namespace Library

variable {α : Type} {k : Prop}

theorem isStill_settle (x : Except LibraryFault α) : IsStill k (fun _ => True) (settle · x) := by
  cases x with
  | ok a => exact .pure fun _ => trivial
  | error fault => exact .fail rfl

theorem isStill_files : IsStill k (fun _ => True) fun _ => Action.read (·.files) :=
  .seen (fun _ _ _ => rfl) fun _ => rfl

theorem isStill_changeFiles (f : FileFunction) (path : Path) (change : FileTree → Except FileFault FileTree) :
    IsStill k Value.Folded (changeFiles f path · change) := by
  refine .bind isStill_files fun files _ => .bind (isStill_settle _) fun files _ => .bind (P := fun _ => True) ?_
    fun _ _ => .pure fun _ => trivial
  exact ⟨fun _ _ m => ⟨⟨rfl, rfl, rfl, rfl, rfl, rfl, rfl, rfl, rfl⟩, rfl, rfl⟩,
    fun _ _ => .change fun _ _ _ => ⟨rfl, rfl, rfl, rfl⟩, fun _ _ _ => .changeCore (fun _ => rfl) fun _ => rfl,
    fun _ _ => .change fun _ hm => hm.same⟩

theorem folded_infoFields (node : FileNode) (time : Int) : (infoFields node (.number (Float.ofInt time))).Folded := by
  have known : Value.Folded (.number (Float.ofInt time)) := Number.isNaN_ofInt time
  refine Fields.folded_ofList ?_
  simp only [List.forall_mem_cons]
  exact ⟨Value.folded_ofNat _, known, known, known, trivial, trivial, trivial, trivial, nofun⟩

theorem isStill_callFile (f : FileFunction) (arguments : List Value) :
    IsStill k Value.Folded (callFile f arguments) := by
  refine .bind (isStill_settle _) fun raw _ => .bind (.seen (fun _ _ _ => rfl) fun _ => rfl) fun file _ => ?_
  cases f with
  | read => exact .bind isStill_files fun _ _ => .bind (isStill_settle _) fun _ _ => .pure fun _ => trivial
  | write => exact .bind (.textOf _) fun content _ => isStill_changeFiles _ _ _
  | «exists» => exact .bind isStill_files fun _ _ => .pure fun _ => trivial
  | delete => exact isStill_changeFiles _ _ _
  | makeDirectory => exact isStill_changeFiles _ _ _
  | deleteDirectory => exact isStill_changeFiles _ _ _
  | info =>
    exact .bind isStill_files fun _ _ => .bind (isStill_settle _) fun _ _ =>
      .bind (.seen (fun _ _ _ => rfl) fun _ => rfl) fun time _ => .alloc (fun _ => rfl) (fun _ => rfl)
        fun _ h hh => ⟨hh.newObject (folded_infoFields _ time), trivial⟩

theorem isStill_callPath (f : PathFunction) (arguments : List Value) :
    IsStill k Value.Folded (callPath f arguments) := by
  refine .bind (.seen (fun _ _ _ => rfl) fun _ => rfl) fun file _ => ?_
  cases f with
  | file =>
    refine .pure fun _ => Value.folded_getD (fun v hv => ?_) trivial
    obtain ⟨name, -, rfl⟩ := Option.map_eq_some_iff.mp hv
    trivial
  | directory => exact .pure fun _ => trivial
  | «extension» => exact .pure fun _ => trivial
  | resolve => exact .bind (isStill_settle _) fun _ _ => .bind isStill_files fun _ _ => .pure fun _ => trivial
  | join => exact .bind (isStill_settle _) fun _ _ => .pure fun _ => trivial
  | isAbsolute => exact .bind (isStill_settle _) fun _ _ => .pure fun _ => trivial

theorem folded_partNumber (t : CivilTime) (p : DatePart) : Value.Folded (.number (partNumber t p)) := by
  cases p with
  | year => exact Number.isNaN_ofInt _
  | _ => exact Number.isNaN_ofNat _

theorem isStill_callDate (anchor : Ref) (f : DateFunction) :
    IsStill k Value.Folded fun _ => callDate anchor f := by
  refine .bind (.seen (fun _ _ _ => rfl) fun _ => rfl) fun clock _ =>
    .bind (.seen (fun _ _ _ => rfl) fun _ => rfl) fun instant _ => ?_
  cases f with
  | reset =>
    refine .bind (P := fun _ => True) ⟨fun _ _ m => .heap m rfl, fun _ _ => .change fun _ _ _ => ⟨rfl, rfl, rfl, rfl⟩,
      fun _ _ _ => .changeCore (fun _ => rfl) fun _ => rfl, fun _ _ => .change fun _ hm => ?_⟩
      fun _ _ => .pure fun _ => trivial
    exact ⟨hm.scopes, ⟨hm.heap.arrays, hm.heap.objects⟩, hm.tasks, hm.registry⟩
  | now => exact .pure fun _ => Number.isNaN_ofInt _
  | instant => exact .pure fun _ => Number.isNaN_ofInt _
  | zone => exact .pure fun _ => Number.isNaN_ofInt _
  | part p => exact .pure fun _ => folded_partNumber _ p
  | utcPart p => exact .pure fun _ => folded_partNumber _ p
  | format format => exact .pure fun _ => trivial

end Library

theorem Machine.Like.suggest {m m' : Machine} (h : m.Like m') (name : String) (fault : Fault) :
    m.suggest name fault = m'.suggest name fault :=
  h.reads (f := fun n => n.suggest name fault) fun _ => rfl

variable {arguments : List Value}

namespace Evaluator

variable {k : Prop}

theorem isStill_refuseCall {P : Value → Prop} (callee : Value) : IsStill k P (refuseCall callee) :=
  .bind (.textOf callee) fun _ _ => .fail rfl

theorem isStill_readName (name : String) : IsStill k Value.Folded fun _ => readName name := by
  refine ⟨fun _ _ m => ?_, fun _ _ m o t => ?_, fun _ _ _ m m' hm => ?_, fun _ _ m hm => ?_⟩
  · unfold readName
    cases hlookup : m.scopes.lookup m.current name with
    | ok v => exact .refl m
    | error fault => exact ⟨.refl m, (Scopes.isPlain_of_lookup hlookup).suggest m name⟩
  · unfold readName
    dsimp only [Machine.seenBy]
    cases m.scopes.lookup m.current name <;> exact ⟨_, rfl, rfl, rfl, rfl, rfl⟩
  · unfold readName
    rw [hm.scopes, hm.current]
    cases m'.scopes.lookup m'.current name with
    | ok v => exact .done v hm
    | error fault => exact .failed (congrArg Fault.core (hm.suggest name fault)) hm
  · unfold readName
    cases found : m.scopes.lookup m.current name with
    | ok v => exact ⟨hm, hm.scopes.lookup found⟩
    | error fault => exact hm

theorem isStill_readModule (root : ScopeId) (name : String) :
    IsStill k Value.Folded fun _ => readModule root name := by
  refine ⟨fun _ _ m => ?_, fun _ _ m o t => ?_, fun _ _ _ m m' hm => ?_, fun _ _ m hm => ?_⟩
  · unfold readModule
    cases hlookup : m.scopes.lookup root name with
    | ok v => exact .refl m
    | error fault => exact ⟨.refl m, Scopes.isPlain_of_lookup hlookup⟩
  · unfold readModule
    dsimp only [Machine.seenBy]
    cases m.scopes.lookup root name <;> exact ⟨_, rfl, rfl, rfl, rfl, rfl⟩
  · unfold readModule
    rw [hm.scopes]
    cases m'.scopes.lookup root name with
    | ok v => exact .done v hm
    | error fault => exact .failed rfl hm
  · unfold readModule
    cases found : m.scopes.lookup root name with
    | ok v => exact ⟨hm, hm.scopes.lookup found⟩
    | error fault => exact hm

theorem isStill_modulePath (source : String) : IsStill k (fun _ => True) fun _ => modulePath source := by
  let path (m : Machine) : Path :=
    let written : Path := ⟨source⟩
    (Path.directoryOf m.currentFile).join
      (if written.extension?.isNone then written.withExtension m.settings.moduleExtension else written).text
  have lookup : modulePath source = (do
      let found ← Action.read fun m : Machine => m.files.canonical (path m)
      Action.ofExcept (found.mapError fun _ => .managing (.noModule source))) := by
    funext m
    show _ = Action.ofExcept (Except.mapError _ (m.files.canonical (path m))) m
    unfold modulePath
    rw [Action.bind_apply]
    dsimp only [Action.state]
    cases m.files.canonical _ <;> rfl
  rw [lookup]
  refine .bind (.seen (fun _ _ _ => rfl) fun _ => rfl) fun found _ => ?_
  cases found with
  | ok path => exact .pure fun _ => trivial
  | error reason =>
    exact ⟨fun _ _ m => ⟨.refl m, Fault.isPlain_managing _⟩, fun _ _ => .raise _, fun _ _ _ => .raise _,
      fun _ _ => .stop _⟩

theorem isStill_readMember (receiver key : Value) : IsStill k Value.Folded (readMember receiver key) := by
  cases receiver with
  | module root => exact .bind (.textOf key) fun _ _ => isStill_readModule _ _
  | _ =>
    refine .bind (P := fun r => ∀ v, r = .ok v → v.Folded) (.read (fun _ _ _ => rfl)
      (fun m => Member.read_core m.heap _ key)
      fun _ m hm v hv => Member.folded_read hm.heap hv) fun member hmember => ?_
    cases member with
    | ok v => exact .pure fun hk => hmember hk v rfl
    | error fault => exact .fail rfl

theorem isOfRunning_of_edit {h : Heap} {receiver key value : Value}
    (hedit : Member.edit h receiver key value = .error cause) : cause.isOfRunning = true := by
  unfold Member.edit at hedit
  split at hedit
  · cases hedit
  · split at hedit
    · dsimp only at hedit
      split at hedit
      · cases hedit
      · split at hedit
        · cases hedit
        · cases hedit
          rfl
    · cases hedit
      rfl
  · cases hedit
    rfl

theorem isStill_writeMember (receiver key : Value) {value : Value} (hv : k → value.Folded) :
    IsStill k (fun _ => True) (writeMember receiver key value) := by
  refine ⟨fun _ _ m => ?_, fun _ _ m o t => ?_, fun _ _ _ m m' hm => ?_, fun hk _ m hm => ?_⟩
  · unfold writeMember
    cases hedit : Member.edit m.heap receiver key value with
    | ok edit => exact .heap m (by cases edit <;> rfl)
    | error cause => exact ⟨.refl m, Fault.isPlain_running (isOfRunning_of_edit hedit)⟩
  · unfold writeMember
    dsimp only [Machine.seenBy]
    cases Member.edit m.heap receiver key value <;> exact ⟨_, rfl, rfl, rfl, rfl, rfl⟩
  · unfold writeMember
    rw [hm.onHeap (f := (Member.edit · receiver key value)) fun heap => Member.edit_core heap _ _ _]
    cases Member.edit m'.heap receiver key value with
    | ok edit =>
      refine .done () (hm.withHeap ?_)
      rw [Heap.core_apply, Heap.core_apply, hm.heap]
    | error cause => exact .failed rfl hm
  · unfold writeMember
    cases edited : Member.edit m.heap receiver key value with
    | ok edit => exact ⟨⟨hm.scopes, hm.heap.apply (Member.folded_edit (hv hk) edited), hm.tasks, hm.registry⟩, trivial⟩
    | error cause => exact hm

theorem isStill_callPlain (receiver : Value) (name : String) (ha : k → ∀ v ∈ arguments, v.Folded) :
    IsStill k Value.Folded (callPlain receiver name arguments) := by
  refine ⟨fun _ _ m => ?_, fun _ _ m o t => ?_, fun _ _ _ m m' hm => ?_, fun hk _ m hm => ?_⟩
  · unfold callPlain
    cases Member.reply m.heap receiver name arguments with
    | ok reply =>
      refine .heap m ?_
      cases reply with
      | edited v e => cases e <;> rfl
      | _ => rfl
    | error fault => exact ⟨.refl m, Fault.isPlain_running rfl⟩
  · unfold callPlain
    dsimp only [Machine.seenBy]
    cases Member.reply m.heap receiver name arguments <;> exact ⟨_, rfl, rfl, rfl, rfl, rfl⟩
  · unfold callPlain
    rw [hm.onHeap (f := (Member.reply · receiver name arguments)) fun heap => Member.reply_core heap _ _ _]
    cases Member.reply m'.heap receiver name arguments with
    | ok reply => exact Agrees.alloc (f := (·.take reply)) (fun heap => Heap.core_take heap reply) m m' hm
    | error fault => exact .failed rfl hm
  · unfold callPlain
    cases replied : Member.reply m.heap receiver name arguments with
    | ok reply =>
      obtain ⟨value, heap⟩ := hm.heap.take (Member.folded_reply hm.heap (ha hk) replied)
      exact ⟨⟨hm.scopes, heap, hm.tasks, hm.registry⟩, value⟩
    | error fault => exact hm

theorem isStill_ownFunction? (receiver : Value) (name : String) :
    IsStill k (fun _ => True) fun _ => ownFunction? receiver name := by
  cases receiver with
  | module root => exact .bind (isStill_readModule _ _) fun _ _ => .pure fun _ => trivial
  | object ref => exact .bind (.seen (fun _ _ _ => rfl) fun _ => rfl) fun _ _ => .pure fun _ => trivial
  | _ => exact .pure fun _ => trivial

theorem isStill_orFail {f : Heap → Except Cause Value}
    (proper : ∀ h cause, f h = .error cause → cause.isOfRunning = true) (core : ∀ heap, f heap.core = f heap)
    (folded : ∀ h v, f h = .ok v → v.Folded) : IsStill k Value.Folded (orFail · f) := by
  refine ⟨fun _ _ m => ?_, fun _ _ m o t => ?_, fun _ _ _ m m' hm => ?_, fun _ _ m hm => ?_⟩
  · unfold orFail
    cases hf : f m.heap with
    | ok v => exact .refl m
    | error cause => exact ⟨.refl m, Fault.isPlain_running (proper m.heap cause hf)⟩
  · unfold orFail
    dsimp only [Machine.seenBy]
    cases f m.heap <;> exact ⟨_, rfl, rfl, rfl, rfl, rfl⟩
  · unfold orFail
    rw [hm.onHeap core]
    cases f m'.heap with
    | ok v => exact .done v hm
    | error cause => exact .failed rfl hm
  · unfold orFail
    cases computed : f m.heap with
    | ok v => exact ⟨hm, folded _ v computed⟩
    | error cause => exact hm

variable {h : Heap} {left right : Value} {cause : Cause}

theorem isOfRunning_of_arithmeticOnNumbers {operator : Arithmetic}
    (fails : Operation.arithmeticOnNumbers h operator left right = .error cause) : cause.isOfRunning = true := by
  unfold Operation.arithmeticOnNumbers at fails
  split at fails
  · cases fails
  · cases fails
    rfl

theorem isOfRunning_of_arithmetic {operator : Arithmetic}
    (fails : Operation.arithmetic h operator left right = .error cause) : cause.isOfRunning = true := by
  unfold Operation.arithmetic at fails
  split at fails
  · cases fails
  · split at fails
    · exact isOfRunning_of_arithmeticOnNumbers fails
    · cases fails
      rfl
  · exact isOfRunning_of_arithmeticOnNumbers fails

theorem isOfRunning_of_compare {operator : Comparison}
    (fails : Operation.compare h operator left right = .error cause) : cause.isOfRunning = true := by
  unfold Operation.compare at fails
  split at fails
  · cases fails
    rfl
  · cases fails
  · cases fails

theorem isStill_arithmetic (operator : Arithmetic) (left right : Value) :
    IsStill k Value.Folded (orFail · (Operation.arithmetic · operator left right)) :=
  isStill_orFail (fun _ _ => isOfRunning_of_arithmetic) (fun heap => Operation.arithmetic_core heap operator left right)
    fun _ _ => Operation.folded_arithmetic

theorem isStill_compare (operator : Comparison) (left right : Value) :
    IsStill k Value.Folded (orFail · (Operation.compare · operator left right)) :=
  isStill_orFail (fun _ _ => isOfRunning_of_compare) (fun heap => Operation.compare_core heap operator left right)
    fun _ _ => Operation.folded_compare

end Evaluator

/-! ## How far statements go -/

mutual

/-- **Does a statement declare nothing in the scope it stands in?** Branches, loops, results and
expressions do not; what they declare, they declare in scopes of their own. -/
def Stmt.staysInside : Stmt → Bool
  | ⟨_, _, form⟩ => StmtForm.staysInside form

def StmtForm.staysInside : StmtForm → Bool
  | .useModule _ _ _ => false
  | .expose _ => false
  | .declareTask _ _ _ => false
  | .declareFunction _ _ _ => false
  | .declare _ _ _ => false
  | .branch _ _ none => true
  | .branch _ _ (some alternate) => Alternate.staysInside alternate
  | .loop _ _ _ _ => true
  | .give _ => true
  | .expression _ => true
  | .comment _ => true
  | .blankLine => true

/-- Does another condition, if there is one, declare nothing in the scope it stands in? The grammar puts
only branches there. -/
def Alternate.staysInside : Alternate → Bool
  | .block _ => true
  | .branch s => Stmt.staysInside s

end

def Stmt.reach (s : Stmt) : Reach :=
  if s.staysInside then .inside else .here

/-! ## Errands -/

inductive Errand where
  | expr (e : Expr)
  | stmt (s : Stmt)
  /-- Statements are executed one after another. -/
  | body (statements : List Stmt)
  | job (job : Job)
  /-- The jobs are done that are left. -/
  | rest

/-- **Where something is done**: in the current scope, or in one that was made for a block. -/
inductive Place where
  | here
  | made (scope : ScopeId) (b : Block)

namespace Errand

def roots : Errand → List Node
  | expr e => [.expr e]
  | stmt s => [.stmt s]
  | body statements => statements.map .stmt
  | job j => j.continuations.map fun c => .block c.body
  | rest => []

def Has (E : Errand) (n : Node) : Prop :=
  ∃ root ∈ E.roots, n ∈ root.all

/-- **The places of the faults that an errand raises itself.** Statements in a row raise none. -/
def Marks : Errand → Span → Prop
  | expr e, span => ∃ c ∈ (Node.expr e).all, c.span = span
  | stmt s, span => ∃ c ∈ (Node.stmt s).all, c.span = span
  | body _, _ => False
  | job j, span => span = j.span
  | rest, _ => False

def Waits : Errand → Prop
  | expr e => e.form.isWaitless = false
  | stmt _ => False
  | body _ => False
  | job _ => True
  | rest => True

def reach : Errand → Reach
  | expr _ => .inside
  | stmt s => s.reach
  | body _ => .here
  | job _ => .inside
  | rest => .inside

variable {E : Errand} {n c : Node}

theorem Has.part (h : E.Has n) (hc : c ∈ n.parts) : E.Has c := by
  obtain ⟨root, hroot, below⟩ := h
  exact ⟨root, hroot, Node.part_mem_all hc root below⟩

theorem has_root (h : n ∈ E.roots) : E.Has n :=
  ⟨n, h, n.self_mem_all⟩

end Errand

namespace Evaluator

def afterJob {α : Type} (V : Evaluator) (x y : Run α) : Run α := do
  match ← nextJob? with
  | some job =>
    V.work job
    x
  | none => y

theorem afterJob_eq {α : Type} (V : Evaluator) (x y : Run α) (m : Machine) :
    V.afterJob x y m =
      match m.tasks.pop? with
      | some (job, tasks) => (do V.work job; x) { m with tasks }
      | none => y m := by
  unfold afterJob
  rw [Action.bind_apply]
  unfold nextJob?
  cases m.tasks.pop? <;> rfl

def calling (V : Evaluator) (f : Closure) (arguments : List Value) (scope : ScopeId) : Run Value := do
  let arguments ← Action.read fun m => spread m.heap f arguments
  bindParams scope f.params arguments
  return (← V.block f.body scope).result

theorem call_function (V : Evaluator) (ref : Ref) (arguments : List Value) (span : Span) (m : Machine) :
    V.call (.function ref) arguments span m =
      match m.heap.functions[ref]? with
      | some f => V.calling f arguments (m.scopes.addChild f.scope).1
          { m.note (.called f) with scopes := (m.scopes.addChild f.scope).2 }
      | none => refuseCall (.function ref) span m := by
  show ((Action.read fun m : Machine => m.heap.functions[ref]?) >>= _) m = _
  rw [Action.bind_apply, Action.read_apply]
  cases m.heap.functions[ref]? <;> rfl

end Evaluator

inductive Recast where
  | same
  | core

abbrev Recast.on {α : Type} : Recast → (α → α) → α → α
  | same, _, a => a
  | core, f, a => f a

/-- **The pieces that errands are made of**, for two evaluators. The second one has recast code. If it is told so, the
values that come up are folded, and something holds of what an errand comes to. -/
inductive Errand.Doing (c : Recast) (k : Prop) (V W : Evaluator) :
    Errand → Place → {α : Type} → (α → Prop) → Run α → Run α → Prop where
  | pure {P : α → Prop} (h : k → P a) : Doing c k V W E p P (Pure.pure a) (Pure.pure a)
  | exhaust : Doing c k V W E p P Action.exhaust Action.exhaust
  | bind {f f' : α → Run β} (hx : Doing c k V W E p P x x')
      (hf : ∀ a, (k → P a) → Doing c k V W E p Q (f a) (f' a)) : Doing c k V W E p Q (x >>= f) (x' >>= f')
  | still {E : Errand} (marks : E.Marks span) (h : IsStill k P x) : Doing c k V W E p P (x span) (x (c.on nowhere span))
  | write (text : String) : Doing c k V W E p (fun _ => True) (Run.write text) (Run.write text)
  /-- An assignment to something that cannot be assigned to. -/
  | misassigned {e target value : Expr} (form : e.form = .assign target value) (h : target.form.isTarget = false) :
      Doing c k V W (.expr e) .here P (Run.fail .invalidTarget target.span)
        (Run.fail .invalidTarget (c.on nowhere target.span))
  /-- The run of something other than a call. -/
  | misrun {e started : Expr} (form : e.form = .run started continuations) (h : started.form.isCall = false) :
      Doing c k V W (.expr e) .here P (Run.fail .notRunnable e.span) (Run.fail .notRunnable (c.on nowhere e.span))
  | evaluate {E : Errand} (has : E.Has (.expr e)) :
      Doing c k V W E .here Value.Folded (V.evaluate e) (W.evaluate (c.on (Expr.core nowhere) e))
  | execute {E : Errand} {s : Stmt} (has : E.Has (.stmt s)) (reach : s.reach = .inside ∨ E.reach = .here) :
      Doing c k V W E .here Flow.Folded (V.execute s) (W.execute (c.on (Stmt.core nowhere) s))
  | assign {E : Errand} (marks : E.Marks span) (name : String) {v : Value} (hv : k → v.Folded) :
      Doing c k V W E .here (fun _ => True) (Evaluator.assignName name v) (Evaluator.assignName name v)
  | function {E : Errand} {body : Block} (has : E.Has (.block body)) (kind : FunctionKind) (name : String)
      (params : List Ident) :
      Doing c k V W E .here Value.Folded (Evaluator.makeFunction kind name params body)
        (Evaluator.makeFunction kind name (c.on (·.map (Ident.core nowhere)) params) (c.on (Block.core nowhere) body))
  | schedule {e started : Expr} (form : e.form = .run started continuations) {callee : Value} {arguments : List Value}
      (hc : k → callee.Folded) (ha : k → ∀ v ∈ arguments, v.Folded) :
      Doing c k V W (.expr e) .here Value.Folded (Evaluator.schedule callee arguments continuations e.span)
        (Evaluator.schedule callee arguments (c.on (Continuation.coreOf nowhere) continuations) (c.on nowhere e.span))
  /-- A name is declared in the current scope. -/
  | declare {E : Errand} (reach : E.reach = .here) (marks : E.Marks span) (name : String) {v : Value}
      (hv : k → v.Folded) (static : Bool) (next : Doing c k V W E .here P x x') :
      Doing c k V W E .here P (do Run.declare (← Action.read (·.current)) name v static; x)
        (do Run.declare (← Action.read (·.current)) name v static; x')
  /-- A name is declared in a scope that was made for a block. -/
  | bindName {E : Errand} (marks : E.Marks span) (scope : ScopeId) (b : Block) (name : String) {v : Value}
      (hv : k → v.Folded) (static : Bool) : Doing c k V W E (.made scope b) (fun _ => True)
        (Run.declare scope name v static) (Run.declare scope name v static)
  | block {b : Block} (scope : ScopeId) (h : Doing c k V W (.body b.body) .here Flow.Folded
      (V.statements .nil b.body) (W.statements .nil (c.on (Stmt.coreOf nowhere) b.body))) :
      Doing c k V W E (.made scope b) Flow.Folded (V.block b scope) (W.block (c.on (Block.core nowhere) b) scope)
  | recordedBlock {b : Block} (scope : ScopeId) (span : Span) (h : Doing c k V W (.body b.body) .here Flow.Folded
      (V.statements .nil b.body) (W.statements .nil (c.on (Stmt.coreOf nowhere) b.body))) :
      Doing c k V W E (.made scope b) Flow.Folded (Run.recorded span (V.block b scope))
        (Run.recorded (c.on nowhere span) (W.block (c.on (Block.core nowhere) b) scope))
  /-- Something is done in a new scope inside of the current one. -/
  | newScope {E : Errand} {f f' : ScopeId → Run α} (has : E.Has (.block b))
      (h : ∀ scope, Doing c k V W E (.made scope b) P (f scope) (f' scope)) :
      Doing c k V W E .here P (Run.newScope >>= f) (Run.newScope >>= f')
  /-- A function is called, in a new scope inside of the one it was made in. -/
  | call {E : Errand} (marks : E.Marks span) (ref : Ref) (arguments : List Value)
      (h : ∀ f scope, Doing c k V W E (.made scope f.body) Value.Folded (V.calling f arguments scope)
        (W.calling (c.on Closure.core f) arguments scope)) :
      Doing c k V W E .here Value.Folded (V.call (.function ref) arguments span)
        (W.call (.function ref) arguments (c.on nowhere span))
  | work {E : Errand} (waits : E.Waits) (hx : Doing c k V W E .here P x x') (hy : Doing c k V W E .here P y y') :
      Doing c k V W E .here P (V.afterJob x y) (W.afterJob x' y')

namespace Evaluator

variable {c : Recast} {k : Prop} {V W : Evaluator} {E : Errand} {span : Span} {body : Block}

open Errand

/-! ## Statements in a row -/

theorem doing_statements {last : Value} (hl : k → last.Folded) (body all : List Stmt) (h : ∀ s ∈ body, s ∈ all) :
    Doing c k V W (.body all) .here Flow.Folded (V.statements last body)
      (W.statements last (c.on (Stmt.coreOf nowhere) body)) := by
  induction body generalizing last with
  | nil => cases c <;> exact .pure hl
  | cons s rest ih =>
    have later {last : Value} (hl : k → last.Folded) := ih hl fun other hother => h other (.tail _ hother)
    have run : Doing c k V W (.body all) .here Flow.Folded (V.execute s) (W.execute (c.on (Stmt.core nowhere) s)) :=
      .execute (has_root (List.mem_map_of_mem (h s (.head _)))) (.inr rfl)
    cases c with
    | same =>
      unfold statements
      split
      · exact later hl
      · exact run.bind fun flow hflow => by cases flow with | value v => exact later hflow | give v => exact .pure hflow
    | core =>
      dsimp only [Recast.on] at later run ⊢
      rw [Stmt.coreOf_cons]
      cases trivia : s.form.isTrivia with
      | true =>
        rw [statements, if_pos trivia]
        exact later hl
      | false =>
        have kept : (s.core nowhere).form.isTrivia = false := by
          rw [Stmt.form_core, StmtForm.isTrivia_core, trivia]
        simp only [statements, trivia, kept, Bool.false_eq_true, if_false]
        exact run.bind fun flow hflow => by cases flow with | value v => exact later hflow | give v => exact .pure hflow

theorem doing_body (last : Value) (hl : k → last.Folded) (body : List Stmt) :
    Doing c k V W (.body body) .here Flow.Folded (V.statements last body)
      (W.statements last (c.on (Stmt.coreOf nowhere) body)) :=
  doing_statements hl body body fun _ h => h

theorem doing_block (b : Block) (scope : ScopeId) :
    Doing c k V W E (.made scope b) Flow.Folded (V.block b scope) (W.block (c.on (Block.core nowhere) b) scope) :=
  .block scope (doing_body .nil (fun _ => trivial) _)

theorem doing_innerBlock {b : Block} (has : E.Has (.block b)) :
    Doing c k V W E .here Flow.Folded (V.innerBlock b) (W.innerBlock (c.on (Block.core nowhere) b)) :=
  .newScope has (doing_block b)

theorem doing_evaluateAll (es : List Expr) (h : ∀ e ∈ es, E.Has (.expr e)) : Doing c k V W E .here
    (∀ v ∈ ·, v.Folded) (V.evaluateAll es) (W.evaluateAll (c.on (Expr.coreOf nowhere) es)) := by
  induction es with
  | nil => cases c <;> exact .pure fun _ => nofun
  | cons e rest ih =>
    have later := ih fun other hother => h other (.tail _ hother)
    cases c <;> exact .bind (.evaluate (h e (.head _))) fun v hv => later.bind fun vs hvs =>
      .pure fun hk => List.forall_mem_cons.mpr ⟨hv hk, hvs hk⟩

/-! ## Calls -/

theorem doing_bindParams (marks : E.Marks span) (scope : ScopeId) (b : Block) (params : List String)
    (arguments : List Value) (ha : k → ∀ v ∈ arguments, v.Folded) : Doing c k V W E (.made scope b) (fun _ => True)
      (bindParams scope params arguments) (bindParams scope params arguments) := by
  induction params generalizing arguments with
  | nil => exact .pure fun _ => trivial
  | cons param params ih =>
    cases arguments with
    | nil => exact .pure fun _ => trivial
    | cons argument arguments =>
      exact .bind (.bindName marks scope b _ (fun hk => ha hk _ (.head _)) _) fun _ _ =>
        ih arguments fun hk v hv => ha hk v (.tail _ hv)

theorem folded_spread {h : Heap} (hh : h.Folded) (f : Closure) (ha : ∀ v ∈ arguments, v.Folded) :
    ∀ v ∈ spread h f arguments, v.Folded := by
  unfold spread
  split
  · split
    · exact fun v hv => hh.elements _ v (Array.mem_toList_iff.mp hv)
    · exact ha
  · exact ha

theorem doing_calling (marks : E.Marks span) (f : Closure) (arguments : List Value)
    (ha : k → ∀ v ∈ arguments, v.Folded) (scope : ScopeId) :
    Doing c k V W E (.made scope f.body) Value.Folded (V.calling f arguments scope)
      (W.calling (c.on Closure.core f) arguments scope) := by
  have given : IsStill k (∀ v ∈ ·, v.Folded) fun _ => Action.read fun m : Machine => spread m.heap f arguments :=
    .read (fun _ _ _ => rfl) (fun _ => rfl) fun hk m hm => folded_spread hm.heap f (ha hk)
  cases c <;> exact .bind (.still marks given) fun _ hargs =>
    .bind (doing_bindParams marks scope f.body _ _ hargs) fun _ _ =>
      .bind (doing_block f.body scope) fun _ hflow => .pure hflow

theorem doing_callBuiltin (marks : E.Marks span) (b : Builtin) (arguments : List Value) : Doing c k V W E .here
    Value.Folded (callBuiltin b arguments span) (callBuiltin b arguments (c.on nowhere span)) := by
  have called : Doing c k V W E .here Value.Folded (Library.call b arguments span)
      (Library.call b arguments (c.on nowhere span)) := by
    cases b with
    | print =>
      have texts (m : Machine) := congrArg (arguments.map ·) m.heap.text_core
      exact .bind (.still marks (.seen (fun _ _ _ => rfl) texts)) fun texts _ =>
        .bind (.write _) fun _ _ => .pure fun _ => trivial
    | file f => exact .still marks (Library.isStill_callFile f arguments)
    | path f => exact .still marks (Library.isStill_callPath f arguments)
    | date anchor f => exact .still marks (Library.isStill_callDate anchor f)
  unfold callBuiltin
  split
  · split
    · exact .still marks (.fail rfl)
    · exact called
  · exact called

theorem doing_call (marks : E.Marks span) (callee : Value)
    (ha : k → ∀ v ∈ arguments, v.Folded) : Doing c k V W E .here Value.Folded (V.call callee arguments span)
      (W.call callee arguments (c.on nowhere span)) := by
  have refused := Doing.still (c := c) (k := k) (V := V) (W := W) (p := .here) (P := Value.Folded) marks
    (isStill_refuseCall callee)
  cases callee with
  | function ref => exact .call marks ref arguments fun f scope => doing_calling marks f arguments ha scope
  | builtin ref =>
    refine .bind (.still marks (.seen (fun _ _ _ => rfl) fun _ => rfl)) fun b _ => ?_
    cases b with
    | some b => exact doing_callBuiltin marks b arguments
    | none => exact refused
  | _ => exact refused

/-! ## Tasks -/

theorem doing_waitIn (marks : E.Marks span) (waits : E.Waits) (task : TaskId) (bound : Nat) :
    Doing c k V W E .here Value.Folded (V.waitIn task span bound) (W.waitIn task (c.on nowhere span) bound) := by
  induction bound with
  | zero => exact .exhaust
  | succ bound ih =>
    refine .bind (P := (∀ v ∈ ·, v.Folded)) (.still marks (.read (fun _ _ _ => rfl) (fun _ => rfl) fun _ m hm v hv =>
      hm.tasks.result? hv)) fun result hresult => ?_
    cases result with
    | some v => exact .pure fun hk => hresult hk v rfl
    | none => exact .work waits ih (.still marks (.fail rfl))

theorem doing_drainIn (bound : Nat) :
    Doing c k V W .rest .here (fun _ => True) (V.drainIn bound) (W.drainIn bound) := by
  induction bound with
  | zero => exact .exhaust
  | succ bound ih => exact .work trivial ih (.pure fun _ => trivial)

theorem doing_settleIn (rounds : W.rounds = V.rounds) (marks : E.Marks span) (waits : E.Waits) (bound : Nat)
    {v : Value} (hv : k → v.Folded) : Doing c k V W E .here Value.Folded (V.settleIn span bound v)
      (W.settleIn (c.on nowhere span) bound v) := by
  induction bound generalizing v with
  | zero => exact .exhaust
  | succ bound ih =>
    unfold settleIn waitFor
    rw [rounds]
    split
    · exact .bind (doing_waitIn marks waits _ _) fun _ => ih
    · exact .pure hv

theorem doing_continuation (marks : E.Marks span) {result : Value} (hr : k → result.Folded) {t : Continuation}
    (has : E.Has (.block t.body)) :
    let continuation (V : Evaluator) (t : Continuation) : Run Flow := do
      let scope ← Run.newScope
      match t.params.head? with
      | some param => Run.declare scope param.name result false
      | none => pure ()
      Run.recorded t.span (V.block t.body scope)
    Doing c k V W E .here Flow.Folded (continuation V t) (continuation W (c.on (Continuation.core nowhere) t)) := by
  obtain ⟨span, params, body⟩ := t
  have recorded := fun scope => Doing.recordedBlock (c := c) (E := E) scope span
    (doing_body (k := k) (V := V) (W := W) .nil (fun _ => trivial) body.body)
  cases params with
  | nil => cases c <;> exact .newScope has recorded
  | cons param params =>
    cases c <;> exact .newScope has fun scope => .bind (.bindName marks scope _ _ hr _) fun _ _ => recorded scope

theorem doing_continueWith (marks : E.Marks span) {result last : Value} (hr : k → result.Folded)
    (hl : k → last.Folded) (ts : List Continuation) (h : ∀ t ∈ ts, E.Has (.block t.body)) :
    Doing c k V W E .here Value.Folded (V.continueWith result last ts)
      (W.continueWith result last (c.on (Continuation.coreOf nowhere) ts)) := by
  induction ts generalizing last with
  | nil => cases c <;> exact .pure hl
  | cons t rest ih =>
    have both := (doing_continuation (c := c) (V := V) (W := W) marks hr (h t (.head _))).bind fun flow hflow =>
      ih (show k → flow.result.Folded from hflow) fun other hother => h other (.tail _ hother)
    rw [Action.bind_assoc, Action.bind_assoc] at both
    obtain ⟨span, params, body⟩ := t
    cases params with
    | nil => cases c <;> exact both
    | cons param params =>
      cases c <;> simp only [Continuation.core, List.map_cons, List.head?_cons, Action.bind_assoc] at both <;> exact both

theorem doing_pipeline (rounds : W.rounds = V.rounds) (job : Job) (hjob : k → job.Folded) :
    Doing c k V W (.job job) .here Value.Folded (V.pipeline job) (W.pipeline (c.on Job.core job)) := by
  have marks : (Errand.job job).Marks job.span := rfl
  have blocks (c : Continuation) (hc : c ∈ job.continuations) : (Errand.job job).Has (.block c.body) :=
    has_root (List.mem_map_of_mem hc)
  unfold pipeline
  rw [rounds]
  cases c <;> exact .bind (doing_call marks _ fun hk => (hjob hk).2) fun called hcalled =>
    .bind (doing_settleIn rounds marks trivial _ hcalled) fun result hresult =>
      doing_continueWith marks hresult hresult _ blocks

/-! ## Members and methods -/

theorem doing_traverse (marks : E.Marks span) (t : Traversal) (callback : Value) (i : Nat) {kept : Array Value}
    {elements : List Value} (hk : k → ∀ v ∈ kept, v.Folded) (he : k → ∀ v ∈ elements, v.Folded) :
    Doing c k V W E .here (∀ v ∈ ·, v.Folded) (V.traverse t callback span i kept elements)
      (W.traverse t callback (c.on nowhere span) i kept elements) := by
  have push {kept : Array Value} {v : Value} (hk : k → ∀ v ∈ kept, v.Folded) (hv : k → v.Folded) (known : k) :
      ∀ w ∈ kept.push v, w.Folded := by
    intro w hw
    rcases Array.mem_push.mp hw with old | rfl
    · exact hk known w old
    · exact hv known
  induction elements generalizing i kept with
  | nil => exact .pure hk
  | cons element rest ih =>
    have first (known : k) := he known element (.head _)
    have later (known : k) := fun v hv => he known v (.tail _ hv)
    refine .bind (doing_call marks _ fun known => ?_) fun result hresult => ?_
    · exact List.forall_mem_cons.mpr ⟨first known, List.forall_mem_singleton.mpr (Value.folded_ofNat i)⟩
    cases t with
    | map => exact ih _ (push hk hresult) later
    | forEach => exact ih _ hk later
    | filter =>
      simp only
      split
      · exact ih _ (push hk first) later
      · exact ih _ hk later
      · exact .still marks (.bind (.tagOf _) fun _ _ => .fail rfl)

theorem doing_callTraversal (marks : E.Marks span) (t : Traversal) (ref : Ref) (arguments : List Value) :
    Doing c k V W E .here Value.Folded (V.callTraversal t ref arguments span)
      (W.callTraversal t ref arguments (c.on nowhere span)) := by
  refine .bind (P := (∀ v ∈ ·, v.Folded)) (.still marks (.read (fun _ _ _ => rfl) (fun _ => rfl) fun _ m hm =>
    hm.heap.elements ref)) fun elements he => ?_
  cases arguments.head? with
  | none => exact .still marks (.fail rfl)
  | some callback =>
    simp only
    split
    · refine .bind (doing_traverse marks t callback 0 (fun _ => nofun) fun known v hv =>
        he known v (Array.mem_toList_iff.mp hv)) fun kept hk => ?_
      have made : IsStill k Value.Folded fun _ => Run.alloc (·.newArray kept) :=
        .alloc (fun _ => rfl) (fun _ => rfl) fun known h hh => ⟨hh.newArray (hk known), trivial⟩
      cases t with
      | forEach => exact .pure fun _ => trivial
      | map => exact .still marks made
      | filter => exact .still marks made
    · exact .still marks (.fail rfl)

theorem doing_callMethod (marks : E.Marks span) (receiver key : Value)
    (ha : k → ∀ v ∈ arguments, v.Folded) :
    Doing c k V W E .here Value.Folded (V.callMethod receiver key arguments span)
      (W.callMethod receiver key arguments (c.on nowhere span)) := by
  refine .bind (.still marks (.textOf key)) fun name _ => .bind (.still marks (isStill_ownFunction? _ _)) fun own _ => ?_
  cases own with
  | some f => exact doing_call marks f ha
  | none =>
    simp only
    split
    · exact doing_callTraversal marks _ _ arguments
    · exact .bind (.still marks (isStill_readMember _ _)) fun element _ => doing_call marks element ha
    · exact .still marks (isStill_callPlain _ _ ha)

/-! ## Expressions -/

theorem doing_templateText (marks : E.Marks span) (before : String) (parts : List TemplatePart)
    (h : ∀ part ∈ parts, ∀ n ∈ part.parts, E.Has n) :
    Doing c k V W E .here (fun _ => True) (V.templateText before parts)
      (W.templateText before (c.on (TemplatePart.coreOf nowhere) parts)) := by
  induction parts generalizing before with
  | nil => cases c <;> exact .pure fun _ => trivial
  | cons part rest ih =>
    have later := fun before => ih before fun other hother => h other (.tail _ hother)
    cases part with
    | text s => cases c <;> exact later _
    | slot e =>
      cases c <;> exact .bind (.evaluate (h _ (.head _) _ (.head _))) fun v _ =>
        .bind (.still marks (.textOf v)) fun text _ => later _

theorem doing_objectFields (fields : Fields Value) (hf : k → fields.Folded) (properties : List Property)
    (h : ∀ p ∈ properties, E.Has (.expr p.value)) :
    Doing c k V W E .here Fields.Folded (V.objectFields fields properties)
      (W.objectFields fields (c.on (Property.coreOf nowhere) properties)) := by
  induction properties generalizing fields with
  | nil => cases c <;> exact .pure hf
  | cons property rest ih =>
    have later := fun fields hf => ih fields hf fun other hother => h other (.tail _ hother)
    obtain ⟨key, short, value⟩ := property
    cases c <;> exact .bind (.evaluate (h _ (.head _))) fun v hv => later _ fun hk => (hf hk).insert key (hv hk)

theorem doing_condition {e : Expr} (marks : E.Marks e.span) (has : E.Has (.expr e)) :
    Doing c k V W E .here (fun _ => True) (V.condition e) (W.condition (c.on (Expr.core nowhere) e)) := by
  refine .bind (.evaluate has) fun v _ => ?_
  obtain ⟨span, form⟩ := e
  split
  · exact .pure fun _ => trivial
  · cases c <;> exact .still marks (.bind (.tagOf _) fun _ _ => .fail rfl)

theorem doing_switchCases (subject : Value) (cases : List Case) (h : ∀ c ∈ cases, ∀ n ∈ c.parts, E.Has n) :
    Doing c k V W E .here Value.Folded (V.switchCases subject cases)
      (W.switchCases subject (c.on (Case.coreOf nowhere) cases)) := by
  induction cases with
  | nil => cases c <;> exact .pure fun _ => trivial
  | cons first rest ih =>
    have own := h first (.head _)
    obtain ⟨span, test, body⟩ := first
    have next (matched : Bool) : Doing c k V W E .here Value.Folded
        (if matched then (do return (← V.innerBlock body).result) else V.switchCases subject rest)
        (if matched then (do return (← W.innerBlock (c.on (Block.core nowhere) body)).result)
          else W.switchCases subject (c.on (Case.coreOf nowhere) rest)) := by
      cases matched with
      | true => exact .bind (doing_innerBlock (own _ (List.mem_append_right _ (.head _)))) fun flow hflow => .pure hflow
      | false => exact ih fun other hother => h other (.tail _ hother)
    cases test with
    | none => cases c <;> exact next true
    | some test => cases c <;> exact .bind (.evaluate (own _ (.head _))) fun v _ => next (v.same subject)

theorem doing_callForm (marks : E.Marks span) {callee : Expr} (has : E.Has (.expr callee)) {arguments : List Expr}
    (harguments : ∀ e ∈ arguments, E.Has (.expr e)) :
    Doing c k V W E .here Value.Folded (V.callForm callee arguments span) (W.callForm (c.on (Expr.core nowhere) callee)
      (c.on (Expr.coreOf nowhere) arguments) (c.on nowhere span)) := by
  have values := doing_evaluateAll (c := c) (k := k) (V := V) (W := W) arguments harguments
  have plain : Doing c k V W E .here Value.Folded (do V.call (← V.evaluate callee) (← V.evaluateAll arguments) span)
      (do W.call (← W.evaluate (c.on (Expr.core nowhere) callee))
            (← W.evaluateAll (c.on (Expr.coreOf nowhere) arguments)) (c.on nowhere span)) :=
    .bind (.evaluate has) fun _ _ => values.bind fun _ ha => doing_call marks _ ha
  obtain ⟨calleeSpan, form⟩ := callee
  cases c <;> cases form with
  | member receiver key =>
    exact .bind (.evaluate (has.part (.head _))) fun _ _ => values.bind fun _ ha => doing_callMethod marks _ _ ha
  | index receiver key =>
    exact .bind (.evaluate (has.part (.head _))) fun _ _ => .bind (.evaluate (has.part (.tail _ (.head _)))) fun _ _ =>
      values.bind fun _ ha => doing_callMethod marks _ _ ha
  | _ => exact plain

theorem doing_assignTo {e target value : Expr} (form : e.form = .assign target value) {v : Value}
    (hv : k → v.Folded) : Doing c k V W (.expr e) .here (fun _ => True) (V.assignTo target v e.span)
      (W.assignTo (c.on (Expr.core nowhere) target) v (c.on nowhere e.span)) := by
  have here : (Errand.expr e).Marks e.span := ⟨_, Node.self_mem_all _, rfl⟩
  have self : (Errand.expr e).Has (.expr target) := by
    refine (has_root (.head _) : (Errand.expr e).Has (.expr e)).part ?_
    show _ ∈ e.form.parts
    rw [form]
    exact .head _
  have misassigned := fun h => Doing.misassigned (c := c) (k := k) (V := V) (W := W) (P := fun _ : Unit => True) form h
  obtain ⟨targetSpan, targetForm⟩ := target
  cases c <;> cases targetForm with
  | name name => exact .assign here name hv
  | member receiver key =>
    exact .bind (.evaluate (self.part (.head _))) fun _ _ => .still here (isStill_writeMember _ _ hv)
  | index receiver key =>
    exact .bind (.evaluate (self.part (.head _))) fun _ _ =>
      .bind (.evaluate (self.part (.tail _ (.head _)))) fun _ _ => .still here (isStill_writeMember _ _ hv)
  | _ => exact misassigned rfl

theorem folded_literal (value : Literal) : (literal value).Folded := by
  cases value with
  | number x => exact Value.folded_ofFloat x
  | _ => trivial

theorem doing_evaluateForm (rounds : W.rounds = V.rounds) (e : Expr) :
    Doing c k V W (.expr e) .here Value.Folded (V.evaluateForm e.span e.form)
      (W.evaluateForm (c.on nowhere e.span) (c.on (ExprForm.core nowhere) e.form)) := by
  have self : (Errand.expr e).Has (.expr e) := has_root (.head _)
  have here : (Errand.expr e).Marks e.span := ⟨_, Node.self_mem_all _, rfl⟩
  have below {c : Node} (hc : c ∈ e.form.parts) : (Errand.expr e).Marks c.span :=
    ⟨c, Node.mem_all_of_part (n := .expr e) hc, rfl⟩
  have part {c : Node} (hc : c ∈ e.form.parts) : (Errand.expr e).Has c := self.part hc
  have operands {left right : Expr} (hleft : .expr left ∈ e.form.parts) (hright : .expr right ∈ e.form.parts)
      {f f' : Value → Value → Run Value} (hf : ∀ a b, (k → a.Folded) → (k → b.Folded) →
        Doing c k V W (.expr e) .here Value.Folded (f a b) (f' a b)) :
      Doing c k V W (.expr e) .here Value.Folded (do f (← V.evaluate left) (← V.evaluate right))
        (do f' (← W.evaluate (c.on (Expr.core nowhere) left)) (← W.evaluate (c.on (Expr.core nowhere) right))) :=
    .bind (.evaluate (part hleft)) fun a ha => .bind (.evaluate (part hright)) fun b hb => hf a b ha hb
  obtain ⟨span, form⟩ := e
  cases c <;> cases form with
  | literal value => exact .pure fun _ => folded_literal value
  | name name => exact .still here (isStill_readName name)
  | template raw parts =>
    refine .bind (doing_templateText here "" parts fun p hp n hn => ?_) fun _ _ => .pure fun _ => trivial
    exact part (List.mem_flatMap.mpr ⟨p, hp, hn⟩)
  | array elements =>
    refine .bind (doing_evaluateAll elements fun e he => ?_) fun _ hvs => .still here (.alloc (fun _ => rfl)
      (fun _ => rfl) fun hk h hh => ⟨hh.newArray fun v hv => hvs hk v (List.mem_toArray.mp hv), trivial⟩)
    exact part (List.mem_map_of_mem he)
  | object properties =>
    refine .bind (doing_objectFields {} (fun _ => nofun) properties fun p hp => ?_) fun _ hf =>
      .still here (.alloc (fun _ => rfl) (fun _ => rfl) fun hk h hh => ⟨hh.newObject (hf hk), trivial⟩)
    exact part (List.mem_map_of_mem hp)
  | lambda params body => exact .function (part (.head _)) _ _ params
  | negate operand =>
    refine .bind (.evaluate (part (.head _))) fun v _ => ?_
    cases v.toNumber? with
    | some x => exact .pure fun _ => Value.folded_ofFloat _
    | none => exact .still here (.bind (.tagOf _) fun _ _ => .fail rfl)
  | arithmetic left operator right =>
    exact operands (.head _) (.tail _ (.head _)) fun _ _ _ _ => .still here (isStill_arithmetic operator _ _)
  | compare left operator right =>
    exact operands (.head _) (.tail _ (.head _)) fun _ _ _ _ => .still here (isStill_compare operator _ _)
  | equal left negated right => exact operands (.head _) (.tail _ (.head _)) fun _ _ _ _ => .pure fun _ => trivial
  | assign target value =>
    exact .bind (.evaluate (part (.tail _ (.head _)))) fun v hv => .bind (doing_assignTo rfl hv) fun _ _ => .pure hv
  | conditional condition consequent alternate =>
    refine .bind (doing_condition (below (.head _)) (part (.head _))) fun b _ => ?_
    cases b with
    | true => exact .evaluate (part (.tail _ (.head _)))
    | false => exact .evaluate (part (.tail _ (.tail _ (.head _))))
  | range first last =>
    refine operands (.head _) (.tail _ (.head _)) fun a b ha hb => ?_
    split
    · exact .pure fun hk => ⟨ha hk, hb hk⟩
    · exact .still here (.bind (.tagOf _) fun _ _ => .bind (.tagOf _) fun _ _ => .fail rfl)
  | member receiver key =>
    exact .bind (.evaluate (part (.head _))) fun _ _ => .still here (isStill_readMember _ _)
  | index receiver key =>
    exact operands (.head _) (.tail _ (.head _)) fun _ _ _ _ => .still here (isStill_readMember _ _)
  | call callee arguments =>
    exact doing_callForm here (part (.head _)) fun e he => part (.tail _ (List.mem_map_of_mem he))
  | switch subject cases =>
    refine .bind (.evaluate (part (.head _))) fun v _ => doing_switchCases v cases fun c hc n hn => ?_
    exact part (.tail _ (List.mem_flatMap.mpr ⟨c, hc, hn⟩))
  | run started continuations =>
    obtain ⟨startedSpan, form⟩ := started
    have started := part (.head _)
    cases form with
    | call callee arguments =>
      exact .bind (.evaluate (started.part (.head _))) fun v hv => .bind (doing_evaluateAll arguments fun e he =>
        started.part (.tail _ (List.mem_map_of_mem he))) fun vs hvs => .schedule rfl hv hvs
    | _ => exact .misrun rfl rfl
  | wait awaited =>
    refine .bind (.evaluate (part (.head _))) fun v hv => ?_
    split
    · unfold waitFor
      rw [rounds]
      exact doing_waitIn here rfl _ _
    · exact .pure hv

/-! ## Statements -/

theorem doing_loopRound (marks : E.Marks span) (key : Ident) (value : Option Ident)
    (has : E.Has (.block body)) {round : LoopRound} (hr : k → round.key.Folded ∧ round.element.Folded) :
    Doing c k V W E .here Flow.Folded (V.loopRound key value body round) (W.loopRound (c.on (Ident.core nowhere) key)
      (c.on (·.map (Ident.core nowhere)) value) (c.on (Block.core nowhere) body) round) := by
  have bound := fun scope name v hv => Doing.bindName (c := c) (k := k) (V := V) (W := W) (v := v) marks scope
    body name hv false
  cases value with
  | none =>
    have shown (hk : k) : (if round.keyed then round.key else round.element).Folded := by
      split
      · exact (hr hk).1
      · exact (hr hk).2
    cases c <;> exact .newScope has fun scope => (bound scope _ _ shown).bind fun _ _ => doing_block body scope
  | some value =>
    cases c <;> exact .newScope has fun scope => (bound scope _ _ fun hk => (hr hk).1).bind fun _ _ =>
      (bound scope _ _ fun hk => (hr hk).2).bind fun _ _ => doing_block body scope

theorem doing_loopOver (marks : E.Marks span) (key : Ident) (value : Option Ident)
    (has : E.Has (.block body)) {rounds : List LoopRound}
    (hr : k → ∀ r ∈ rounds, r.key.Folded ∧ r.element.Folded) :
    Doing c k V W E .here Flow.Folded (V.loopOver key value body rounds) (W.loopOver (c.on (Ident.core nowhere) key)
      (c.on (·.map (Ident.core nowhere)) value) (c.on (Block.core nowhere) body) rounds) := by
  induction rounds with
  | nil => exact .pure fun _ => trivial
  | cons round rest ih =>
    refine .bind (doing_loopRound marks key value has fun hk => hr hk _ (.head _)) fun flow hflow => ?_
    cases flow with
    | value v => exact ih fun hk r h => hr hk r (.tail _ h)
    | give v => exact .pure hflow

theorem doing_loopRange (marks : E.Marks span) (key : Ident) (value : Option Ident)
    (has : E.Has (.block body)) (last : Float) (bound : Nat) {x i : Float} (hx : k → x.isNaN = false)
    (hi : k → i.isNaN = false) :
    Doing c k V W E .here Flow.Folded (V.loopRange key value body last bound x i)
      (W.loopRange (c.on (Ident.core nowhere) key) (c.on (·.map (Ident.core nowhere)) value)
        (c.on (Block.core nowhere) body) last bound x i) := by
  induction bound generalizing x i with
  | zero => exact .exhaust
  | succ bound ih =>
    unfold loopRange
    split
    · refine .bind (doing_loopRound marks key value has fun hk => ⟨hi hk, hx hk⟩) fun flow hflow => ?_
      cases flow with
      | value v => exact ih (fun hk => Number.isNaN_add_one (hx hk)) fun hk => Number.isNaN_add_one (hi hk)
      | give v => exact .pure hflow
    · exact .pure fun _ => trivial

theorem doing_loop (rounds : W.rounds = V.rounds) (marks : E.Marks span) (key : Ident) (value : Option Ident)
    {iterated : Expr} (atIterated : E.Marks iterated.span) (hiterated : E.Has (.expr iterated))
    (hbody : E.Has (.block body)) :
    Doing c k V W E .here Flow.Folded (V.loop key value iterated body) (W.loop (c.on (Ident.core nowhere) key)
      (c.on (·.map (Ident.core nowhere)) value) (c.on (Expr.core nowhere) iterated)
      (c.on (Block.core nowhere) body)) := by
  refine .bind (.evaluate hiterated) fun v hv => ?_
  obtain ⟨iteratedSpan, form⟩ := iterated
  split
  · rw [rounds]
    exact doing_loopRange marks key value hbody _ _ (fun hk => (hv hk).1) fun _ => by decide
  · refine .bind (P := (∀ v ∈ ·, v.Folded)) (.still marks (.read (fun _ _ _ => rfl) (fun _ => rfl) fun _ m hm =>
      hm.heap.elements _)) fun elements he => doing_loopOver marks key value hbody fun hk r hr => ?_
    obtain ⟨⟨v, i⟩, held, rfl⟩ := List.mem_map.mp hr
    exact ⟨Value.folded_ofNat i, he hk v (Array.mem_toList_iff.mp (List.fst_mem_of_mem_zipIdx held))⟩
  · refine .bind (P := Fields.Folded) (.still marks (.read (fun _ _ _ => rfl) (fun _ => rfl) fun _ m hm =>
      hm.heap.fields _)) fun fields hf => doing_loopOver marks key value hbody fun hk r hr => ?_
    obtain ⟨entry, held, rfl⟩ := List.mem_map.mp hr
    exact ⟨trivial, hf hk entry held⟩
  · cases c <;> exact .still atIterated (.bind (.tagOf _) fun _ _ => .fail rfl)

/-- **What performing a statement is made of**, form by form. The use of a module and the exposing of a declaration are
told apart. -/
theorem doing_performStep (rounds : W.rounds = V.rounds) {s : Stmt}
    (ownUse : ∀ source called picks, s.form ≠ .useModule source called picks)
    (ownExpose : ∀ declaration, s.form ≠ .expose declaration) :
    Doing c k V W (.stmt s) .here Flow.Folded (V.performStep s) (W.performStep (c.on (Stmt.core nowhere) s)) := by
  have self : (Errand.stmt s).Has (.stmt s) := has_root (.head _)
  have here : (Errand.stmt s).Marks s.span := ⟨_, Node.self_mem_all _, rfl⟩
  have below {c : Node} (hc : c ∈ s.form.parts) : (Errand.stmt s).Marks c.span :=
    ⟨c, Node.mem_all_of_part (n := .stmt s) hc, rfl⟩
  have part {c : Node} (hc : c ∈ s.form.parts) : (Errand.stmt s).Has c := self.part hc
  obtain ⟨id, span, form⟩ := s
  cases c <;> cases form with
  | useModule source called picks => exact absurd rfl (ownUse source called picks)
  | expose declaration => exact absurd rfl (ownExpose declaration)
  | declareTask name params body =>
    exact .bind (.function (part (.head _)) _ _ _) fun f hf => .declare rfl here _ hf _ (.pure fun _ => trivial)
  | declareFunction name params body =>
    exact .bind (.function (part (.head _)) _ _ _) fun f hf => .declare rfl here _ hf _ (.pure fun _ => trivial)
  | declare name constant value =>
    exact .bind (.evaluate (part (.head _))) fun v hv => .declare rfl here _ hv _ (.pure fun _ => trivial)
  | branch condition consequent alternate =>
    cases alternate with
    | none =>
      refine .bind (doing_condition (below (.head _)) (part (.head _))) fun b _ => ?_
      cases b with
      | true => exact doing_innerBlock (part (.tail _ (.head _)))
      | false => exact .pure fun _ => trivial
    | some alternate =>
      refine .bind (doing_condition (below (.head _)) (part (.head _))) fun b _ => ?_
      cases b with
      | true => exact doing_innerBlock (part (.tail _ (.head _)))
      | false =>
        cases alternate with
        | block body => exact doing_innerBlock (part (.tail _ (.tail _ (.head _))))
        | branch s =>
          -- the statement goes as far as the one that it is an alternate of
          refine .execute (part (.tail _ (.tail _ (.head _)))) ?_
          show s.reach = .inside ∨ s.reach = .here
          cases s.reach with
          | inside => exact .inl rfl
          | here => exact .inr rfl
  | loop key value iterated body =>
    exact doing_loop rounds here key value (below (.head _)) (part (.head _)) (part (.tail _ (.head _)))
  | give value =>
    cases value with
    | none => exact .pure fun _ => trivial
    | some value => exact .bind (.evaluate (part (.head _))) fun _ hv => .pure hv
  | expression e => exact .bind (.evaluate (part (.head _))) fun _ hv => .pure hv
  | comment text => exact .pure fun _ => trivial
  | blankLine => exact .pure fun _ => trivial

end Evaluator

end Trellis
