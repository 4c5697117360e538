import Trellis.Proofs.Run.Modules
import Trellis.Proofs.Run.Moments

/-!
# Runs over folded values

Numbers come up as constants, as results of operators, as lengths and positions, as the counters of loops and the
bounds of ranges, and as what built-in functions tell of files and of the time. In none of them a number is made that
is not one, so the values that a machine holds stay folded whatever is executed on it.

What an errand is made of folds (`Errand.Doing.folds`). The knot is tied by the recursion on the depth, also for runs
that are broken off.
-/

namespace Trellis

open Value Run

theorem Machine.Folded.addPrelude {m : Machine} (hm : m.Folded) (root : ScopeId) : (m.addPrelude root).Folded := by
  unfold Machine.addPrelude
  split
  · exact hm
  · rename_i exports heap built
    obtain ⟨he, hh⟩ := hm.registry.build? hm.heap built
    exact ⟨hm.scopes.declareConstants root he, hh, hm.tasks, hm.registry⟩

structure Evaluator.Folds (ev : Evaluator) : Prop where
  evaluate : ∀ e, Run.Folds Value.Folded (ev.evaluate e)
  execute : ∀ s, Run.Folds Flow.Folded (ev.execute s)
  perform : ∀ s, Run.Folds Flow.Folded (ev.perform s)
  work : ∀ job : Job, job.Folded → FoldsAll (ev.work job)

namespace Evaluator

theorem folds_assignName (name : String) {v : Value} (hv : v.Folded) : FoldsAll (assignName name v) := by
  intro m hm
  unfold assignName
  split
  · exact ⟨⟨hm.scopes.replace _ name hv, hm.heap, hm.tasks, hm.registry⟩, trivial⟩
  · exact hm

theorem folds_nextJob? : Run.Folds (∀ job ∈ ·, job.Folded) nextJob? := by
  intro m hm
  unfold nextJob?
  split
  · rename_i job tasks pop
    obtain ⟨hjob, rest⟩ := hm.tasks.pop? pop
    refine ⟨⟨hm.scopes, hm.heap, rest, hm.registry⟩, ?_⟩
    rintro _ ⟨⟩
    exact hjob
  · exact ⟨hm, nofun⟩

end Evaluator

theorem Errand.Doing.folds {ev ev' : Evaluator} (hev : ev.Folds) {E : Errand} {p : Place} {α : Type} {P : α → Prop}
    {x x' : Run α} (h : Doing .same True ev ev' E p P x x') : Run.Folds P x := by
  induction h with
  | pure h => exact .pure (h trivial)
  | exhaust => exact .exhaust
  | bind _ _ hx hf => exact .bind hx fun a ha => hf a fun _ => ha
  | still _ h => exact h.folds trivial _
  | write text => exact .change fun _ hm => hm.same
  | misassigned _ _ => exact .fail _ _
  | misrun _ _ => exact .fail _ _
  | evaluate _ => exact hev.evaluate _
  | execute _ _ => exact hev.execute _
  | assign _ name hv => exact Evaluator.folds_assignName name (hv trivial)
  | function _ _ _ _ => exact fun _ hm => ⟨⟨hm.scopes, ⟨hm.heap.arrays, hm.heap.objects⟩, hm.tasks, hm.registry⟩, trivial⟩
  | schedule _ hc ha =>
    exact fun _ hm => ⟨⟨hm.scopes, hm.heap, hm.tasks.schedule ⟨hc trivial, ha trivial⟩, hm.registry⟩, trivial⟩
  | declare _ _ name hv static _ ih =>
    exact .bind (.seen _) fun scope _ => .bind (.declare scope name (hv trivial) static) fun _ _ => ih
  | bindName _ scope _ name hv static => exact .declare scope name (hv trivial) static
  | block scope _ ih => exact ih.within scope
  | recordedBlock scope span _ ih => exact (ih.within scope).recorded span
  | newScope _ _ ih => exact .bind .newScope fun scope _ => ih scope
  | call _ ref _ _ ih =>
    intro m hm
    rw [Evaluator.call_function]
    cases m.heap.functions[ref]? with
    | none => exact (Evaluator.isStill_refuseCall (k := True) _).folds trivial _ m hm
    | some f => exact ih f _ _ ⟨hm.scopes.push rfl, hm.heap, hm.tasks, hm.registry⟩
  | work _ _ _ hx hy =>
    refine .bind Evaluator.folds_nextJob? fun job? hjob => ?_
    cases job? with
    | some job => exact .bind (hev.work job (hjob job rfl)) fun _ _ => hx
    | none => exact hy

namespace Evaluator

/-! ## Modules -/

theorem folds_onScopes {f : Scopes → Except Fault Scopes} (hf : ∀ s s' : Scopes, s.Folded → f s = .ok s' → s'.Folded) :
    FoldsAll (Run.onScopes f) := by
  intro m hm
  unfold Run.onScopes
  split
  · rename_i changed
    exact ⟨⟨hf _ _ hm.scopes changed, hm.heap, hm.tasks, hm.registry⟩, trivial⟩
  · exact hm

theorem folds_newRoot (file : Option Path) : FoldsAll (newRoot file) :=
  fun _ hm => ⟨⟨hm.scopes.push rfl, hm.heap, hm.tasks, hm.registry⟩, trivial⟩

theorem folds_bindExports (root : ScopeId) {exports : List (String × Value)}
    (he : ∀ entry ∈ exports, entry.2.Folded) : FoldsAll (bindExports root exports) := by
  induction exports with
  | nil => exact .pure trivial
  | cons entry rest ih =>
    exact .bind (.declare root entry.1 (he entry (.head _)) true) fun _ _ =>
      .bind (.change fun _ hm => ⟨hm.scopes.expose root entry.1, hm.heap, hm.tasks, hm.registry⟩) fun _ _ =>
        ih fun entry hentry => he entry (.tail _ hentry)

theorem folds_finishModule (key : ModuleKey) (root : ScopeId) : FoldsAll (finishModule key root) :=
  .change fun _ hm => hm.same

theorem folds_loadBuiltin (name : String) : FoldsAll (loadBuiltin name) := by
  refine .bind (.seen _) fun root? _ => ?_
  cases root? with
  | some root => exact .pure trivial
  | none =>
    refine .bind (P := fun built => ∀ exports heap, built = some (exports, heap) →
      (∀ entry ∈ exports, entry.2.Folded) ∧ heap.Folded)
      (.read fun m hm _ _ built => hm.registry.build? hm.heap built) fun built? hbuilt => ?_
    cases built? with
    | none => exact .bind (.seen _) fun _ _ => .stop _
    | some built =>
      obtain ⟨exports, heap⟩ := hbuilt _ _ rfl
      exact .bind (.change fun _ hm => ⟨hm.scopes, heap, hm.tasks, hm.registry⟩) fun _ _ =>
        .bind (folds_newRoot none) fun root _ => .bind (folds_bindExports root exports) fun _ _ =>
          .bind (folds_finishModule _ root) fun _ _ => .pure trivial

theorem folds_readModuleFile (path : Path) : FoldsAll (readModuleFile path) := by
  intro m hm
  unfold readModuleFile
  split
  · exact hm
  · split
    · exact ⟨hm.same, trivial⟩
    · exact hm
    · trivial

theorem folds_linkPicks (root : ScopeId) (picks : List Pick) : FoldsAll (linkPicks root picks) := by
  induction picks with
  | nil => exact .pure trivial
  | cons p rest ih =>
    refine .bind ((isStill_readModule root _).folds trivial {}) fun _ _ => .bind (.seen _) fun current _ =>
      .bind (folds_onScopes fun _ _ hs linked => hs.link linked) fun _ _ => ?_
    split
    · exact .bind (.change fun _ hm => ⟨hm.scopes.setAlias current _ _, hm.heap, hm.tasks, hm.registry⟩) fun _ _ => ih
    · exact ih

variable {ev : Evaluator} (hev : ev.Folds)

include hev

theorem folds_statements (body : List Stmt) : Run.Folds Flow.Folded (ev.statements .nil body) :=
  (doing_body (W := ev) .nil (fun _ => trivial) body).folds hev

theorem folds_evaluateModule (path : Path) : FoldsAll (ev.evaluateModule path) :=
  .bind (folds_readModuleFile path) fun p _ => .bind (folds_newRoot _) fun root _ =>
    .bind (.change fun _ hm => hm.addPrelude root) fun _ _ =>
      .bind ((folds_statements hev p.body).within root) fun _ _ => .pure trivial

theorem modular_folds : ev.Modular FoldsAll (Run.Folds Flow.Folded) where
  pure _ := .pure trivial
  bind hx hf := .bind hx fun a _ => hf a
  last := .pure trivial
  lead hx hf := .bind hx fun a _ => hf a
  raise _ := .stop _
  read _ := .seen _
  table _ := .change fun _ hm => hm.same
  path source := (isStill_modulePath source).folds trivial {}
  builtin := folds_loadBuiltin
  evaluated path := (folds_evaluateModule hev path).onFault fun _ _ hm => hm.same
  declare scope name root := .declare scope name (v := .module root) trivial true
  picks := folds_linkPicks
  link _ _ := folds_onScopes fun _ _ hs linked => hs.link linked

theorem folds_performStep (s : Stmt) : Run.Folds Flow.Folded (ev.performStep s) := by
  cases hform : s.form with
  | useModule source called picks =>
    unfold performStep
    rw [hform]
    exact (modular_folds hev).useModule source called picks
  | expose declaration =>
    unfold performStep
    rw [hform]
    refine .bind (hev.perform declaration) fun flow hflow => ?_
    cases declaration.form.declaredName? with
    | none => exact .pure hflow
    | some name =>
      exact .bind (.change fun _ hm => ⟨hm.scopes.expose _ _, hm.heap, hm.tasks, hm.registry⟩) fun _ _ => .pure hflow
  | _ => exact (doing_performStep (W := ev) rfl (by simp [hform]) (by simp [hform])).folds hev

theorem folds_workStep {job : Job} (hjob : job.Folded) : FoldsAll (ev.workStep job) :=
  .bind (.change fun _ hm => hm.same) fun _ _ =>
    .bind (((doing_pipeline (W := ev) rfl job fun _ => hjob).folds hev).within job.scope) fun v hv =>
      .change fun _ hm => ⟨hm.scopes, hm.heap, hm.tasks.resolve job.task hv, hm.registry⟩

omit hev

theorem folds_look (stop : Machine → Bool) : FoldsAll (Run.look stop) := by
  intro m hm
  unfold Run.look
  split
  · exact hm
  · exact ⟨hm, trivial⟩

theorem folds_observe (s : Stmt) : FoldsAll (Run.observe s) := by
  intro m hm
  obtain ⟨o, t, told | told⟩ := m.exists_observe s <;> rw [told]
  · exact ⟨hm.same, trivial⟩
  · exact hm.same

theorem folds_upTo (stop : Machine → Bool) (depth : Nat) : (upTo stop depth).Folds := by
  have looked {α : Type} {P : α → Prop} {x : Run α} (hx : Run.Folds P x) : Run.Folds P (x.upTo stop) :=
    .bind (folds_look stop) fun _ _ => .bind hx fun _ ha => .bind (folds_look stop) fun _ _ => .pure ha
  induction depth with
  | zero => exact ⟨fun _ => .exhaust, fun _ => .exhaust, fun _ => .exhaust, fun _ _ => .exhaust⟩
  | succ depth ih =>
    refine ⟨fun e => looked (((doing_evaluateForm (W := upTo stop depth) rfl e).folds ih).recorded e.span),
      fun s => looked ?_,
      fun s => looked (folds_performStep ih s), fun job hjob m hm => ?_⟩
    · exact .bind (folds_observe s) fun _ _ => (ih.perform s).recorded s.span
    · show ((workUpTo stop (upTo stop depth) job) m).Folded _
      unfold workUpTo
      split
      · exact hm.same
      · exact (Folds.bind (folds_workStep ih hjob) fun _ _ => folds_look stop) m hm

end Evaluator

/-! ## Programs -/

namespace Machine

variable {m : Machine}

theorem folds_pass {ev : Evaluator} (hev : ev.Folds) (p : Program) : Run.Folds Value.Folded (pass ev p) :=
  .bind (Evaluator.folds_statements hev p.body) fun _ hflow =>
    .bind ((Evaluator.doing_drainIn (W := ev) _).folds hev) fun _ _ => .pure hflow

theorem folds_interpretTo (depth : Nat) (p : Program) : Run.Folds Value.Folded (interpretTo depth p) := by
  intro m hm
  have passed := folds_pass (Evaluator.upTo_never depth ▸ Evaluator.folds_upTo (fun _ => false) depth) p
  rw [interpretTo_eq]
  exact passed.onFault (fun _ _ hm => ⟨hm.scopes, hm.heap, hm.tasks.clear, hm.registry⟩) _ hm.same

/-- **A machine on which programs have been run**, one pass after another, whether they were done or failed. It
started without any values but those of its built-in modules, and between passes its values stay as they are. -/
inductive Ran : Machine → Prop where
  | start {m : Machine} (scopes : m.scopes = {}) (heap : m.heap = {}) (tasks : m.tasks = {})
      (registry : m.registry.Folded) (file : Option Path) : Ran (m.start file)
  | between {m m' : Machine} (h : Ran m) (scopes : m'.scopes = m.scopes) (heap : m'.heap = m.heap)
      (tasks : m'.tasks = m.tasks) (registry : m'.registry.Folded) : Ran m'
  | done {m m' : Machine} {v : Value} (h : Ran m) (depth : Nat) (p : Program)
      (ends : interpretTo depth p m = .done v m') : Ran m'
  | failed {m m' : Machine} {fault : Fault} (h : Ran m) (depth : Nat) (p : Program)
      (ends : interpretTo depth p m = .failed fault m') : Ran m'

theorem Ran.folded (h : m.Ran) : m.Folded := by
  induction h with
  | start scopes heap tasks registry file =>
    rename_i m
    have rooted : ({ m with scopes := (m.scopes.addRoot file).2, current := (m.scopes.addRoot file).1 } :
        Machine).Folded := by
      refine ⟨Scopes.Folded.push ?_ rfl, ?_, ?_, registry⟩
      · rw [scopes]; exact nofun
      · show m.heap.Folded
        rw [heap]; exact ⟨nofun, nofun⟩
      · show m.tasks.Folded
        rw [tasks]; exact ⟨nofun, nofun⟩
    exact rooted.addPrelude _
  | between _ scopes heap tasks registry ih => exact ⟨scopes ▸ ih.scopes, heap ▸ ih.heap, tasks ▸ ih.tasks, registry⟩
  | done _ depth p ends ih =>
    have passed := folds_interpretTo depth p _ ih
    rw [ends] at passed
    exact passed.1
  | failed _ depth p ends ih =>
    have passed := folds_interpretTo depth p _ ih
    rw [ends] at passed
    exact passed

/-- **What is not a number is always folded.** On a machine on which programs have been run, and at every moment of
the next program, all numbers and bounds of ranges in scopes, arrays, objects, results of tasks and jobs are numbers,
and so is what the program comes to. Such a value is equal to itself, unless it is the one that is not a number. -/
theorem nan_folded (h : m.Ran) :
    m.Folded ∧
    (∀ depth p, (interpretTo depth p m).Folded Value.Folded ∧
      ∀ stop, (pass (.upTo stop depth) p { m with log := {} }).Folded Value.Folded) ∧
    ∀ v : Value, v.Folded → v ≠ .nan → v.equal v = true ∧ v.same v = true := by
  have folded := h.folded
  refine ⟨folded, fun depth p => ⟨folds_interpretTo depth p m folded, fun stop => ?_⟩,
    fun v hv proper => ⟨hv.equal proper, hv.same proper⟩⟩
  exact folds_pass (Evaluator.folds_upTo stop depth) p _ folded.same

def zeroByZero : Program :=
  let zero : Expr := ⟨{}, .literal (.number 0)⟩
  ⟨0, [⟨0, {}, .expression ⟨{}, .arithmetic zero .divide zero⟩⟩]⟩

/-- It comes to what is not a number. -/
theorem nan_folded_zeroByZero : (({} : Machine).start none).Ran ∧
    ∃ m', interpretTo 4 zeroByZero (({} : Machine).start none) = .done .nan m' ∧ m'.Folded := by
  have ran : (({} : Machine).start none).Ran :=
    .start rfl rfl rfl (fun _ _ given => by simp [Registry.standard] at given) none
  have folded := ((nan_folded ran).2.1 4 zeroByZero).1
  obtain ⟨m', ends⟩ : ∃ m', interpretTo 4 zeroByZero (({} : Machine).start none) = .done .nan m' := ⟨_, rfl⟩
  rw [ends] at folded
  exact ⟨ran, m', ends, folded.1⟩

end Machine

end Trellis
