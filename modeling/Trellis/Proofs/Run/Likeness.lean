import Trellis.Proofs.Run.Errands

/-!
# Evaluators side by side

Two evaluators that go beside each other with regard to a likeness are compared in all they do. The pieces that
evaluation is made of go beside each other (`Errand.Doing.beside`), and all that is left to be shown about a likeness is
what becomes of it when a module is loaded and when an observer is told of a statement.
-/

namespace Trellis

open Run

structure Evaluator.Beside (R : Machine → Machine → Prop) (ev ev' : Evaluator) : Prop where
  likeness : Machine.Likeness R
  evaluate : ∀ e, Run.Beside R (ev.evaluate e) (ev'.evaluate e)
  execute : ∀ s, Run.Beside R (ev.execute s) (ev'.execute s)
  perform : ∀ s, Run.Beside R (ev.perform s) (ev'.perform s)
  work : ∀ job, Run.Beside R (ev.work job) (ev'.work job)
  rounds : ev'.rounds = ev.rounds

namespace Evaluator

variable {R : Machine → Machine → Prop} {ev ev' : Evaluator}

theorem Beside.blind {α : Type} (hev : ev.Beside R ev') {x : Run α} (h : IsBlind x) : Run.Beside R x x :=
  h.beside hev.likeness

theorem Beside.pure {α : Type} (hev : ev.Beside R ev') (a : α) : Run.Beside R (Pure.pure a) (Pure.pure a) :=
  .pure hev.likeness a

end Evaluator

theorem Errand.Doing.beside {R : Machine → Machine → Prop} {ev ev' : Evaluator} (hev : ev.Beside R ev') {E : Errand}
    {p : Place} {α : Type} {P : α → Prop} {x x' : Run α} (h : Doing .same False ev ev' E p P x x') :
    Run.Beside R x x' := by
  induction h with
  | pure _ => exact hev.pure _
  | exhaust => exact .exhaust
  | bind _ _ hx hf => exact .bind hx fun a => hf a nofun
  | still _ h => exact hev.blind (h.blind id _)
  | write text => exact .write hev.likeness text
  | misassigned _ _ => exact hev.blind (.fail _ _)
  | misrun _ _ => exact hev.blind (.fail _ _)
  | evaluate _ => exact hev.evaluate _
  | execute _ _ => exact hev.execute _
  | assign _ name _ =>
    refine hev.blind fun m o t => ?_
    unfold Evaluator.assignName
    dsimp only [Machine.seenBy]
    cases m.scopes.assignee m.current name <;> exact ⟨_, rfl, rfl, rfl, rfl, rfl⟩
  | function _ kind name params => exact hev.blind fun _ _ _ => ⟨_, rfl, rfl, rfl, rfl, rfl⟩
  | schedule _ _ _ => exact hev.blind fun _ _ _ => ⟨_, rfl, rfl, rfl, rfl, rfl⟩
  | declare _ _ name _ static _ ih =>
    exact .bind (hev.blind (.read fun _ _ _ => rfl)) fun _ => .bind (hev.blind (.declare _ _ _ _)) fun _ => ih
  | bindName _ scope b name _ static => exact hev.blind (.declare _ _ _ _)
  | block scope _ ih => exact .within hev.likeness ih scope
  | recordedBlock scope span _ ih => exact .recorded hev.likeness (.within hev.likeness ih scope) span
  | newScope _ _ ih => exact .bind (hev.blind .newScope) ih
  | call _ ref arguments _ ih =>
    intro m m' hm
    obtain ⟨o, t, rfl⟩ := hev.likeness.same hm
    rw [Evaluator.call_function, Evaluator.call_function]
    dsimp only [Machine.seenBy]
    cases m.heap.functions[ref]? with
    | none => exact hev.blind ((Evaluator.isStill_refuseCall (P := fun _ => True) _).blind id _) _ _ hm
    | some f => exact ih f _ _ _ (hev.likeness.carry hm rfl rfl rfl)
  | work _ _ _ hx hy =>
    refine .bind (hev.blind fun m o t => ?_) fun job => ?_
    · unfold Evaluator.nextJob?
      dsimp only [Machine.seenBy]
      cases m.tasks.pop? <;> exact ⟨_, rfl, rfl, rfl, rfl, rfl⟩
    · cases job with
      | some job => exact .bind (hev.work job) fun _ => hx
      | none => exact hy

namespace Evaluator

variable {R : Machine → Machine → Prop} {ev ev' : Evaluator} {source : String} {m m' : Machine}

theorem beside_workStep (hev : ev.Beside R ev') (job : Job) : Run.Beside R (ev.workStep job) (ev'.workStep job) :=
  .bind (hev.blind (.change fun _ _ _ => ⟨rfl, rfl, rfl, rfl⟩)) fun _ =>
    .bind (.within hev.likeness ((doing_pipeline hev.rounds job nofun).beside hev) job.scope) fun _ =>
      hev.blind (.change fun _ _ _ => ⟨rfl, rfl, rfl, rfl⟩)

theorem beside_evaluateStep (hev : ev.Beside R ev') (e : Expr) :
    Run.Beside R (ev.evaluateStep e) (ev'.evaluateStep e) :=
  .recorded hev.likeness ((doing_evaluateForm hev.rounds e).beside hev) e.span

/-! ## Modules -/

theorem isBlind_linkPicks (root : ScopeId) (picks : List Pick) : IsBlind (linkPicks root picks) := by
  induction picks with
  | nil => exact .pure _
  | cons p rest ih =>
    refine .bind ((isStill_readModule _ _).blind id {}) fun _ => .bind (.read fun _ _ _ => rfl) fun current =>
      .bind (.onScopes _) fun _ => ?_
    cases p.called with
    | none => exact ih
    | some other => exact .bind (.change fun _ _ _ => ⟨rfl, rfl, rfl, rfl⟩) fun _ => ih

theorem modulePath_seenBy (source : String) (m : Machine) (o : Observer) (t : Transcript) :
    (∃ path, modulePath source m = .done path m ∧
      modulePath source (m.seenBy o t) = .done path (m.seenBy o t)) ∨
    ∃ fault, modulePath source m = .failed fault m ∧
      modulePath source (m.seenBy o t) = .failed fault (m.seenBy o t) := by
  unfold modulePath
  rw [Action.bind_apply, Action.bind_apply]
  dsimp only [Action.state, Machine.seenBy, Machine.currentFile]
  cases m.files.canonical _ with
  | ok path => exact .inl ⟨path, rfl, rfl⟩
  | error reason => exact .inr ⟨_, rfl, rfl⟩

theorem isBlind_readModuleFile (path : Path) : IsBlind (readModuleFile path) := by
  intro m o t
  unfold readModuleFile
  dsimp only [Machine.seenBy]
  cases m.files.read path with
  | error reason => exact ⟨_, rfl, .refl m o t⟩
  | ok source =>
    dsimp only
    cases readScript m.keywords m.settings.matching source with
    | done program _ => exact ⟨_, rfl, rfl, rfl, rfl, rfl⟩
    | failed fault _ => exact ⟨_, rfl, .refl m o t⟩
    | exhausted => rfl

theorem isBlind_newRoot (file : Option Path) : IsBlind (newRoot file) :=
  fun _ _ _ => ⟨_, rfl, rfl, rfl, rfl, rfl⟩

theorem isBlind_bindExports (root : ScopeId) (exports : List (String × Value)) :
    IsBlind (bindExports root exports) := by
  induction exports with
  | nil => exact .pure _
  | cons entry rest ih =>
    exact .bind (.declare _ _ _ _) fun _ => .bind (.change fun _ _ _ => ⟨rfl, rfl, rfl, rfl⟩) fun _ => ih

theorem isBlind_addPrelude (root : ScopeId) : IsBlind (Action.change fun m => m.addPrelude root) := by
  refine .change fun m o t => ?_
  unfold Machine.addPrelude
  dsimp only [Machine.seenBy]
  cases m.registry.build? "global" m.clock.now m.heap with
  | none => exact .refl m o t
  | some built => exact ⟨rfl, rfl, rfl, rfl⟩

theorem beside_evaluateModule (hev : ev.Beside R ev') (path : Path) :
    Run.Beside R (ev.evaluateModule path) (ev'.evaluateModule path) :=
  .bind (hev.blind (isBlind_readModuleFile path)) fun program =>
    .bind (hev.blind (isBlind_newRoot (some path))) fun root =>
      .bind (hev.blind (isBlind_addPrelude root)) fun _ =>
        .bind (.within hev.likeness ((doing_body .nil nofun program.body).beside hev) root) fun _ =>
          hev.pure root

theorem beside_loadBuiltin (hR : Machine.Likeness R) (name : String)
    (finish : ∀ root m m', R m m' → m.modules.root? (.builtin name) = none →
      R { m with modules := m.modules.finish (.builtin name) root }
        { m' with modules := m'.modules.finish (.builtin name) root }) :
    Run.Beside R (loadBuiltin name) (loadBuiltin name) := by
  intro m m' h
  obtain ⟨o, t, rfl⟩ := hR.same h
  unfold loadBuiltin
  rw [Action.bind_apply, Action.bind_apply, Action.read_apply, Action.read_apply]
  show Outcome.Beside R _ _
  dsimp only
  rw [show (m.seenBy o t).modules = m.modules from rfl]
  cases miss : m.modules.root? (.builtin name) with
  | some root => exact ⟨_, rfl, h⟩
  | none =>
    -- until it is kept, the module stays missing
    have hS := hR.having (fun modules => modules.root? (.builtin name) = none)
    refine Action.beside_bind ((IsBlind.read fun _ _ _ => rfl).beside hS _ _ ⟨h, miss⟩)
      (fun _ _ hn => hn.1) fun built n n' hn => ?_
    cases built with
    | none =>
      exact IsBlind.beside hR (.bind (.read fun _ _ _ => rfl) fun _ => .raise _) n n' hn.1
    | some built =>
      have heap : IsBlind (Action.change fun m => { m with heap := built.2 }) :=
        .change fun _ _ _ => ⟨rfl, rfl, rfl, rfl⟩
      refine Action.beside_bind (heap.beside hS n n' hn) (fun _ _ hn => hn.1) fun _ n n' hn => ?_
      refine Action.beside_bind ((isBlind_newRoot none).beside hS n n' hn)
        (fun _ _ hn => hn.1) fun root n n' hn => ?_
      refine Action.beside_bind ((isBlind_bindExports root built.1).beside hS n n' hn)
        (fun _ _ hn => hn.1) fun _ n n' hn => ?_
      exact ⟨_, rfl, finish root n n' hn.1 hn.2⟩

/-- **A module in a file** is evaluated by evaluators that go beside each other in a relation of their own. It
holds from when the module is marked as loading until the mark is taken away. -/
theorem beside_loadFile {S : Path → Machine → Machine → Prop} (hR : Machine.Likeness R) (h : R m m')
    (hev : ∀ path, modulePath source m = .done path m → ev.Beside (S path) ev')
    (start : ∀ path modules, m.modules.root? (.file path) = none →
      m.modules.start (.file path) = .ok modules → S path { m with modules } { m' with modules })
    (abandon : ∀ path n n', S path n n' →
      R { n with modules := n.modules.abandon (.file path) } { n' with modules := n'.modules.abandon (.file path) })
    (finish : ∀ path root n n', S path n n' → R { n with modules := n.modules.finish (.file path) root }
      { n' with modules := n'.modules.finish (.file path) root }) :
    (ev.loadFile source m).Beside R (ev'.loadFile source m') := by
  obtain ⟨o, t, rfl⟩ := hR.same h
  unfold loadFile
  rw [Action.bind_apply, Action.bind_apply]
  obtain ⟨path, hpath, hpath'⟩ | ⟨fault, hfault, hfault'⟩ := modulePath_seenBy source m o t
  · rw [hpath, hpath']
    dsimp only
    rw [Action.bind_apply, Action.bind_apply, Action.read_apply, Action.read_apply]
    dsimp only
    rw [show (m.seenBy o t).modules = m.modules from rfl]
    cases miss : m.modules.root? (.file path) with
    | some root => exact ⟨_, rfl, h⟩
    | none =>
      show Outcome.Beside R ((Action.ofExcept (m.modules.start (.file path)) >>= _) m)
        ((Action.ofExcept (m.modules.start (.file path)) >>= _) (m.seenBy o t))
      cases hstart : m.modules.start (.file path) with
      | error fault => exact ⟨_, rfl, h⟩
      | ok modules =>
        have body := beside_evaluateModule (hev path hpath) path _ _ (start path modules miss hstart)
        show Outcome.Beside R (((ev.evaluateModule path).onFault _ >>= _) { m with modules })
          (((ev'.evaluateModule path).onFault _ >>= _) { m.seenBy o t with modules })
        rw [Action.bind_apply, Action.bind_apply]
        unfold Action.onFault
        exact body.elim (fun root n n' hn => ⟨_, rfl, finish path root n n' hn⟩)
          (fun _ n n' hn => ⟨_, rfl, abandon path n n' hn⟩) rfl
  · rw [hfault, hfault']
    exact ⟨_, rfl, h⟩

theorem beside_loadModule (hR : Machine.Likeness R) (h : R m m')
    (builtin : ∀ name, Run.Beside R (loadBuiltin name) (loadBuiltin name))
    (file : (ev.loadFile source m).Beside R (ev'.loadFile source m')) :
    (ev.loadModule source m).Beside R (ev'.loadModule source m') := by
  obtain ⟨o, t, rfl⟩ := hR.same h
  unfold loadModule
  rw [Action.bind_apply, Action.bind_apply, Action.read_apply, Action.read_apply]
  dsimp only
  rw [show (m.seenBy o t).settings = m.settings from rfl]
  split
  · exact builtin _ _ _ h
  · exact file

theorem beside_useModule (hR : Machine.Likeness R)
    (load : (ev.loadModule source m).Beside R (ev'.loadModule source m')) (called : Option Ident)
    (picks : List Pick) : (ev.useModule source called picks m).Beside R (ev'.useModule source called picks m') := by
  refine Action.beside_bind load (fun _ _ hn => hn) fun root =>
    IsBlind.beside hR (.bind (.read fun _ _ _ => rfl) fun current => ?_)
  have links : IsBlind (do
      linkPicks root picks
      if called.isNone && picks.isEmpty then
        Run.onScopes fun scopes => scopes.link current "*" root
      return Flow.value .nil) := by
    refine .bind (isBlind_linkPicks root picks) fun _ => ?_
    split
    · exact .bind (.onScopes _) fun _ => .pure _
    · exact .pure _
  cases called with
  | some name => exact .bind (.declare _ _ _ _) fun _ => links
  | none => exact links

/-! ## Statements -/

theorem beside_performStep (hev : ev.Beside R ev') (s : Stmt)
    (load : ∀ source called picks, s.form = .useModule source called picks →
      Run.Beside R (ev.loadModule source) (ev'.loadModule source)) :
    Run.Beside R (ev.performStep s) (ev'.performStep s) := by
  cases hform : s.form with
  | useModule source called picks =>
    have loaded := load source called picks hform
    obtain ⟨id, span, form⟩ := s
    cases hform
    exact fun m m' h => beside_useModule hev.likeness (loaded m m' h) called picks
  | expose declaration =>
    obtain ⟨id, span, form⟩ := s
    cases hform
    refine .bind (hev.perform declaration) fun flow => ?_
    cases declaration.form.declaredName? with
    | none => exact hev.pure _
    | some name =>
      exact hev.blind (.bind (.change fun _ _ _ => ⟨rfl, rfl, rfl, rfl⟩) fun _ => .pure _)
  | _ => exact (doing_performStep hev.rounds (by simp [hform]) (by simp [hform])).beside hev

theorem beside_executeStep (hev : ev.Beside R ev') (s : Stmt)
    (observe : Run.Beside R (Run.observe s) (Run.observe s)) :
    Run.Beside R (ev.executeStep s) (ev'.executeStep s) :=
  .bind observe fun _ => .recorded hev.likeness (hev.perform s) s.span

end Evaluator

theorem Machine.beside_pass {R : Machine → Machine → Prop} {ev ev' : Evaluator}
    (hev : ev.Beside R ev') (p : Program) : Run.Beside R (pass ev p) (pass ev' p) :=
  .bind ((Evaluator.doing_body .nil nofun p.body).beside hev) fun _ => by
    unfold Evaluator.drain
    rw [hev.rounds]
    exact .bind ((Evaluator.doing_drainIn ev.rounds).beside hev) fun _ => hev.pure _

end Trellis
