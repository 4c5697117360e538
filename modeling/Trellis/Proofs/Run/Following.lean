import Trellis.Proofs.Run.Errands

/-!
# Evaluation follows courses

Every part of evaluation follows a course, whatever it comes to: a value, a result or a fault. The pieces that
evaluation is made of do so (`Errand.Doing.follows`), assuming it of the evaluator that is gone back to, and the
knot is tied by the recursion on the depth (`Evaluator.follows_ofDepth`). Expressions stay inside, and a
statement goes as far as its form says (`Stmt.reach`).
-/

namespace Trellis

open Run

variable {α : Type}

theorem Run.IsStill.isQuiet {P : α → Prop} {x : Span → Run α} (h : IsStill False P x) (span : Span) :
    IsQuiet (x span) := by
  intro m
  have still := h.still id span m
  cases hs : x span m with
  | done a m' => rw [hs] at still; exact still.toQuiet
  | failed fault m' => rw [hs] at still; exact still.1.toQuiet
  | exhausted => trivial

theorem Run.IsQuiet.followsIn {w : Bool} {scope : ScopeId} {x : Run α} (h : IsQuiet x) :
    FollowsIn w .here scope x := by
  intro m
  refine (h m).imp fun whole m' quiet => ⟨m'.moveTo scope, ?_, ?_⟩
  · have inside : (m.moveTo scope).Quiet (m'.moveTo scope) :=
      ⟨quiet.settings, quiet.keywords, quiet.registry, quiet.scopes, rfl, quiet.functions, quiet.tasks,
        quiet.modules, quiet.journal⟩
    cases whole with
    | true => exact .quiet inside
    | false => exact .stop (.quiet inside)
  · show m' = { m' with current := m.current }
    rw [← quiet.current]

/-! ## The evaluator that is gone back to -/

/-- What the work on a job does: its course starts in the scope of the job, and if that one is whole the task
gets its result. The work itself may be broken off before or behind that. -/
def Machine.Worked (job : Job) (whole : Bool) (m m' : Machine) : Prop :=
  (∃ m₁ v, Course true .inside true (m.begin job) m₁ ∧ m' = (m₁.moveTo m.current).complete job v) ∨
    (whole = false ∧ ∃ m₁, Course true .inside false (m.begin job) m₁ ∧ m' = m₁.moveTo m.current)

structure Evaluator.Follows (ev : Evaluator) : Prop where
  evaluate : ∀ {w : Bool} {e : Expr}, (w || e.every ExprForm.isWaitless) = true →
    Run.Follows w .inside (ev.evaluate e)
  execute : ∀ {w : Bool} {s : Stmt}, (w || s.every ExprForm.isWaitless) = true →
    Run.Follows w s.reach (ev.execute s)
  perform : ∀ {w : Bool} {s : Stmt}, (w || s.every ExprForm.isWaitless) = true →
    Run.Follows w s.reach (ev.perform s)
  work : ∀ (job : Job) (m : Machine), (ev.work job m).Ends fun whole m' => m.Worked job whole m'

/-! ## Code that does not wait -/

namespace Errand

def IsWaitless (E : Errand) : Prop :=
  ¬E.Waits ∧ ∀ e, E.Has (.expr e) → e.form.isWaitless = true

/-- The marks under which an errand can be done: code that waits needs a course that may wait. -/
def Permits (E : Errand) (w : Bool) : Prop :=
  w = true ∨ E.IsWaitless

variable {E : Errand} {w : Bool}

theorem Permits.waits (h : E.Permits w) (waits : E.Waits) : w = true :=
  h.resolve_right fun waitless => waitless.1 waits

theorem Permits.node (h : E.Permits w) {n : Node} (has : E.Has n) : (w || n.every ExprForm.isWaitless) = true := by
  obtain rfl | waitless := h
  · rfl
  · obtain ⟨root, hroot, below⟩ := has
    rw [Node.every_iff.mpr fun e he => waitless.2 e ⟨root, hroot, Node.mem_all_trans n he below⟩, Bool.or_true]

theorem Permits.body (h : E.Permits w) {b : Block} (has : E.Has (.block b)) : (body b.body).Permits w := by
  refine h.imp_right fun waitless => ⟨fun waits => waits, fun e he => waitless.2 e ?_⟩
  obtain ⟨_, hs, below⟩ := he
  obtain ⟨root, hroot, hb⟩ := has
  exact ⟨root, hroot, Node.mem_all_trans _ below (Node.part_mem_all (n := .block b) hs root hb)⟩

theorem permits_body {statements : List Stmt} (h : (w || Stmt.everyOf ExprForm.isWaitless statements) = true) :
    (body statements).Permits w := by
  rw [Bool.or_eq_true] at h
  refine h.imp_right fun waitless => ⟨fun waits => waits, ?_⟩
  rintro e ⟨root, hroot, below⟩
  rw [Node.everyOf_statements, List.all_eq_true] at waitless
  exact Node.every_iff.mp (waitless root hroot) e below

/-- **What is done for an errand follows a course**: one of the errand's own reach in the current scope, or one in
a scope that was made for a block. -/
def Following {α : Type} (E : Errand) (p : Place) (x : Run α) : Prop :=
  match p with
  | .here => ∀ w, E.Permits w → Run.Follows w E.reach x
  | .made scope b => ∀ w, (body b.body).Permits w → FollowsIn w .here scope x

end Errand

namespace Evaluator

variable {ev : Evaluator} {w : Bool}

theorem follows_nextJob (hev : ev.Follows) {x y : Run α} (hx : Run.Follows true .inside x)
    (hy : Run.Follows true .inside y) : Run.Follows true .inside (ev.afterJob x y) := by
  intro m
  unfold FollowsAt
  rw [afterJob_eq]
  cases hpop : m.tasks.pop? with
  | none => exact hy m
  | some popped =>
    obtain ⟨job, tasks⟩ := popped
    refine Action.ends_bind (hev.work job { m with tasks }) ?_ ?_
    · rintro _ (⟨m₁, v, c₁, rfl⟩ | ⟨-, m₁, c₁, rfl⟩)
      · exact .stop (.work v hpop c₁)
      · exact .workStopped hpop c₁
    · rintro _ _ _ (⟨m₁, v, c₁, rfl⟩ | ⟨hwhole, -⟩)
      · exact (hx _).imp fun _ _ c₂ => .seq (.work v hpop c₁) c₂
      · cases hwhole

theorem follows_assignName (name : String) (v : Value) : Run.Follows w .inside (assignName name v) := by
  intro m
  unfold FollowsAt assignName
  split
  · rename_i owner h
    exact .assign name v h
  · exact .stop (.refl m)

theorem followsAt_declare (name : String) (v : Value) (static : Bool) (m : Machine) :
    FollowsAt w .here (Run.declare m.current name v static) m := by
  unfold FollowsAt Run.declare
  cases h : m.scopes.declareFault? m.current name with
  | some fault => exact .stop (.refl m)
  | none => exact .declare name v static h

end Evaluator

theorem Errand.Doing.follows {ev ev' : Evaluator} (hev : ev.Follows) {E : Errand} {p : Place} {P : α → Prop}
    {x x' : Run α} (h : Doing .same False ev ev' E p P x x') : E.Following p x := by
  have quiet {E : Errand} {p : Place} {α : Type} {x : Run α} (h : IsQuiet x) : E.Following p x := by
    cases p with
    | here => exact fun w _ => h.follows
    | made scope b => exact fun w _ => h.followsIn
  induction h with
  | pure _ => exact quiet (.pure _)
  | @exhaust E p =>
    cases p with
    | here => exact fun w _ => .exhaust
    | made scope b => exact fun w _ _ => trivial
  | @bind _ _ E p _ _ _ _ _ _ _ _ hx hf =>
    cases p with
    | here => exact fun w hw => .bind (hx w hw) fun a => hf a nofun w hw
    | made scope b => exact fun w hw => .bind (hx w hw) fun a => hf a nofun w hw
  | still _ h => exact quiet (h.isQuiet _)
  | write text => exact quiet fun m => ⟨rfl, rfl, rfl, rfl, rfl, rfl, rfl, rfl, rfl⟩
  | misassigned _ _ => exact fun w _ => .fail _ _
  | misrun _ _ => exact fun w _ => .fail _ _
  | evaluate has => exact fun w hw => (hev.evaluate (hw.node has)).reaching _
  | execute has reach =>
    intro w hw
    have follows := hev.execute (hw.node has)
    obtain inside | here := reach
    · rw [inside] at follows
      exact follows.reaching _
    · rw [here]
      exact follows.here
  | assign _ name _ => exact fun w _ => (Evaluator.follows_assignName name _).reaching _
  | @function E body has kind name params =>
    intro w hw
    have code : w = true ∨ body.every ExprForm.isWaitless = true := Bool.or_eq_true_iff.mp (hw.node has)
    have made : Run.Follows w .inside (Evaluator.makeFunction kind name params body) :=
      fun _ => Course.function _ rfl code
    exact made.reaching _
  | schedule _ _ _ => exact fun w _ _ => .schedule _ _ _ _
  | declare reach _ name _ static _ ih =>
    intro w hw
    have next := ih w hw
    rw [reach] at next ⊢
    exact .read_bind fun m => (Evaluator.followsAt_declare name _ static m).bind fun _ m₁ _ => next m₁
  | bindName _ scope b name _ static => exact fun w _ => .declare name _ static
  | block scope _ ih => exact fun w hw => .within (ih w hw)
  | recordedBlock scope span _ ih => exact fun w hw => (FollowsIn.within (ih w hw)).recorded span
  | newScope has _ ih =>
    exact fun w hw => (FollowsIn.newScope_bind fun scope => ih scope w (hw.body has)).reaching _
  | call _ ref arguments _ ih =>
    intro w _
    refine Follows.reaching (fun m => ?_) _
    unfold FollowsAt
    rw [Evaluator.call_function]
    cases hf : m.heap.functions[ref]? with
    | none => exact ((Evaluator.isStill_refuseCall (P := fun _ => True) _).isQuiet _).follows m
    | some f =>
      have permits : (Errand.body f.body.body).Permits (!f.body.every ExprForm.isWaitless) := permits_body (by simp)
      refine (ih f (m.scopes.addChild f.scope).1 _ permits _).imp ?_
      rintro whole _ ⟨n₁, c₁, rfl⟩
      exact .call f (Array.mem_of_getElem? hf) c₁
  | @work _ _ _ _ _ _ E waits _ _ hx hy =>
    intro w hw
    have inside : E.reach = .inside := by
      cases E with
      | stmt s => exact waits.elim
      | body statements => exact waits.elim
      | _ => rfl
    have hx := hx w hw
    have hy := hy w hw
    rw [inside] at hx hy ⊢
    cases hw.waits waits
    exact Evaluator.follows_nextJob hev hx hy

namespace Evaluator

variable {ev : Evaluator} {w : Bool} {root : ScopeId} {m m' : Machine}

/-! ## Statements, calls and tasks -/

theorem follows_statements (hev : ev.Follows) (last : Value) (body : List Stmt)
    (hw : (w || Stmt.everyOf ExprForm.isWaitless body) = true) :
    Run.Follows w .here (ev.statements last body) :=
  (doing_body (W := ev) last nofun body).follows hev w (Errand.permits_body hw)

theorem followsIn_block (hev : ev.Follows) (b : Block) (scope : ScopeId)
    (hw : (w || b.every ExprForm.isWaitless) = true) : FollowsIn w .here scope (ev.block b scope) :=
  .within (follows_statements hev .nil b.body (by simpa using hw))

theorem follows_call (hev : ev.Follows) (callee : Value) (arguments : List Value) (span : Span) :
    Run.Follows true .inside (ev.call callee arguments span) :=
  (doing_call (W := ev) (E := .job ⟨0, callee, arguments, [], 0, span⟩) rfl callee nofun).follows hev true
    (.inl rfl)

theorem follows_waitFor (hev : ev.Follows) (task : TaskId) (span : Span) :
    Run.Follows true .inside (ev.waitFor task span) :=
  (doing_waitIn (W := ev) (E := .job ⟨0, .nil, [], [], 0, span⟩) rfl trivial task ev.rounds).follows hev true
    (.inl rfl)

theorem follows_drain (hev : ev.Follows) : Run.Follows true .inside ev.drain :=
  (doing_drainIn (W := ev) ev.rounds).follows hev true (.inl rfl)

theorem worked_workStep (hev : ev.Follows) (job : Job) (m : Machine) :
    (ev.workStep job m).Ends fun whole m' => m.Worked job whole m' := by
  have inner : FollowsIn true .inside job.scope (Run.within job.scope (ev.pipeline job)) :=
    .within ((doing_pipeline (W := ev) rfl job nofun).follows hev true (.inl rfl))
  show Outcome.Ends _ ((Run.within job.scope (ev.pipeline job) >>= _) (m.note (.started job.task)))
  refine Action.ends_bind (inner (m.note (.started job.task))) ?_ ?_
  · rintro _ ⟨m₁, c₁, rfl⟩
    exact .inr ⟨rfl, m₁, c₁, rfl⟩
  · rintro v _ _ ⟨m₁, c₁, rfl⟩
    exact .inl ⟨m₁, v, c₁, rfl⟩

/-! ## Expressions and statements -/

theorem follows_evaluateStep (hev : ev.Follows) (e : Expr)
    (hw : (w || e.every ExprForm.isWaitless) = true) :
    Run.Follows w .inside (ev.evaluateStep e) := by
  have permits : (Errand.expr e).Permits w := by
    rw [Bool.or_eq_true] at hw
    refine hw.imp_right fun waitless => ?_
    have all := Node.every_iff (n := .expr e).mp waitless
    refine ⟨fun waits => ?_, fun other has => ?_⟩
    · rw [Errand.Waits, all e (Node.self_mem_all _)] at waits
      cases waits
    · obtain ⟨root, hroot, below⟩ := has
      cases List.mem_singleton.mp hroot
      exact all other below
  exact Follows.recorded ((doing_evaluateForm (W := ev) rfl e).follows hev w permits) e.span

/-! ## Modules -/

theorem functions_newBuiltins (h : Heap) (bs : List Builtin) : (h.newBuiltins bs).2.functions = h.functions := by
  induction bs generalizing h with
  | nil => rfl
  | cons b rest ih => exact ih (h.newBuiltin b).2

theorem functions_build? {registry : Registry} {name : String} {now : Int} {h h' : Heap}
    {exports : List (String × Value)} (hb : registry.build? name now h = some (exports, h')) :
    h'.functions = h.functions := by
  obtain ⟨entry, -, hmake⟩ := Option.map_eq_some_iff.mp hb
  rw [show h' = (Registry.make now h entry.2).2 from (congrArg Prod.snd hmake).symm]
  cases entry.2 with
  | global => exact functions_newBuiltins h _
  | files => exact functions_newBuiltins h _
  | paths => exact functions_newBuiltins h _
  | dates => exact functions_newBuiltins (h.newAnchor now).2 _
  | values exports => rfl

theorem followsIn_expose (scope : ScopeId) (name : String) :
    FollowsIn w .here scope
      (Action.change fun m => { m with scopes := m.scopes.expose scope name }) :=
  fun _ => ⟨_, .expose name, rfl⟩

theorem followsIn_bindExports (root : ScopeId) (exports : List (String × Value)) :
    FollowsIn w .here root (bindExports root exports) := by
  induction exports with
  | nil => exact .pure _
  | cons entry rest ih =>
    exact .bind (.declare entry.1 entry.2 true) fun _ =>
      .bind (followsIn_expose root entry.1) fun _ => ih

theorem follows_loadBuiltin (name : String) : Run.Follows w .inside (loadBuiltin name) := by
  intro m
  unfold loadBuiltin FollowsAt
  rw [Action.bind_apply, Action.read_apply]
  cases miss : m.modules.root? (.builtin name) with
  | some root => exact .refl m
  | none =>
    show Outcome.Ends _ ((Action.read _ >>= _) m)
    rw [Action.bind_apply, Action.read_apply]
    cases hb : m.registry.build? name m.clock.now m.heap with
    | none => exact .stop (.refl m)
    | some built =>
      obtain ⟨exports, heap⟩ := built
      -- the functions of the module are made first, and then its root
      have made : m.Quiet { m with heap } :=
        ⟨rfl, rfl, rfl, rfl, rfl, functions_build? hb, rfl, rfl, rfl⟩
      show Outcome.Ends _ ((bindExports (m.scopes.addRoot none).1 exports >>= _)
        { m with heap, scopes := (m.scopes.addRoot none).2 })
      refine Action.ends_bind (followsIn_bindExports (w := w) _ exports _) ?_ ?_
      · rintro _ ⟨m₁, c₁, rfl⟩
        exact .seq (.quiet made) (.builtinStopped name miss c₁)
      · rintro _ _ _ ⟨m₁, c₁, rfl⟩
        exact .seq (.quiet made) (.builtin name miss c₁)

theorem course_declareConstants (exports : List (String × Value)) (m : Machine) :
    Course w .here true m { m with scopes := m.scopes.declareConstants m.current exports } := by
  induction exports generalizing m with
  | nil => exact .refl m
  | cons entry rest ih =>
    obtain ⟨name, v⟩ := entry
    cases hfault : m.scopes.declareFault? m.current name with
    | some fault => simpa only [Scopes.declareConstants, Scopes.declare, hfault] using ih m
    | none =>
      have both := Course.seq (.declare (w := w) name v true hfault) (ih _)
      simpa only [Scopes.declareConstants, Scopes.declare, hfault] using both

theorem followsIn_addPrelude (root : ScopeId) :
    FollowsIn w .here root (Action.change fun m => m.addPrelude root) := by
  intro m
  show ∃ m₁, Course w .here true (m.moveTo root) m₁ ∧ m.addPrelude root = m₁.moveTo m.current
  unfold Machine.addPrelude
  cases hb : m.registry.build? "global" m.clock.now m.heap with
  | none => exact ⟨m.moveTo root, .refl _, rfl⟩
  | some built =>
    obtain ⟨exports, heap⟩ := built
    have made : (m.moveTo root).Quiet ({ m with heap }.moveTo root) :=
      ⟨rfl, rfl, rfl, rfl, rfl, functions_build? hb, rfl, rfl, rfl⟩
    exact ⟨_, .seq (.quiet made) (course_declareConstants exports _), rfl⟩

/-- **What the evaluation of a module does**, unless its file cannot be read: it follows a course in a root
of its own. -/
theorem ends_evaluateModule (hev : ev.Follows) (path : Path) (m : Machine) :
    (ev.evaluateModule path m).Ends fun whole m' =>
      (whole = false ∧ m' = m) ∨
      ∃ program m₁, Course (!program.every ExprForm.isWaitless) .here whole
          ((m.note (.moduleRead path program)).enter (m.scopes.addRoot (some path))) m₁ ∧
        m' = m₁.moveTo m.current := by
  have inner (program : Program) (root : ScopeId) :
      FollowsIn (!program.every ExprForm.isWaitless) .here root (do
        Action.change fun m => m.addPrelude root
        let _ ← Run.within root (ev.statements .nil program.body)
        return root) :=
    .bind (followsIn_addPrelude root) fun _ =>
      .bind (.within (follows_statements hev .nil program.body (by simp [Program.every]))) fun _ =>
        .pure _
  unfold evaluateModule
  rw [Action.bind_apply]
  unfold readModuleFile
  cases m.files.read path with
  | error reason => exact .inl ⟨rfl, rfl⟩
  | ok source =>
    cases hread : readScript m.keywords m.settings.matching source with
    | failed fault _ =>
      simp only [hread]
      exact .inl ⟨rfl, rfl⟩
    | exhausted =>
      simp only [hread]
      trivial
    | done program _ =>
      simp only [hread]
      refine (inner program (m.scopes.addRoot (some path)).1 _).imp ?_
      rintro whole _ ⟨m₁, c₁, rfl⟩
      exact .inr ⟨program, m₁, c₁, rfl⟩

theorem evaluateModule_root {path : Path} (h : ev.evaluateModule path m = .done root m') :
    root = (m.scopes.addRoot (some path)).1 := by
  obtain ⟨program, m₁, hread, h⟩ := Action.done_bind h
  obtain ⟨made, m₂, hmade, h⟩ := Action.done_bind h
  obtain ⟨-, m₃, -, h⟩ := Action.done_bind h
  obtain ⟨-, m₄, -, h⟩ := Action.done_bind h
  cases h
  cases hmade
  have scopes : m₁.scopes = m.scopes := by
    unfold readModuleFile at hread
    split at hread
    · cases hread
    · split at hread
      · cases hread
        rfl
      · cases hread
      · cases hread
  rw [← scopes]
  rfl

theorem follows_loadFile (hev : ev.Follows) (source : String) : Run.Follows w .inside (ev.loadFile source) := by
  refine .bind ((isStill_modulePath source).isQuiet {}).follows fun path m => ?_
  unfold FollowsAt
  rw [Action.bind_apply, Action.read_apply]
  cases miss : m.modules.root? (.file path) with
  | some root => exact .refl m
  | none =>
    show Outcome.Ends _ ((Action.ofExcept (m.modules.start (.file path)) >>= _) m)
    cases start : m.modules.start (.file path) with
    | error fault => exact .stop (.refl m)
    | ok modules =>
      show Outcome.Ends _ (((ev.evaluateModule path).onFault _ >>= _) { m with modules })
      rw [Action.bind_apply]
      unfold Action.onFault
      have h := ends_evaluateModule hev path { m with modules }
      cases hmodule : ev.evaluateModule path { m with modules } with
      | exhausted => trivial
      | done root m' =>
        rw [hmodule] at h
        obtain ⟨hf, -⟩ | ⟨program, m₁, c₁, rfl⟩ := h
        · cases hf
        · rw [evaluateModule_root hmodule]
          exact .load path program miss start c₁
      | failed fault m' =>
        rw [hmodule] at h
        obtain ⟨-, rfl⟩ | ⟨program, m₁, c₁, rfl⟩ := h
        · exact .unread path miss start
        · exact .loadStopped path program miss start c₁

theorem follows_loadModule (hev : ev.Follows) (source : String) : Run.Follows w .inside (ev.loadModule source) := by
  refine .bind (.read _) fun mark => ?_
  dsimp only
  split
  · exact follows_loadBuiltin _
  · exact follows_loadFile hev source

theorem hasRoot_of_root? {t : ModuleTable} {key : ModuleKey} (h : t.root? key = some root) : t.HasRoot root := by
  obtain ⟨entry, hfind, rfl⟩ := Option.map_eq_some_iff.mp h
  exact ⟨entry.1, List.mem_of_find?_eq_some hfind⟩

theorem hasRoot_finishModule {key : ModuleKey} {root root' : ScopeId}
    (h : (do finishModule key root; return root) m = .done root' m') : m'.modules.HasRoot root' := by
  cases h
  exact ⟨key, .head _⟩

theorem hasRoot_loadBuiltin {name : String} (h : loadBuiltin name m = .done root m') : m'.modules.HasRoot root := by
  obtain ⟨cached, m₁, hcached, h⟩ := Action.done_bind h
  cases cached with
  | some found =>
    injection hcached with hroot hm
    cases h
    exact hm ▸ hasRoot_of_root? hroot
  | none =>
    obtain ⟨built, m₂, -, h⟩ := Action.done_bind h
    cases built with
    | none =>
      obtain ⟨-, m₃, -, h⟩ := Action.done_bind h
      cases h
    | some built =>
      obtain ⟨-, m₃, -, h⟩ := Action.done_bind h
      obtain ⟨made, m₄, -, h⟩ := Action.done_bind h
      obtain ⟨-, m₅, -, h⟩ := Action.done_bind h
      exact hasRoot_finishModule h

theorem hasRoot_loadFile {source : String} (h : ev.loadFile source m = .done root m') : m'.modules.HasRoot root := by
  obtain ⟨path, m₁, -, h⟩ := Action.done_bind h
  obtain ⟨cached, m₂, hcached, h⟩ := Action.done_bind h
  cases cached with
  | some found =>
    injection hcached with hroot hm
    cases h
    exact hm ▸ hasRoot_of_root? hroot
  | none =>
    obtain ⟨table, m₃, -, h⟩ := Action.done_bind h
    obtain ⟨modules, m₄, -, h⟩ := Action.done_bind h
    obtain ⟨-, m₅, -, h⟩ := Action.done_bind h
    obtain ⟨made, m₆, -, h⟩ := Action.done_bind h
    exact hasRoot_finishModule h

theorem hasRoot_loadModule {source : String} (h : ev.loadModule source m = .done root m') :
    m'.modules.HasRoot root := by
  obtain ⟨mark, m₁, -, h⟩ := Action.done_bind h
  dsimp only at h
  split at h
  · exact hasRoot_loadBuiltin h
  · exact hasRoot_loadFile h

theorem followsAt_link {m : Machine} (loaded : m.modules.HasRoot root) (name : String) :
    FollowsAt w .here (Run.onScopes fun scopes => scopes.link m.current name root) m := by
  unfold FollowsAt Run.onScopes
  dsimp only
  cases h : m.scopes.link m.current name root with
  | ok scopes => exact .link name loaded h
  | error fault => exact .stop (.refl m)

theorem followsAt_linkPicks {m : Machine} (loaded : m.modules.HasRoot root) (picks : List Pick) :
    FollowsAt w .here (linkPicks root picks) m := by
  induction picks generalizing m with
  | nil => exact Follows.pure _ m
  | cons p rest ih =>
    have quiet := (isStill_readModule root p.name.name).isQuiet {}
    refine (quiet.follows m).bind fun _ m₁ hread => ?_
    have loaded₁ : m₁.modules.HasRoot root := by
      rw [((quiet m).done hread).modules]
      exact loaded
    have linked := followsAt_link (w := w) loaded₁ p.localName.name
    refine linked.bind fun _ m₂ hlink => ?_
    have step := linked.done hlink
    have loaded₂ := step.hasRoot loaded₁
    cases p.called with
    | none => exact ih loaded₂
    | some other =>
      refine FollowsAt.bind ?_ fun _ m₃ halias => ?_
      · show Course w .here true m₂ { m₂ with scopes := m₂.scopes.setAlias m₁.current _ _ }
        rw [← step.current]
        exact .setAlias _ _
      · cases halias
        exact ih loaded₂

theorem follows_useModule (hev : ev.Follows) (source : String) (called : Option Ident)
    (picks : List Pick) : Run.Follows w .here (ev.useModule source called picks) := by
  intro m
  refine ((follows_loadModule hev source).reaching .here m).bind fun root m₁ hload => ?_
  have loaded₁ := hasRoot_loadModule hload
  have links (all : Bool) (m₂ : Machine) (c : Course w .here true m₁ m₂) :
      FollowsAt w .here (do
        linkPicks root picks
        if all then
          Run.onScopes fun scopes => scopes.link m₁.current "*" root
        return Flow.value .nil) m₂ := by
    have loaded₂ := c.hasRoot loaded₁
    have picked := followsAt_linkPicks (w := w) loaded₂ picks
    refine picked.bind fun _ m₃ hpicked => ?_
    have step := picked.done hpicked
    cases all with
    | false => exact Follows.pure _ m₃
    | true =>
      rw [← c.current, ← step.current]
      exact (followsAt_link (step.hasRoot loaded₂) "*").bind fun _ m₄ _ => Follows.pure _ m₄
  cases called with
  | none => exact links _ m₁ (.refl m₁)
  | some name =>
    have declared : FollowsAt w .here (Run.declare m₁.current name.name (.module root) true) m₁ :=
      followsAt_declare name.name _ true m₁
    exact declared.bind fun _ m₂ h => links _ m₂ (declared.done h)

/-! ## Statements -/

theorem isQuiet_observe (s : Stmt) : IsQuiet (Run.observe s) := by
  intro m
  obtain ⟨o, t, told | told⟩ := m.exists_observe s <;> rw [told] <;>
    exact ⟨rfl, rfl, rfl, rfl, rfl, rfl, rfl, rfl, rfl⟩

theorem follows_performStep (hev : ev.Follows) (s : Stmt)
    (hw : (w || s.every ExprForm.isWaitless) = true) :
    Run.Follows w s.reach (ev.performStep s) := by
  have permits : (Errand.stmt s).Permits w := by
    rw [Bool.or_eq_true] at hw
    refine hw.imp_right fun waitless => ⟨fun waits => waits, fun e has => ?_⟩
    obtain ⟨root, hroot, below⟩ := has
    cases List.mem_singleton.mp hroot
    exact Node.every_iff (n := .stmt s).mp waitless e below
  cases hform : s.form with
  | useModule source called picks =>
    obtain ⟨id, span, form⟩ := s
    cases hform
    exact follows_useModule hev source called picks
  | expose declaration =>
    obtain ⟨id, span, form⟩ := s
    cases hform
    have has : (Errand.stmt ⟨id, span, .expose declaration⟩).Has (.stmt declaration) :=
      (Errand.has_root (.head _)).part (.head _)
    refine .bind (hev.perform (permits.node has)).here fun flow => ?_
    cases declaration.form.declaredName? with
    | none => exact .pure _
    | some name => exact .bind (fun _ => .expose name.name) fun _ => .pure _
  | _ => exact (doing_performStep (W := ev) rfl (by simp [hform]) (by simp [hform])).follows hev w permits

theorem follows_executeStep (hev : ev.Follows) (s : Stmt)
    (hw : (w || s.every ExprForm.isWaitless) = true) :
    Run.Follows w s.reach (ev.executeStep s) :=
  .bind (isQuiet_observe s).follows fun _ => (hev.perform hw).recorded s.span

/-! ## The knot -/

theorem follows_ofDepth (depth : Nat) : (ofDepth depth).Follows := by
  induction depth with
  | zero =>
    exact ⟨fun _ => .exhaust, fun _ => .exhaust, fun _ => .exhaust, fun _ _ => trivial⟩
  | succ depth ih =>
    exact ⟨follows_evaluateStep ih _, follows_executeStep ih _, follows_performStep ih _,
      worked_workStep ih⟩

end Evaluator

end Trellis
