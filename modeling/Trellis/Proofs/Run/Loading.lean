import Trellis.Proofs.Run.Likeness
import Trellis.Proofs.Run.Grounded

/-!
# Modules are evaluated once

A module is marked as loading while it is evaluated, and its root is kept when it has been evaluated. The marks are
exact: they are on the modules that are being evaluated, innermost first, and on no others. No module that is being
evaluated has a root yet, and a root that is kept is never replaced. So the statements of a module come to their end
at most once, and every use of the module has the same root.

To speak about what is being evaluated, evaluation is repeated with a *stack* of modules (`Evaluator.watched`): the
statements of a module are executed with the module on top of the stack, and everything else with the stack as it is.
At every moment the module table is checked against the stack, and an alarm is raised if it does not pass. This
evaluator does the same as evaluation without a stack, as long as all exact tables pass.
-/

namespace Trellis

/-! ## Keys and tables -/

namespace Path

theorem beq_iff (a b : Path) : (a == b) = true ↔ a.steps = b.steps :=
  beq_iff_eq (a := a.steps)

instance : EquivBEq Path where
  rfl := (beq_iff _ _).mpr rfl
  symm h := (beq_iff _ _).mpr ((beq_iff _ _).mp h).symm
  trans h₁ h₂ := (beq_iff _ _).mpr (((beq_iff _ _).mp h₁).trans ((beq_iff _ _).mp h₂))

end Path

namespace ModuleKey

instance : EquivBEq ModuleKey where
  rfl := by
    rintro (name | path)
    · exact beq_self_eq_true name
    · exact BEq.refl path
  symm := by
    rintro (a | a) (b | b) h
    · exact BEq.symm (α := String) h
    · cases h
    · cases h
    · exact BEq.symm (α := Path) h
  trans := by
    rintro (a | a) (b | b) (c | c) h₁ h₂
    · exact BEq.trans (α := String) h₁ h₂
    · cases h₂
    · cases h₁
    · cases h₁
    · cases h₁
    · cases h₁
    · cases h₂
    · exact BEq.trans (α := Path) h₁ h₂

end ModuleKey

namespace ModuleTable

variable {t t' : ModuleTable} {key other : ModuleKey} {root : ScopeId} {path : Path} {stack : List Path}

def KeptIn (t t' : ModuleTable) : Prop :=
  ∀ key root, t.root? key = some root → t'.root? key = some root

/-- **The table of a run in which the modules of a stack are being evaluated**, and no others. -/
structure Exact (stack : List Path) (t : ModuleTable) : Prop where
  loading : t.loading = stack.map .file
  distinct : stack.Pairwise fun a b => (a == b) = false
  unevaluated : ∀ path ∈ stack, t.root? (.file path) = none
  once : t.loaded.Pairwise fun a b => (a.1 == b.1) = false

theorem root?_congr (t : ModuleTable) (h : (key == other) = true) : t.root? key = t.root? other := by
  unfold root?
  congr 2
  funext entry
  exact BEq.congr_right h

theorem root?_file_congr (t : ModuleTable) {a b : Path} (h : (a == b) = true) :
    t.root? (.file a) = t.root? (.file b) :=
  t.root?_congr (show (ModuleKey.file a == ModuleKey.file b) = true from h)

theorem root?_finish (t : ModuleTable) (key other : ModuleKey) (root : ScopeId) :
    (t.finish key root).root? other = if key == other then some root else t.root? other := by
  unfold root? finish abandon
  dsimp only
  rw [List.find?_cons]
  cases key == other <;> rfl

theorem keptIn_finish (miss : t.root? key = none) : t.KeptIn (t.finish key root) := by
  intro other kept h
  rw [root?_finish]
  split
  · rename_i same
    rw [← root?_congr t same, miss] at h
    cases h
  · exact h

theorem loaded_ne_of_root? (miss : t.root? key = none) {entry : ModuleKey × ScopeId}
    (h : entry ∈ t.loaded) : (key == entry.1) = false := by
  unfold root? at miss
  rw [Option.map_eq_none_iff, List.find?_eq_none] at miss
  rw [BEq.comm]
  exact Bool.eq_false_iff.mpr (miss entry h)

theorem start_eq_ok (h : t.start key = .ok t') :
    t.isLoading key = false ∧ t' = { t with loading := key :: t.loading } := by
  unfold start at h
  split at h
  · cases h
  · rename_i idle
    cases h
    exact ⟨Bool.eq_false_iff.mpr idle, rfl⟩

namespace Exact

theorem isLoading_iff (h : t.Exact stack) :
    t.isLoading (.file path) = true ↔ ∃ other ∈ stack, (path == other) = true := by
  unfold isLoading
  rw [h.loading, List.contains_eq_any_beq, List.any_map, List.any_eq_true]
  rfl

theorem start (h : t.Exact stack) (miss : t.root? (.file path) = none)
    (ok : t.start (.file path) = .ok t') : t'.Exact (path :: stack) := by
  obtain ⟨idle, rfl⟩ := start_eq_ok ok
  refine ⟨congrArg (_ :: ·) h.loading, List.pairwise_cons.mpr ⟨fun other mem => ?_, h.distinct⟩,
    List.forall_mem_cons.mpr ⟨miss, h.unevaluated⟩, h.once⟩
  by_contra same
  rw [h.isLoading_iff.mpr ⟨other, mem, Bool.eq_true_of_not_eq_false same⟩] at idle
  cases idle

theorem abandon (h : t.Exact (path :: stack)) : (t.abandon (.file path)).Exact stack := by
  obtain ⟨others, distinct⟩ := List.pairwise_cons.mp h.distinct
  refine ⟨?_, distinct, (List.forall_mem_cons.mp h.unevaluated).2, h.once⟩
  show t.loading.filter _ = _
  rw [h.loading, List.map_cons, List.filter_cons_of_neg (by simp), List.filter_eq_self]
  intro key mem
  obtain ⟨other, hother, rfl⟩ := List.mem_map.mp mem
  rw [BEq.comm]
  exact congrArg (!·) (others other hother)

theorem finish (h : t.Exact (path :: stack)) (root : ScopeId) : (t.finish (.file path) root).Exact stack := by
  obtain ⟨others, -⟩ := List.pairwise_cons.mp h.distinct
  obtain ⟨miss, unevaluated⟩ := List.forall_mem_cons.mp h.unevaluated
  refine ⟨h.abandon.loading, h.abandon.distinct, fun other mem => ?_,
    List.pairwise_cons.mpr ⟨fun entry mem => loaded_ne_of_root? miss mem, h.once⟩⟩
  have apart : (ModuleKey.file path == ModuleKey.file other) = false := others other mem
  rw [root?_finish, apart]
  exact unevaluated other mem

theorem finishBuiltin (h : t.Exact stack) {name : String} (miss : t.root? (.builtin name) = none)
    (root : ScopeId) : (t.finish (.builtin name) root).Exact stack := by
  refine ⟨?_, h.distinct, fun path mem => ?_,
    List.pairwise_cons.mpr ⟨fun entry mem => loaded_ne_of_root? miss mem, h.once⟩⟩
  · show t.loading.filter _ = _
    rw [h.loading, List.filter_eq_self]
    intro key mem
    obtain ⟨path, -, rfl⟩ := List.mem_map.mp mem
    rfl
  · rw [root?_finish]
    exact h.unevaluated path mem

end Exact

end ModuleTable

/-! ## Evaluation with a stack of modules -/

def Run.inspect (check : ModuleTable → Bool) (alarm : Fault) : Run Unit := fun m =>
  if check m.modules then .done () m else .failed alarm m

def Run.inspected {α : Type} (check : ModuleTable → Bool) (alarm : Fault) (x : Run α) : Run α := do
  Run.inspect check alarm
  let a ← x
  Run.inspect check alarm
  return a

def Machine.Names (m : Machine) (source : String) (path : Path) : Prop :=
  m.settings.builtinMark.toList.isPrefixOf source.toList = false ∧
    Evaluator.modulePath source m = .done path m

/-- The stack with which a statement is performed. The use of a file puts it on top, and the only statements
that are executed by the use are those of the file. -/
def Machine.opening (m : Machine) (stack : List Path) (s : Stmt) : List Path :=
  match s.form with
  | .useModule source _ _ =>
    match Evaluator.modulePath source m with
    | .done path _ => path :: stack
    | _ => stack
  | _ => stack

namespace Evaluator

/-- **The evaluator with a stack of modules** that checks the module table against the stack, before and
behind every expression, every statement and every job. -/
def watched (check : List Path → ModuleTable → Bool) (alarm : Fault) : Nat → List Path → Evaluator
  | 0, _ => ofDepth 0
  | depth + 1, stack =>
    { evaluate := fun e =>
        ((watched check alarm depth stack).evaluateStep e).inspected (check stack) alarm
      execute := fun s =>
        ((watched check alarm depth stack).executeStep s).inspected (check stack) alarm
      perform := fun s m =>
        ((watched check alarm depth (m.opening stack s)).performStep s).inspected (check stack) alarm m
      work := fun job =>
        ((watched check alarm depth stack).workStep job).inspected (check stack) alarm
      rounds := depth }

end Evaluator

namespace Machine

variable {before : ModuleTable} {stack : List Path} {m m' : Machine}

/-- **A machine beside itself**, with an exact module table in which some roots are kept. -/
structure Tracked (before : ModuleTable) (stack : List Path) (m m' : Machine) : Prop where
  same : m' = m
  exact : m.modules.Exact stack
  kept : before.KeptIn m.modules

namespace Tracked

theorem likeness : Likeness (Tracked before stack) where
  same {m _} h := ⟨m.observer, m.transcript, h.same⟩
  carry {m n o t} h modules observer transcript := by
    have same : n.seenBy o t = n := by
      have ho : o = m.observer := congrArg Machine.observer h.same
      have ht : t = m.transcript := congrArg Machine.transcript h.same
      rw [ho, ht, ← observer, ← transcript]
      rfl
    exact ⟨same, modules ▸ h.exact, modules ▸ h.kept⟩
  write h text := ⟨congrArg (Machine.write · .script text) h.same, h.exact, h.kept⟩

theorem of_isQuiet {α : Type} {x : Run α} (hx : Run.IsQuiet x) : Run.Beside (Tracked before stack) x x := by
  rintro m m' ⟨same, exact, kept⟩
  rw [same]
  have quiet := hx m
  cases hm : x m with
  | done a n =>
    rw [hm] at quiet
    exact ⟨n, rfl, rfl, quiet.modules ▸ exact, quiet.modules ▸ kept⟩
  | failed fault n =>
    rw [hm] at quiet
    exact ⟨n, rfl, rfl, quiet.modules ▸ exact, quiet.modules ▸ kept⟩
  | exhausted => rfl

theorem ends {α : Type} {o o' : Outcome Machine α} (h : o.Beside (Tracked before stack) o') :
    o = o' ∧ o'.Ends fun _ n => n.modules.Exact stack ∧ before.KeptIn n.modules := by
  refine h.elim (fun _ n n' hn => ?_) (fun _ n n' hn => ?_) ⟨rfl, trivial⟩
  all_goals
    obtain ⟨rfl, exact, kept⟩ := hn
    exact ⟨rfl, exact, kept⟩

theorem right {α : Type} {x x' : Run α} (h : Run.Beside (Tracked before stack) x x') :
    Run.Beside (Tracked before stack) x' x' := by
  intro m m' hm
  have beside := h m m' hm
  -- `Tracked` holds of a machine and itself only, so the two outcomes are one.
  rw [(ends beside).1] at beside
  rw [hm.same] at beside ⊢
  exact beside

theorem inspected {check : ModuleTable → Bool} {alarm : Fault} {α : Type} {x x' : Run α}
    (passes : ∀ t : ModuleTable, t.Exact stack → before.KeptIn t → check t = true)
    {m m' : Machine} (h : Tracked before stack m m') (hx : (x m).Beside (Tracked before stack) (x' m')) :
    (x.inspected check alarm m).Beside (Tracked before stack) (x' m') := by
  have calm {n n' : Machine} (hn : Tracked before stack n n') : Run.inspect check alarm n = .done () n := by
    unfold Run.inspect
    rw [if_pos (passes _ hn.exact hn.kept)]
  unfold Run.inspected
  rw [Action.bind_apply, calm h]
  dsimp only
  rw [Action.bind_apply]
  cases hm : x m with
  | done a n =>
    rw [hm] at hx
    obtain ⟨n', hm', hn⟩ := hx
    dsimp only
    rw [Action.bind_apply, calm hn]
    exact ⟨n', hm', hn⟩
  | failed fault n =>
    rw [hm] at hx
    exact hx
  | exhausted =>
    rw [hm] at hx
    exact hx

end Tracked

end Machine

namespace Evaluator

open Machine (Tracked)

variable {before : ModuleTable} {stack : List Path} {ev ev' : Evaluator}

theorem tracked_loadModule {source : String} {m m' : Machine} (h : Tracked before stack m m')
    (hev : ∀ path, modulePath source m = .done path m → ev.Beside (Tracked before (path :: stack)) ev') :
    (ev.loadModule source m).Beside (Tracked before stack) (ev'.loadModule source m') := by
  refine beside_loadModule Tracked.likeness h (fun name => ?_) ?_
  · refine beside_loadBuiltin Tracked.likeness name ?_
    rintro root n _ ⟨rfl, exact, kept⟩ miss
    exact ⟨rfl, exact.finishBuiltin miss root, fun key old hold =>
      ModuleTable.keptIn_finish miss key old (kept key old hold)⟩
  · refine beside_loadFile (S := fun path => Tracked before (path :: stack)) Tracked.likeness h hev ?_ ?_ ?_
    · intro path modules miss start
      obtain ⟨rfl, exact, kept⟩ := h
      refine ⟨rfl, exact.start miss start, ?_⟩
      obtain ⟨-, rfl⟩ := ModuleTable.start_eq_ok start
      exact kept
    · rintro path n _ ⟨rfl, exact, kept⟩
      exact ⟨rfl, exact.abandon, kept⟩
    · rintro path root n _ ⟨rfl, exact, kept⟩
      exact ⟨rfl, exact.finish root, fun key old hold =>
        ModuleTable.keptIn_finish (exact.unevaluated path (.head _)) key old (kept key old hold)⟩

theorem tracked_watched {check : List Path → ModuleTable → Bool} (alarm : Fault)
    (passes : ∀ stack t, t.Exact stack → before.KeptIn t → check stack t = true) (depth : Nat)
    (stack : List Path) :
    (watched check alarm depth stack).Beside (Tracked before stack) (ofDepth depth) := by
  induction depth generalizing stack with
  | zero =>
    exact ⟨Tracked.likeness, fun _ => .exhaust, fun _ => .exhaust, fun _ => .exhaust,
      fun _ => .exhaust, rfl⟩
  | succ depth ih =>
    refine ⟨Tracked.likeness, fun e m m' h => ?_, fun s m m' h => ?_, fun s m m' h => ?_,
      fun job m m' h => ?_, rfl⟩
    · exact h.inspected (passes stack) (beside_evaluateStep (ih stack) e m m' h)
    · exact h.inspected (passes stack)
        (beside_executeStep (ih stack) s (Tracked.of_isQuiet (isQuiet_observe s)) m m' h)
    · refine h.inspected (passes stack) ?_
      obtain ⟨id, span, form⟩ := s
      -- The use of a module is the only statement that changes the stack.
      cases form with
      | useModule source called picks =>
        refine beside_useModule Tracked.likeness (tracked_loadModule h fun path hpath => ?_) called picks
        have opened : m.opening stack ⟨id, span, .useModule source called picks⟩ = path :: stack := by
          unfold Machine.opening
          dsimp only
          rw [hpath]
        rw [opened]
        exact ih (path :: stack)
      | _ => exact beside_performStep (ih stack) _ (fun _ _ _ hform => by cases hform) m m' h
    · exact h.inspected (passes stack) (beside_workStep (ih stack) job m m' h)

theorem tracked_ofDepth (before : ModuleTable) (depth : Nat) (stack : List Path) :
    (ofDepth depth).Beside (Tracked before stack) (ofDepth depth) := by
  obtain ⟨likeness, evaluate, execute, perform, work, -⟩ :=
    tracked_watched (.managing .ended) (fun _ _ _ _ => rfl : ∀ stack (t : ModuleTable), t.Exact stack →
      before.KeptIn t → (fun _ _ => true) stack t = true) depth stack
  exact ⟨likeness, fun e => Tracked.right (evaluate e), fun s => Tracked.right (execute s),
    fun s => Tracked.right (perform s), fun job => Tracked.right (work job), rfl⟩

/-! ## Uses of a module -/

section

variable {source : String} {path : Path} {root : ScopeId} {n n' : Machine}

theorem loadModule_file (h : n.Names source path) : ev.loadModule source n = ev.loadFile source n := by
  unfold loadModule
  rw [Action.bind_apply, Action.read_apply]
  dsimp only
  rw [h.1]
  rfl

theorem loadModule_evaluated (h : n.Names source path) (found : n.modules.root? (.file path) = some root) :
    ev.loadModule source n = .done root n := by
  rw [loadModule_file h]
  unfold loadFile
  rw [Action.bind_apply, h.2]
  dsimp only
  rw [Action.bind_apply, Action.read_apply]
  dsimp only
  rw [found]
  rfl

theorem loadModule_loading (h : n.Names source path) (miss : n.modules.root? (.file path) = none)
    (loading : n.modules.isLoading (.file path) = true) :
    ev.loadModule source n = .failed (.managing (.cyclicImport path.text)) n := by
  rw [loadModule_file h]
  unfold loadFile
  rw [Action.bind_apply, h.2]
  dsimp only
  rw [Action.bind_apply, Action.read_apply]
  dsimp only
  rw [miss]
  show (Action.ofExcept (n.modules.start (.file path)) >>= _) n = _
  unfold ModuleTable.start
  rw [if_pos loading]
  rfl

theorem root?_of_loadModule (h : n.Names source path) (done : ev.loadModule source n = .done root n') :
    n'.modules.root? (.file path) = some root := by
  cases found : n.modules.root? (.file path) with
  | some old =>
    rw [loadModule_evaluated h found] at done
    cases done
    exact found
  | none =>
    rw [loadModule_file h] at done
    unfold loadFile at done
    rw [Action.bind_apply, h.2] at done
    dsimp only at done
    rw [Action.bind_apply, Action.read_apply] at done
    dsimp only at done
    rw [found] at done
    -- Whatever happens on the way, the last step keeps the root.
    obtain ⟨table, n₁, -, done⟩ := Action.done_bind done
    obtain ⟨modules, n₂, -, done⟩ := Action.done_bind done
    obtain ⟨_, n₃, -, done⟩ := Action.done_bind done
    obtain ⟨made, n₄, -, done⟩ := Action.done_bind done
    cases done
    show (n₄.modules.finish (.file path) root).root? (.file path) = some root
    rw [ModuleTable.root?_finish, if_pos (BEq.refl _)]

end

end Evaluator

/-! ## Passes -/

namespace Machine

variable {before : ModuleTable} {stack : List Path} {m : Machine}

theorem watched_pass {check : List Path → ModuleTable → Bool} (alarm : Fault) (h : m.modules.Exact [])
    (passes : ∀ stack t, t.Exact stack → m.modules.KeptIn t → check stack t = true) (depth : Nat)
    (p : Program) :
    pass (.watched check alarm depth []) p { m with log := {} } =
      pass (.ofDepth depth) p { m with log := {} } :=
  (Tracked.ends (beside_pass (Evaluator.tracked_watched alarm passes depth []) p
    { m with log := {} } { m with log := {} } ⟨rfl, h, fun _ _ found => found⟩)).1

theorem exact_interpretTo (h : m.modules.Exact []) (depth : Nat) (p : Program) :
    (interpretTo depth p m).Ends fun _ n => n.modules.Exact [] ∧ m.modules.KeptIn n.modules := by
  have ends := (Tracked.ends (beside_pass (Evaluator.tracked_ofDepth m.modules depth []) p
    { m with log := {} } { m with log := {} } ⟨rfl, h, fun _ _ found => found⟩)).2
  exact ends_interpretTo ends (fun _ h => h) fun _ h => h

theorem Reached.exact (h : m.Reached) : m.modules.Exact [] := by
  induction h with
  | start scopes functions tasks modules file =>
    rename_i m
    obtain ⟨_, _, unseen⟩ := Evaluator.isBlind_addPrelude (m.scopes.addRoot file).1
      (m.enter (m.scopes.addRoot file)) m.observer m.transcript
    have same : (m.start file).modules = m.modules := unseen.modules
    rw [same, modules]
    exact ⟨rfl, .nil, nofun, .nil⟩
  | between _ _ _ _ _ modules ih => rw [modules]; exact ih
  | done _ depth p ends ih =>
    exact ((exact_interpretTo ih depth p).done ends).1
  | failed _ depth p ends ih =>
    exact ((exact_interpretTo ih depth p).failed ends).1

/-- **Modules are evaluated once, and the marks are exact**, over all passes of a run.

* Between passes no module is marked as loading.
* A pass ends with no module marked, whether it is done or fails, and keeps all roots.
* At every moment of a pass the table is exact: it passes every check that all exact tables pass, when it is
  checked against the modules that are being evaluated.
* From every such moment on, executing a statement keeps all roots and leaves the same modules marked.
* The use of a module that is being evaluated is the fault of a cyclic import. A use that is done leaves a
  root. At all later moments, then, the module is not being evaluated, and every use of the same path finds
  this root without doing anything. -/
theorem Reached.modules_once (h : m.Reached) :
    m.modules.Exact [] ∧
    (∀ depth p, (interpretTo depth p m).Ends fun _ n =>
      n.modules.Exact [] ∧ m.modules.KeptIn n.modules) ∧
    (∀ check alarm, (∀ stack t, t.Exact stack → m.modules.KeptIn t → check stack t = true) →
      ∀ depth p, pass (.watched check alarm depth []) p { m with log := {} } =
        pass (.ofDepth depth) p { m with log := {} }) ∧
    ∀ (n : Machine) stack depth, n.modules.Exact stack →
      (∀ s, ((Evaluator.ofDepth depth).execute s n).Ends fun _ n' =>
        n'.modules.Exact stack ∧ n.modules.KeptIn n'.modules) ∧
      ∀ source path, n.Names source path →
        ((∃ other ∈ stack, (path == other) = true) →
          (Evaluator.ofDepth depth).loadModule source n =
            .failed (.managing (.cyclicImport path.text)) n) ∧
        ∀ root n', (Evaluator.ofDepth depth).loadModule source n = .done root n' →
          n'.modules.Exact stack ∧ n.modules.KeptIn n'.modules ∧
          ∀ later : Machine, n'.modules.KeptIn later.modules →
            (∀ stack', later.modules.Exact stack' → ∀ other ∈ stack', (path == other) = false) ∧
            ∀ source' path' depth', later.Names source' path' → (path == path') = true →
              (Evaluator.ofDepth depth').loadModule source' later = .done root later := by
  refine ⟨h.exact, exact_interpretTo h.exact, fun check alarm passes depth p =>
    watched_pass alarm h.exact passes depth p, fun n stack depth exact => ?_⟩
  have here : Tracked n.modules stack n n := ⟨rfl, exact, fun _ _ found => found⟩
  refine ⟨fun s => (Tracked.ends ((Evaluator.tracked_ofDepth n.modules depth stack).execute s n n here)).2,
    fun source path names => ⟨fun ⟨other, mem, same⟩ => ?_, fun root n' done => ?_⟩⟩
  · refine Evaluator.loadModule_loading names ?_ (exact.isLoading_iff.mpr ⟨other, mem, same⟩)
    rw [ModuleTable.root?_file_congr n.modules same]
    exact exact.unevaluated other mem
  · have loaded := (Tracked.ends (Evaluator.tracked_loadModule here fun path _ =>
      Evaluator.tracked_ofDepth n.modules depth (path :: stack))).2.done done
    have found := Evaluator.root?_of_loadModule names done
    refine ⟨loaded.1, loaded.2, fun later kept => ⟨fun stack' exact' other mem => ?_,
      fun source' path' depth' names' same => ?_⟩⟩
    · by_contra same
      have missing := exact'.unevaluated other mem
      rw [← ModuleTable.root?_file_congr _ (Bool.eq_true_of_not_eq_false same), kept _ _ found] at missing
      cases missing
    · refine Evaluator.loadModule_evaluated names' ?_
      rw [← ModuleTable.root?_file_congr _ same]
      exact kept _ _ found

def twoFiles : Machine :=
  { files := { nodes := [(["a.vine"], .file "use \"b\"\n".toUTF8), (["b.vine"], .file "".toUTF8)] } }

def usingBoth : Program :=
  ⟨3, [⟨1, {}, .useModule "a" none []⟩, ⟨2, {}, .useModule "b" none []⟩]⟩

/-- The second module is used twice in the pass and evaluated once, and it has the same root behind every pass
that follows. -/
theorem modules_once_usingBoth :
    ∃ v m, (twoFiles.start none).Reached ∧ interpretTo 12 usingBoth (twoFiles.start none) = .done v m ∧
      m.Reached ∧ m.modules.loaded.length = 2 ∧ m.modules.loading = [] ∧
      m.modules.root? (.file ⟨"/b.vine"⟩) = some 2 ∧
      (∀ depth p, (interpretTo depth p m).Ends fun _ n =>
        n.modules.root? (.file ⟨"/b.vine"⟩) = some 2) ∧
      ∀ alarm depth p,
        pass (.watched (fun stack t => t.loading.length == stack.length) alarm depth []) p { m with log := {} } =
          pass (.ofDepth depth) p { m with log := {} } := by
  have fresh : (twoFiles.start none).Reached := .start rfl rfl rfl rfl none
  have run : (interpretTo 12 usingBoth (twoFiles.start none)).doneWith (fun m =>
      m.modules.loaded.length == 2 && m.modules.root? (.file ⟨"/b.vine"⟩) == some 2) = true := by
    decide +kernel
  obtain ⟨v, m, done, checked⟩ := Outcome.of_doneWith run
  rw [Bool.and_eq_true, beq_iff_eq, beq_iff_eq] at checked
  have reached : m.Reached := .done fresh 12 usingBoth done
  obtain ⟨exact, passes, watched, -⟩ := reached.modules_once
  refine ⟨v, m, fresh, done, reached, checked.1, exact.loading, checked.2, fun depth p => ?_, ?_⟩
  · exact (passes depth p).imp fun _ n ends => ends.2 _ _ checked.2
  · exact fun alarm depth p => watched _ alarm (fun stack t exact' _ => by
      rw [exact'.loading, List.length_map, beq_self_eq_true]) depth p

end Machine

end Trellis
