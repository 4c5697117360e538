import Mathlib.Logic.Relation
import Trellis.Proofs.Grammar.Faults
import Trellis.Proofs.Run.Modules
import Trellis.Proofs.Run.Moments
import Trellis.Proofs.Scope.Alike

/-!
# Steps of a run

Here the brackets of a course are left aside, and a run is nothing but a sequence of single steps that scopes go
through (`Scopes.Step`). In exchange a step says more of the moment at which it is taken: a name is exposed in a scope
that has just bound it, and a name is picked from a module in which it has just been looked up.

No step records a fault. A run that is stopped takes steps up to the moment at which the fault is raised. Then the
fault *travels* outwards (`Fault.Travels`): it is recorded at the places it passes, scopes that were entered are left,
and modules that were being evaluated are abandoned.

On the way it is also told what code there is. If the code that is executed is apt, and that which the machine holds
as well, both stay so, and a fault that is raised is a proper one.

The pieces that evaluation is made of proceed so (`Errand.Doing.proceeds`), and so does a run
(`Evaluator.proceeds_upTo`).
-/

namespace Trellis

/-! ## Steps of scopes -/

namespace Scopes

def BindsValue (s : Scopes) (id : ScopeId) (name : String) : Prop :=
  id < s.all.size → ∃ v, (s.get id).binding? name = some (.value v)

inductive Step : Scopes → Scopes → Prop where
  | addRoot {s} (file : Option Path) : Step s (s.addRoot file).2
  | addChild {s} (parent : ScopeId) : Step s (s.addChild parent).2
  | declare {s id name} (v : Value) (static : Bool)
      (free : s.declareFault? id name = none) : Step s (s.addBinding id name v static)
  | assign {s id owner name} (v : Value)
      (h : s.assignee id name = .ok owner) : Step s (s.replace owner name v)
  | expose {s id name} (bound : s.BindsValue id name) : Step s (s.expose id name)
  /-- A name is picked from a module that has it. -/
  | pick {s s' id root name v}
      (known : s.lookup root name = .ok v) (linked : s.link id name root = .ok s') : Step s s'
  /-- A name is picked from a module that has it, and called by another one. -/
  | pickAs {s s' id root name remote v}
      (known : s.lookup root remote = .ok v) (linked : s.link id name root = .ok s') :
      Step s (s'.setAlias id name remote)
  | importAll {s} (id root : ScopeId) : Step s (s.importAll id root)

abbrev Steps : Scopes → Scopes → Prop := Relation.ReflTransGen Step

theorem bindsValue_addBinding (s : Scopes) (id : ScopeId) (name : String) (v : Value) (static : Bool) :
    (s.addBinding id name v static).BindsValue id name := by
  intro inside
  unfold addBinding at inside ⊢
  rw [size_modify] at inside
  refine ⟨v, ?_⟩
  rw [get_modify_self _ inside]
  cases static <;> simp [Scope.bind, Scope.binding?]

theorem steps_declareConstants (s : Scopes) (root : ScopeId) (exports : List (String × Value)) :
    s.Steps (s.declareConstants root exports) := by
  induction exports generalizing s with
  | nil => exact .refl
  | cons entry rest ih =>
    obtain ⟨name, v⟩ := entry
    unfold declareConstants declare
    cases free : s.declareFault? root name with
    | some fault => exact ih s
    | none => exact .head (.declare v true free) (ih _)

end Scopes

/-! ## Code -/

def Node.AllApt (n : Node) : Prop :=
  ∀ k ∈ n.all, k.isApt = true

theorem Node.AllApt.part {n c : Node} (h : n.AllApt) (hc : c ∈ n.parts) : c.AllApt :=
  fun k hk => h k (mem_all_trans c hk (mem_all_of_part hc))

theorem Parser.isApt_readProgram {p q : Parser} {program : Program}
    (done : p.readProgram = .done program q) : ∀ n ∈ program.nodes, n.isApt = true := by
  have anchors : Anchors (fun _ => True) (fun _ => True) := ⟨fun _ _ => trivial, fun _ _ _ _ _ _ _ => trivial⟩
  exact fun n hn => (Parser.fits_readProgram anchors (fun _ _ => trivial) done n hn).isApt

variable {s : Stmt}

theorem Program.allApt_body {p : Program} (h : ∀ n ∈ p.nodes, n.isApt = true) (hs : s ∈ p.body) :
    (Node.stmt s).AllApt :=
  fun n hn => h n (List.mem_flatMap.mpr ⟨s, hs, hn⟩)

theorem Fault.isProper_reading (cause : Cause) (span : Span) : (reading cause span).IsProper := by
  rintro ⟨⟩

/-! ## Steps of machines, and faults -/

variable {m m' : Machine}

namespace Machine

/-- **All code that a machine holds is apt**: that of its functions, and that of the jobs that wait. -/
structure IsApt (m : Machine) : Prop where
  functions : ∀ f ∈ m.heap.functions, (Node.block f.body).AllApt
  jobs : ∀ job ∈ m.tasks.jobs.toList, ∀ c ∈ job.continuations, (Node.block c.body).AllApt

theorem IsApt.same (h : m.IsApt) (functions : m'.heap.functions = m.heap.functions)
    (jobs : m'.tasks.jobs = m.tasks.jobs) : m'.IsApt where
  functions f hf := h.functions f (functions ▸ hf)
  jobs job hjob := h.jobs job (jobs ▸ hjob)

/-- **A machine advances**: its scopes go through steps, and no fault is recorded. -/
structure Advances (m m' : Machine) : Prop where
  scopes : m.scopes.Steps m'.scopes
  log : m'.log = m.log

/-- **A machine proceeds**: it advances, and if the code that is executed is apt, so is the code that it holds. -/
structure Proceeds (apt : Prop) (m m' : Machine) : Prop extends m.Advances m' where
  code : apt → m.IsApt → m'.IsApt

/-- A change that is no concern of scopes, recorded faults and code. -/
structure Idles (m m' : Machine) : Prop where
  scopes : m'.scopes = m.scopes
  log : m'.log = m.log
  functions : m'.heap.functions = m.heap.functions
  jobs : m'.tasks.jobs = m.tasks.jobs

theorem Idles.refl (m : Machine) : m.Idles m :=
  ⟨rfl, rfl, rfl, rfl⟩

namespace Proceeds

variable {apt apt' : Prop} {m m₁ m₂ : Machine}

theorem refl (m : Machine) : m.Proceeds apt m :=
  ⟨⟨.refl, rfl⟩, fun _ h => h⟩

theorem trans (h₁ : m.Proceeds apt m₁) (h₂ : m₁.Proceeds apt' m₂) (still : apt → m.IsApt → apt') :
    m.Proceeds apt m₂ :=
  ⟨⟨h₁.scopes.trans h₂.scopes, h₂.log.trans h₁.log⟩, fun ha hm => h₂.code (still ha hm) (h₁.code ha hm)⟩

theorem idle (h : m.Idles m₁) : m.Proceeds apt m₁ :=
  ⟨⟨h.scopes ▸ .refl, h.log⟩, fun _ hm => hm.same h.functions h.jobs⟩

theorem step {scopes : Scopes} (h : m.scopes.Step scopes) : m.Proceeds apt { m with scopes } :=
  ⟨⟨.single h, rfl⟩, fun _ hm => hm.same rfl rfl⟩

end Proceeds

theorem proceeds_addPrelude (m : Machine) (root : ScopeId) (apt : Prop) : m.Proceeds apt (m.addPrelude root) := by
  unfold addPrelude
  cases built : m.registry.build? "global" m.clock.now m.heap with
  | none => exact .refl m
  | some made =>
    exact ⟨⟨m.scopes.steps_declareConstants root _, rfl⟩,
      fun _ hm => hm.same (Evaluator.functions_build? built) rfl⟩

end Machine

inductive Fault.Travels (raised : Fault) (m : Machine) : Fault → Machine → Prop where
  | raised : Travels raised m raised m
  | recorded {f m'} (h : Travels raised m f m') (span : Span) :
      Travels raised m (Run.record span f m').1 (Run.record span f m').2
  /-- The scope that was entered is left. -/
  | left {f m'} (h : Travels raised m f m') (scope : ScopeId) :
      Travels raised m f (m'.moveTo scope)
  /-- The evaluation of a module is given up. -/
  | abandoned {f m'} (h : Travels raised m f m') (key : ModuleKey) :
      Travels raised m f { m' with modules := m'.modules.abandon key }

theorem Fault.Travels.keeps {raised f : Fault} (h : Fault.Travels raised m f m') :
    m'.scopes = m.scopes ∧ m'.heap = m.heap ∧ m'.tasks = m.tasks := by
  induction h with
  | raised => exact ⟨rfl, rfl, rfl⟩
  | recorded _ span ih => exact ih
  | left _ scope ih => exact ih
  | abandoned _ key ih => exact ih

/-- **An outcome to which a machine advances.** If it is a failure, the machine advances up to the moment at
which the fault is raised, and then the fault travels. -/
def Outcome.AdvancesFrom {α : Type} (m : Machine) : Outcome Machine α → Prop
  | .done _ m' => m.Advances m'
  | .failed f m' => ∃ raised m₁, m.Advances m₁ ∧ Fault.Travels raised m₁ f m'
  | .exhausted => True

/-- **An outcome to which a machine proceeds.** A fault that is raised by code that is apt is a proper one. -/
def Outcome.ProceedsFrom {α : Type} (apt : Prop) (m : Machine) : Outcome Machine α → Prop
  | .done _ m' => m.Proceeds apt m'
  | .failed f m' => ∃ raised m₁, m.Proceeds apt m₁ ∧ (apt → m.IsApt → raised.IsProper) ∧ Fault.Travels raised m₁ f m'
  | .exhausted => True

namespace Outcome.ProceedsFrom

variable {α : Type} {apt apt' : Prop} {o : Outcome Machine α} {m m₁ : Machine}

theorem advancesFrom (h : o.ProceedsFrom apt m) : o.AdvancesFrom m := by
  cases o with
  | exhausted => trivial
  | done a m' => exact h.toAdvances
  | failed f m' =>
    obtain ⟨raised, m₁, proceeds, -, travels⟩ := h
    exact ⟨raised, m₁, proceeds.toAdvances, travels⟩

theorem after (h : o.ProceedsFrom apt' m₁) (before : m.Proceeds apt m₁) (still : apt → m.IsApt → apt') :
    o.ProceedsFrom apt m := by
  cases o with
  | exhausted => trivial
  | done a m₂ => exact before.trans h still
  | failed fault m₂ =>
    obtain ⟨raised, m₃, proceeds, proper, travels⟩ := h
    exact ⟨raised, m₃, before.trans proceeds still, fun ha hm => proper (still ha hm) (before.code ha hm), travels⟩

theorem stopped {f : Fault} (idles : m.Idles m₁) (proper : f.IsProper) :
    (.failed f m₁ : Outcome Machine α).ProceedsFrom apt m :=
  ⟨f, m₁, .idle idles, fun _ _ => proper, .raised⟩

end Outcome.ProceedsFrom

theorem Action.proceedsFrom_bind {α β : Type} {apt : Prop} {x : Run α} {f : α → Run β} {m : Machine}
    (hx : (x m).ProceedsFrom apt m) (hf : ∀ a m₁, x m = .done a m₁ → (f a m₁).ProceedsFrom apt m₁) :
    ((x >>= f) m).ProceedsFrom apt m := by
  rw [Action.bind_apply]
  cases hs : x m with
  | exhausted => trivial
  | failed fault m₁ => rw [hs] at hx; exact hx
  | done a m₁ =>
    rw [hs] at hx
    exact (hf a m₁ hs).after hx fun ha _ => ha

namespace Run

variable {α β : Type} {apt : Prop}

/-- **An action by which machines proceed**, where it is said when the code that is executed is apt. -/
def Proceeds (apt : Prop) (x : Run α) : Prop :=
  ∀ m, (x m).ProceedsFrom apt m

namespace Proceeds

theorem pure (a : α) : Proceeds apt (Pure.pure a : Run α) := fun m => .refl m

theorem read (f : Machine → α) : Proceeds apt (Action.read f) := fun m => .refl m

theorem raise {fault : Fault} (proper : fault.IsProper) : Proceeds apt (Action.fail fault : Run α) :=
  fun m => .stopped (.refl m) proper

theorem exhaust : Proceeds apt (Action.exhaust : Run α) := fun _ => trivial

theorem bind {x : Run α} {f : α → Run β} (hx : Proceeds apt x) (hf : ∀ a, Proceeds apt (f a)) :
    Proceeds apt (x >>= f) :=
  fun m => Action.proceedsFrom_bind (hx m) fun a m₁ _ => hf a m₁

theorem change {f : Machine → Machine} (idles : ∀ m : Machine, m.Idles (f m)) : Proceeds apt (Action.change f) :=
  fun m => .idle (idles m)

theorem declare (scope : ScopeId) (name : String) (v : Value) (static : Bool) :
    Proceeds apt (Run.declare scope name v static) := by
  intro m
  unfold Run.declare
  cases free : m.scopes.declareFault? scope name with
  | some fault => exact .stopped (.refl m) (Scopes.isPlain_of_declareFault? {} free).isProper
  | none => exact .step (.declare v static free)

theorem onFault {x : Run α} {g : Fault → Machine → Fault × Machine} (h : Proceeds apt x)
    (hg : ∀ {raised f : Fault} {m m' : Machine}, Fault.Travels raised m f m' →
      Fault.Travels raised m (g f m').1 (g f m').2) : Proceeds apt (x.onFault g) := by
  intro m
  have hx := h m
  unfold Action.onFault
  cases hs : x m with
  | exhausted => trivial
  | done a m₁ => rw [hs] at hx; exact hx
  | failed fault m₁ =>
    rw [hs] at hx
    obtain ⟨raised, m₂, proceeds, proper, travels⟩ := hx
    exact ⟨raised, m₂, proceeds, proper, hg travels⟩

theorem recorded {x : Run α} (h : Proceeds apt x) (span : Span) : Proceeds apt (Run.recorded span x) :=
  h.onFault fun travels => travels.recorded span

theorem within {x : Run α} (h : Proceeds apt x) (scope : ScopeId) : Proceeds apt (Run.within scope x) := by
  intro m
  have hx := h (m.moveTo scope)
  have entered : m.Proceeds apt (m.moveTo scope) := .idle ⟨rfl, rfl, rfl, rfl⟩
  rw [within_eq]
  unfold Action.ending
  cases hs : x (m.moveTo scope) with
  | exhausted => trivial
  | done a m₁ =>
    rw [hs] at hx
    exact (entered.trans hx fun ha _ => ha).trans (.idle ⟨rfl, rfl, rfl, rfl⟩) fun ha _ => ha
  | failed fault m₁ =>
    rw [hs] at hx
    obtain ⟨raised, m₂, proceeds, proper, travels⟩ := hx
    -- coming back to the scope is no step any more, it belongs to the way of the fault
    exact ⟨raised, m₂, entered.trans proceeds fun ha _ => ha, fun ha hm => proper ha (entered.code ha hm),
      travels.left m.current⟩

theorem look (stop : Machine → Bool) : Proceeds apt (Run.look stop) := by
  intro m
  unfold Run.look
  split
  · exact .stopped (.refl m) (Fault.isProper_managing _)
  · exact .refl m

theorem upTo {x : Run α} (h : Proceeds apt x) (stop : Machine → Bool) : Proceeds apt (x.upTo stop) :=
  .bind (.look stop) fun _ => .bind h fun _ => .bind (.look stop) fun _ => .pure _

end Proceeds

theorem bindsValue_declare {scope : ScopeId} {name : String} {v : Value} {static : Bool}
    (h : Run.declare scope name v static m = .done () m') : m'.scopes.BindsValue scope name := by
  unfold Run.declare at h
  split at h
  · cases h
  · cases h
    exact m.scopes.bindsValue_addBinding scope name v static

end Run

open Run

theorem Run.IsStill.proceeds {α : Type} {apt : Prop} {P : α → Prop} {x : Span → Run α} (h : IsStill False P x)
    (span : Span) : Run.Proceeds apt (x span) := by
  intro m
  have idles {m' : Machine} (still : m.Still m') : m.Idles m' :=
    ⟨still.scopes, still.log, still.functions, congrArg _ still.tasks⟩
  have still := h.still id span m
  cases hs : x span m with
  | done a m' => rw [hs] at still; exact .idle (idles still)
  | failed fault m' =>
    rw [hs] at still
    exact .stopped (idles still.1) still.2.isProper
  | exhausted => trivial

/-! ## The evaluator that is gone back to -/

/-- **An evaluator by which machines proceed.** A declaration that was done has bound its name. -/
structure Evaluator.Proceeds (ev : Evaluator) : Prop where
  evaluate : ∀ {apt : Prop} {e : Expr}, (apt → (Node.expr e).AllApt) → Run.Proceeds apt (ev.evaluate e)
  execute : ∀ {apt : Prop} {s : Stmt}, (apt → (Node.stmt s).AllApt) → Run.Proceeds apt (ev.execute s)
  perform : ∀ {apt : Prop} {s : Stmt}, (apt → (Node.stmt s).AllApt) → Run.Proceeds apt (ev.perform s)
  work : ∀ {apt : Prop} {job : Job}, (apt → ∀ c ∈ job.continuations, (Node.block c.body).AllApt) →
    Run.Proceeds apt (ev.work job)
  declares : ∀ {s : Stmt} {name : Ident} {flow : Flow} {m m' : Machine},
    s.form.declaredName? = some name → ev.perform s m = .done flow m' →
    m'.scopes.BindsValue m'.current name.name

def Place.IsApt : Place → Prop
  | .here => True
  | .made _ b => (Node.block b).AllApt

namespace Errand

def IsApt (E : Errand) : Prop :=
  ∀ root ∈ E.roots, root.AllApt

theorem IsApt.node {E : Errand} (h : E.IsApt) {n : Node} (has : E.Has n) : n.AllApt := by
  obtain ⟨root, hroot, below⟩ := has
  exact fun k hk => h root hroot k (Node.mem_all_trans n hk below)

/-- **Machines proceed by the pieces that evaluation is made of.** It is here that it matters what is assigned to and
what is run. -/
theorem Doing.proceeds {ev ev' : Evaluator} (hev : ev.Proceeds) {E : Errand} {p : Place} {α : Type} {P : α → Prop}
    {x x' : Run α} {apt : Prop} (h : Doing .same False ev ev' E p P x x') (code : apt → E.IsApt) (place : apt → p.IsApt) :
    Run.Proceeds apt x := by
  have body {b : Block} (h : (Node.block b).AllApt) : (Errand.body b.body).IsApt := fun _ hs => h.part hs
  induction h generalizing apt with
  | pure _ => exact .pure _
  | exhaust => exact .exhaust
  | bind _ _ hx hf => exact .bind (hx code place) fun a => hf a nofun code place
  | still _ h => exact h.proceeds _
  | write text => exact .change fun _ => ⟨rfl, rfl, rfl, rfl⟩
  | @misassigned _ _ e target value form h =>
    refine fun m => ⟨_, m, .refl m, fun ha _ => ?_, .raised⟩
    have fits : e.form.isApt = true := code ha _ (.head _) _ (Node.self_mem_all _)
    rw [form, show (ExprForm.assign target value).isApt = target.form.isTarget from rfl, h] at fits
    cases fits
  | @misrun continuations _ _ e started form h =>
    refine fun m => ⟨_, m, .refl m, fun ha _ => ?_, .raised⟩
    have fits : e.form.isApt = true := code ha _ (.head _) _ (Node.self_mem_all _)
    rw [form, show (ExprForm.run started continuations).isApt = started.form.isCall from rfl, h] at fits
    cases fits
  | evaluate has => exact hev.evaluate fun ha => (code ha).node has
  | execute has _ => exact hev.execute fun ha => (code ha).node has
  | @assign _ _ _ name v _ =>
    intro m
    unfold Evaluator.assignName
    cases h : m.scopes.assignee m.current name with
    | ok owner => exact .step (.assign v h)
    | error fault => exact .stopped (.refl m) ((Scopes.isPlain_of_assignee {} h).suggest m name).isProper
  | function has kind name params =>
    refine fun m => ⟨⟨.refl, rfl⟩, fun ha hm => ⟨fun f hf => ?_, hm.jobs⟩⟩
    obtain before | rfl := Array.mem_push.mp hf
    · exact hm.functions f before
    · exact (code ha).node has
  | @schedule continuations e started form callee arguments _ _ =>
    refine fun m => ⟨⟨.refl, rfl⟩, fun ha hm => ⟨hm.functions, fun job hjob => ?_⟩⟩
    rcases List.mem_append.mp (Queue.toList_push _ _ ▸ hjob) with before | new
    · exact hm.jobs job before
    · cases List.mem_singleton.mp new
      refine fun c hc => (code ha _ (.head _)).part ?_
      show _ ∈ e.form.parts
      rw [form]
      exact .tail _ (List.mem_map.mpr ⟨c, hc, rfl⟩)
  | declare _ _ name _ static _ ih =>
    exact .bind (.read _) fun _ => .bind (.declare _ _ _ _) fun _ => ih code place
  | bindName _ scope b name _ static => exact .declare _ _ _ _
  | block scope _ ih => exact (ih (fun ha => body (place ha)) fun _ => trivial).within scope
  | recordedBlock scope span _ ih =>
    exact ((ih (fun ha => body (place ha)) fun _ => trivial).within scope).recorded span
  | newScope has _ ih =>
    exact .bind (fun m => .step (.addChild m.current)) fun scope => ih scope code fun ha => (code ha).node has
  | call _ ref arguments _ ih =>
    -- the code of a function that is called is code that the machine holds
    intro m
    rw [Evaluator.call_function]
    cases hf : m.heap.functions[ref]? with
    | none => exact (Evaluator.isStill_refuseCall (P := fun _ => True) _).proceeds _ m
    | some f =>
      have made : m.Proceeds apt { m.note (.called f) with scopes := (m.scopes.addChild f.scope).2 } :=
        ⟨⟨.single (.addChild f.scope), rfl⟩, fun _ hm => hm.same rfl rfl⟩
      exact (ih f _ (fun ha : apt ∧ m.IsApt => code ha.1)
        (fun ha => ha.2.functions f (Array.mem_of_getElem? hf)) _).after made fun ha hm => ⟨ha, hm⟩
  | work _ _ _ hx hy =>
    -- and so is the code of a job that is taken out of the queue
    intro m
    rw [Evaluator.afterJob_eq]
    cases hpop : m.tasks.pop? with
    | none => exact hy code place m
    | some popped =>
      obtain ⟨⟨job, jobs⟩, hjobs, same⟩ := Option.map_eq_some_iff.mp hpop
      cases same
      have all := Queue.toList_of_pop? hjobs
      have taken : m.Proceeds apt { m with tasks := { m.tasks with jobs } } :=
        ⟨⟨.refl, rfl⟩, fun _ hm => ⟨hm.functions, fun other hother => hm.jobs other (all ▸ .tail _ hother)⟩⟩
      refine Outcome.ProceedsFrom.after ?_ taken fun ha (hm : m.IsApt) => And.intro ha hm
      exact Run.Proceeds.bind (hev.work fun ha => ha.2.jobs job (all ▸ .head _))
        (fun _ => hx (fun ha => code ha.1) fun ha => place ha.1) _

end Errand

namespace Evaluator

variable {ev : Evaluator} {apt : Prop}

theorem proceeds_statements (hev : ev.Proceeds) (last : Value) (body : List Stmt)
    (h : apt → ∀ s ∈ body, (Node.stmt s).AllApt) : Run.Proceeds apt (ev.statements last body) :=
  (doing_body (W := ev) last nofun body).proceeds hev (fun ha => List.forall_mem_map.mpr (h ha)) fun _ => trivial

theorem proceeds_workStep (hev : ev.Proceeds) {job : Job}
    (h : apt → ∀ c ∈ job.continuations, (Node.block c.body).AllApt) : Run.Proceeds apt (ev.workStep job) :=
  .bind (.change fun _ => ⟨rfl, rfl, rfl, rfl⟩) fun _ =>
    .bind (((doing_pipeline (W := ev) rfl job nofun).proceeds hev (fun ha => List.forall_mem_map.mpr (h ha))
      fun _ => trivial).within job.scope) fun _ => .change fun _ => ⟨rfl, rfl, rfl, rfl⟩

theorem proceeds_evaluateStep (hev : ev.Proceeds) {e : Expr} (h : apt → (Node.expr e).AllApt) :
    Run.Proceeds apt (ev.evaluateStep e) :=
  ((doing_evaluateForm (W := ev) rfl e).proceeds hev (fun ha => List.forall_mem_singleton.mpr (h ha))
    fun _ => trivial).recorded e.span

/-! ## Modules -/

theorem proceeds_newRoot (file : Option Path) : Run.Proceeds apt (newRoot file) :=
  fun _ => .step (.addRoot file)

theorem proceeds_bindExports (root : ScopeId) (exports : List (String × Value)) :
    Run.Proceeds apt (bindExports root exports) := by
  induction exports with
  | nil => exact .pure _
  | cons entry rest ih =>
    intro m
    refine Action.proceedsFrom_bind (Run.Proceeds.declare _ _ _ _ m) fun _ m₁ declared => ?_
    have exposed : m₁.Proceeds apt { m₁ with scopes := m₁.scopes.expose root entry.1 } :=
      .step (.expose (bindsValue_declare declared))
    exact Action.proceedsFrom_bind exposed fun _ m₂ _ => ih m₂

theorem proceeds_loadBuiltin (name : String) : Run.Proceeds apt (loadBuiltin name) := by
  refine .bind (.read _) fun cached => ?_
  cases cached with
  | some root => exact .pure _
  | none =>
    have fails : Run.Proceeds apt (do
        let mark ← Action.read (·.settings.builtinMark)
        Action.fail (.managing (.noModule (mark ++ name))) : Run ScopeId) :=
      .bind (.read _) fun mark => .raise (Fault.isProper_managing _)
    have rest (exports : List (String × Value)) : Run.Proceeds apt (do
        let root ← newRoot none
        bindExports root exports
        finishModule (.builtin name) root
        return root) :=
      .bind (proceeds_newRoot none) fun root => .bind (proceeds_bindExports root exports) fun _ =>
        .bind (.change fun _ => ⟨rfl, rfl, rfl, rfl⟩) fun _ => .pure _
    intro m
    show Outcome.ProceedsFrom apt m ((Action.read _ >>= _) m)
    rw [Action.bind_apply, Action.read_apply]
    cases built : m.registry.build? name m.clock.now m.heap with
    | none => exact fails m
    | some made =>
      have held : m.Proceeds apt { m with heap := made.2 } := .idle ⟨rfl, rfl, functions_build? built, rfl⟩
      exact (rest made.1 _).after held fun ha _ => ha

theorem proceeds_readModuleFile_bind {α : Type} (path : Path) {y : Program → Run α}
    (hy : ∀ program : Program, (∀ n ∈ program.nodes, n.isApt = true) → Run.Proceeds apt (y program)) :
    Run.Proceeds apt (readModuleFile path >>= y) := by
  intro m
  rw [Action.bind_apply]
  unfold readModuleFile
  cases m.files.read path with
  | error reason => exact .stopped (.refl m) (Fault.isProper_managing _)
  | ok source =>
    dsimp only
    cases hscript : readScript m.keywords m.settings.matching source with
    | exhausted => trivial
    | done program q =>
      have code := Parser.isApt_readProgram (Parser.readProgram_of_readScript hscript)
      exact (hy program code _).after (.idle ⟨rfl, rfl, rfl, rfl⟩) fun ha _ => ha
    | failed fault q =>
      obtain ⟨cause, span, rfl⟩ := isOfReading_readScript hscript
      exact .stopped (.refl m) (Fault.isProper_reading cause span)

theorem proceeds_evaluateModule (hev : ev.Proceeds) (path : Path) : Run.Proceeds apt (ev.evaluateModule path) :=
  proceeds_readModuleFile_bind path fun _ code => .bind (proceeds_newRoot _) fun root =>
    .bind (fun m => m.proceeds_addPrelude root _) fun _ =>
      .bind ((proceeds_statements hev .nil _ fun _ _ hs => Program.allApt_body code hs).within root) fun _ => .pure _

theorem lookup_of_readModule {root : ScopeId} {name : String} {v : Value} (h : readModule root name m = .done v m') :
    m' = m ∧ m.scopes.lookup root name = .ok v := by
  unfold readModule at h
  split at h
  · rename_i found
    cases h
    exact ⟨rfl, found⟩
  · cases h

theorem proceeds_linkPicks (root : ScopeId) (picks : List Pick) : Run.Proceeds apt (linkPicks root picks) := by
  induction picks with
  | nil => exact .pure _
  | cons p rest ih =>
    intro m
    refine Action.proceedsFrom_bind ((isStill_readModule root p.name.name).proceeds {} m) fun v m₁ hread => ?_
    obtain ⟨rfl, known⟩ := lookup_of_readModule hread
    show Outcome.ProceedsFrom apt m₁
      ((Run.onScopes (fun scopes => scopes.link m₁.current p.localName.name root) >>= _) m₁)
    rw [Action.bind_apply]
    unfold Run.onScopes
    cases linked : m₁.scopes.link m₁.current p.localName.name root with
    | error fault => simp only [linked]; exact .stopped (.refl m₁) (Scopes.link_eq_error linked ▸ Fault.isProper_managing _)
    | ok scopes =>
      simp only [linked]
      -- linking a name and giving it its alias are one step
      cases hcalled : p.called with
      | none =>
        have same : p.localName.name = p.name.name := by
          unfold Pick.localName
          rw [hcalled]
          rfl
        rw [same] at linked
        exact (ih { m₁ with scopes }).after (.step (.pick known linked)) fun ha _ => ha
      | some other =>
        exact (ih { m₁ with scopes := scopes.setAlias m₁.current p.localName.name p.name.name }).after
          (.step (.pickAs known linked)) fun ha _ => ha

theorem modular_proceeds (hev : ev.Proceeds) : ev.Modular (Run.Proceeds apt) (Run.Proceeds apt) where
  pure := .pure
  bind := .bind
  last := .pure _
  lead := .bind
  raise _ := .raise (Fault.isProper_managing _)
  read _ := .read _
  table _ := .change fun _ => ⟨rfl, rfl, rfl, rfl⟩
  path source := (isStill_modulePath source).proceeds {}
  builtin := proceeds_loadBuiltin
  evaluated path := (proceeds_evaluateModule hev path).onFault fun travels => travels.abandoned _
  declare _ _ _ := .declare _ _ _ _
  picks := proceeds_linkPicks
  link current root _ := .step (.importAll current root)

/-! ## Statements -/

theorem proceeds_observe (s : Stmt) : Run.Proceeds apt (Run.observe s) := by
  intro m
  obtain ⟨o, t, told | told⟩ := m.exists_observe s <;> rw [told]
  · exact .idle ⟨rfl, rfl, rfl, rfl⟩
  · exact .stopped ⟨rfl, rfl, rfl, rfl⟩ (Fault.isProper_managing _)

theorem proceeds_performStep (hev : ev.Proceeds) (h : apt → (Node.stmt s).AllApt) :
    Run.Proceeds apt (ev.performStep s) := by
  cases hform : s.form with
  | useModule source called picks =>
    obtain ⟨id, span, form⟩ := s
    cases hform
    exact (modular_proceeds hev).useModule source called picks
  | expose declaration =>
    obtain ⟨id, span, form⟩ := s
    cases hform
    intro m
    refine Action.proceedsFrom_bind (hev.perform (fun ha => (h ha).part (.head _)) m) fun flow m₁ performed => ?_
    cases hname : declaration.form.declaredName? with
    | none => exact .refl m₁
    | some name => exact .step (.expose (hev.declares hname performed))
  | _ =>
    exact (doing_performStep (W := ev) rfl (by simp [hform]) (by simp [hform])).proceeds hev
      (fun ha => List.forall_mem_singleton.mpr (h ha)) fun _ => trivial

theorem proceeds_executeStep (hev : ev.Proceeds) (h : apt → (Node.stmt s).AllApt) :
    Run.Proceeds apt (ev.executeStep s) :=
  .bind (proceeds_observe s) fun _ => (hev.perform h).recorded s.span

theorem bindsValue_performStep {name : Ident} {flow : Flow} (hname : s.form.declaredName? = some name)
    (h : ev.performStep s m = .done flow m') : m'.scopes.BindsValue m'.current name.name := by
  have declared {v : Value} {static : Bool} {m : Machine} (h : (do
      Run.declare (← Action.read (·.current)) name.name v static
      return Flow.value .nil : Run Flow) m = .done flow m') :
      m'.scopes.BindsValue m'.current name.name := by
    obtain ⟨current, m₁, hread, h₁⟩ := Action.done_bind h
    obtain ⟨⟨⟩, m₂, hdeclare, h₂⟩ := Action.done_bind h₁
    cases hread
    cases h₂
    have bound := bindsValue_declare hdeclare
    have kept : m'.current = m.current := by
      unfold Run.declare at hdeclare
      split at hdeclare
      · cases hdeclare
      · cases hdeclare
        rfl
    rw [kept]
    exact bound
  obtain ⟨id, span, form⟩ := s
  unfold performStep at h
  cases form with
  | declare other constant value =>
    cases hname
    obtain ⟨v, m₁, -, h⟩ := Action.done_bind h
    exact declared h
  | declareFunction other params body =>
    cases hname
    obtain ⟨f, m₁, -, h⟩ := Action.done_bind h
    exact declared h
  | declareTask other params body =>
    cases hname
    obtain ⟨f, m₁, -, h⟩ := Action.done_bind h
    exact declared h
  | _ => cases hname

/-! ## The knot -/

theorem proceeds_workUpTo (hev : ev.Proceeds) (stop : Machine → Bool) {job : Job}
    (h : apt → ∀ c ∈ job.continuations, (Node.block c.body).AllApt) : Run.Proceeds apt (workUpTo stop ev job) := by
  intro m
  unfold workUpTo
  split
  · exact .stopped ⟨rfl, rfl, rfl, rfl⟩ (Fault.isProper_managing _)
  · exact Run.Proceeds.bind (proceeds_workStep hev h) (fun _ => .look stop) m

theorem declares_upTo {name : Ident} {flow : Flow} {stop : Machine → Bool} (hname : s.form.declaredName? = some name)
    (h : (ev.performStep s).upTo stop m = .done flow m') : m'.scopes.BindsValue m'.current name.name := by
  have looked {m m' : Machine} (h : Run.look stop m = .done () m') : m' = m := by
    unfold Run.look at h
    split at h
    · cases h
    · cases h
      rfl
  obtain ⟨-, m₁, -, h⟩ := Action.done_bind h
  obtain ⟨flow', m₂, hperform, h⟩ := Action.done_bind h
  obtain ⟨⟨⟩, m₃, hbehind, h⟩ := Action.done_bind h
  cases h
  cases looked hbehind
  exact bindsValue_performStep hname hperform

theorem proceeds_upTo (stop : Machine → Bool) (depth : Nat) : (upTo stop depth).Proceeds := by
  induction depth with
  | zero =>
    exact ⟨fun _ => .exhaust, fun _ => .exhaust, fun _ => .exhaust, fun _ => .exhaust,
      fun _ h => by cases h⟩
  | succ depth ih =>
    exact ⟨fun h => (proceeds_evaluateStep ih h).upTo stop, fun h => (proceeds_executeStep ih h).upTo stop,
      fun h => (proceeds_performStep ih h).upTo stop, fun h => proceeds_workUpTo ih stop h, declares_upTo⟩

theorem proceeds_ofDepth (depth : Nat) : (ofDepth depth).Proceeds :=
  upTo_never depth ▸ proceeds_upTo (fun _ => false) depth

end Evaluator

theorem Machine.proceeds_pass {ev : Evaluator} (hev : ev.Proceeds) (p : Program) :
    Run.Proceeds (∀ n ∈ p.nodes, n.isApt = true) (pass ev p) :=
  .bind (Evaluator.proceeds_statements hev .nil p.body fun code _ hs => Program.allApt_body code hs) fun _ =>
    .bind ((Evaluator.doing_drainIn (W := ev) ev.rounds).proceeds hev (fun _ => List.forall_mem_nil _)
      fun _ => trivial) fun _ => .pure _

theorem Machine.advances_pass {ev : Evaluator} (hev : ev.Proceeds) (p : Program) (m : Machine) :
    (pass ev p m).AdvancesFrom m :=
  (proceeds_pass hev p m).advancesFrom

end Trellis
