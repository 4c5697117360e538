import Trellis.Proofs.Run.Moments
import Trellis.Proofs.Run.Schedule
import Trellis.Proofs.Scope.Grounded

/-!
# Looking up names in a run

Whatever programs are run and whatever modules they use, the references between scopes never go in a circle. Links
and imports lead to modules that were evaluated, and a module that was evaluated gets no further ones: names are
declared and linked in the current scope only, and no code has the root of a module as its current scope once the
module has been evaluated, unless it stays inside, as a job does that was put off there. So a module leads to modules
that were evaluated before it.

As a machine goes on, its scopes stay grounded (`Course.staysGrounded`). This holds at every moment of a run, and so
the search for a name always comes to an end.
-/

namespace Trellis

namespace ModuleTable

def roots (t : ModuleTable) : List ScopeId :=
  t.loaded.map (·.2)

theorem HasRoot.mem_roots {t : ModuleTable} {root : ScopeId} (h : t.HasRoot root) : root ∈ t.roots := by
  obtain ⟨key, hmem⟩ := h
  exact List.mem_map.mpr ⟨(key, root), hmem, rfl⟩

theorem loaded_of_start {t t' : ModuleTable} {key : ModuleKey} (h : t.start key = .ok t') : t'.loaded = t.loaded := by
  unfold start at h
  split at h
  · cases h
  · cases h
    rfl

end ModuleTable

namespace Machine

/-- **A machine is grounded** if its scopes are, and if it goes on, now or when a function is called or a job
is done, in scopes that there are. -/
structure Grounded (m : Machine) : Prop where
  scopes : m.scopes.Grounded m.modules.loaded
  current : m.current < m.scopes.all.size
  functions : ∀ f ∈ m.heap.functions, f.scope < m.scopes.all.size
  jobs : ∀ job ∈ m.tasks.jobs.toList, job.scope < m.scopes.all.size

theorem Grounded.size_notMem_roots {m : Machine} (h : m.Grounded) : m.scopes.all.size ∉ m.modules.roots :=
  fun hmem => Nat.lt_irrefl _ (h.scopes.bounded _ hmem)

/-- **A machine stays grounded** while it goes on. Scopes are added and stay where they are, and no scope that
was there before becomes the root of a module. -/
structure StaysGrounded (m m' : Machine) : Prop where
  grounded : m'.Grounded
  size : m.scopes.all.size ≤ m'.scopes.all.size
  parent : ∀ id < m.scopes.all.size, (m'.scopes.get id).parent = (m.scopes.get id).parent
  roots : ∀ root ∈ m'.modules.roots, root ∈ m.modules.roots ∨ m.scopes.all.size ≤ root

namespace StaysGrounded

variable {m m' m₁ m₂ : Machine}

theorem trans (h₁ : StaysGrounded m m₁) (h₂ : StaysGrounded m₁ m₂) : StaysGrounded m m₂ where
  grounded := h₂.grounded
  size := Nat.le_trans h₁.size h₂.size
  parent id hid := (h₂.parent id (Nat.lt_of_lt_of_le hid h₁.size)).trans (h₁.parent id hid)
  roots root hroot := by
    rcases h₂.roots root hroot with before | since
    · exact h₁.roots root before
    · exact .inr (Nat.le_trans h₁.size since)

theorem notMem_roots (h : StaysGrounded m m') {id : ScopeId} (hid : id < m.scopes.all.size)
    (outside : id ∉ m.modules.roots) : id ∉ m'.modules.roots := by
  intro hmem
  rcases h.roots id hmem with before | since
  · exact outside before
  · exact Nat.not_lt_of_le since hid

variable (h : m.Grounded)

include h

theorem ofScopes {scopes : Scopes} (grounded : scopes.Grounded m.modules.loaded)
    (size : scopes.all.size = m.scopes.all.size)
    (parent : ∀ id, (scopes.get id).parent = (m.scopes.get id).parent) :
    StaysGrounded m { m with scopes } where
  grounded :=
    { scopes := grounded
      current := size ▸ h.current
      functions := fun f hf => size ▸ h.functions f hf
      jobs := fun job hjob => size ▸ h.jobs job hjob }
  size := Nat.le_of_eq size.symm
  parent id _ := parent id
  roots _ hroot := .inl hroot

theorem same (scopes : m'.scopes = m.scopes)
    (loaded : m'.modules.loaded = m.modules.loaded) (current : m'.current < m.scopes.all.size)
    (functions : ∀ f ∈ m'.heap.functions, f.scope < m.scopes.all.size)
    (jobs : ∀ job ∈ m'.tasks.jobs.toList, job.scope < m.scopes.all.size) : StaysGrounded m m' where
  grounded :=
    { scopes := by rw [scopes, loaded]; exact h.scopes
      current := scopes ▸ current
      functions := scopes ▸ functions
      jobs := scopes ▸ jobs }
  size := Nat.le_of_eq (congrArg (·.all.size) scopes.symm)
  parent _ _ := by rw [scopes]
  roots root hroot := .inl (by unfold ModuleTable.roots at *; rwa [← loaded])

theorem noted {modules : ModuleTable} (loaded : modules.loaded = m.modules.loaded)
    (event : Event) : StaysGrounded m ({ m with modules }.note event) :=
  .same h rfl loaded h.current h.functions h.jobs

theorem quiet (hq : m.Quiet m') : StaysGrounded m m' :=
  .same h hq.scopes (congrArg (·.loaded) hq.modules) (hq.current ▸ h.current)
    (hq.functions ▸ h.functions) (hq.tasks ▸ h.jobs)

theorem modify {id : ScopeId} {f : Scope → Scope}
    (parent : ∀ scope, (f scope).parent = scope.parent)
    (targets : ∀ target ∈ (f (m.scopes.get id)).targets, target ∈ (m.scopes.get id).targets ∨
      (target ∈ m.modules.roots ∧ id ∉ m.modules.roots)) :
    StaysGrounded m { m with scopes := m.scopes.modify id f } :=
  .ofScopes h (h.scopes.modify parent targets) (Scopes.size_modify _ _ _)
    (Scopes.parent_modify parent)

theorem link {name : String} {root : ScopeId} {scopes : Scopes}
    (known : root ∈ m.modules.roots) (outside : m.current ∉ m.modules.roots)
    (hlink : m.scopes.link m.current name root = .ok scopes) :
    StaysGrounded m { m with scopes } := by
  obtain ⟨f, rfl, parent, targets⟩ := Scopes.link_eq_modify hlink
  refine .modify h parent fun target ht => ?_
  rcases targets _ target ht with before | rfl
  · exact .inl before
  · exact .inr ⟨known, outside⟩

theorem setAlias (name remote : String) :
    StaysGrounded m { m with scopes := m.scopes.setAlias m.current name remote } := by
  have changed : StaysGrounded m { m with scopes := m.scopes.modify m.current fun scope =>
      { scope with aliases := (name, remote) :: scope.aliases } } :=
    .modify h (fun _ => rfl) fun _ ht => .inl ht
  exact .ofScopes h (changed.grounded.scopes.counting _) (Scopes.size_modify _ _ _)
    (Scopes.parent_modify fun _ => rfl)

theorem enter {scope : Scope} (targets : scope.targets = [])
    (parent : ∀ p, scope.parent = some p → p < m.scopes.all.size) :
    StaysGrounded m
      (m.enter (m.scopes.all.size, { m.scopes with all := m.scopes.all.push scope })) := by
  have grown : m.scopes.all.size < (m.scopes.all.push scope).size := by
    rw [Array.size_push]
    exact Nat.lt_succ_self _
  exact {
    grounded :=
      { scopes := h.scopes.push _ targets parent
        current := grown
        functions := fun f hf => Nat.lt_trans (h.functions f hf) grown
        jobs := fun job hjob => Nat.lt_trans (h.jobs job hjob) grown }
    size := Nat.le_of_lt grown
    parent := fun id hid => congrArg Scope.parent (Scopes.get_push scope _ hid)
    roots := fun _ hroot => .inl hroot }

theorem enterChild {parent : ScopeId} (hparent : parent < m.scopes.all.size) :
    StaysGrounded m (m.enter (m.scopes.addChild parent)) :=
  .enter h rfl fun p hp => by cases hp; exact hparent

theorem enterRoot (file : Option Path) : StaysGrounded m (m.enter (m.scopes.addRoot file)) :=
  .enter h rfl fun p hp => by cases hp

theorem begin {job : Job} {tasks : TaskQueue}
    (pop : m.tasks.pop? = some (job, tasks)) : StaysGrounded m ({ m with tasks }.begin job) := by
  obtain ⟨⟨_, _⟩, hpop, hq⟩ := Option.map_eq_some_iff.mp pop
  cases hq
  have all := Queue.toList_of_pop? hpop
  refine .same h rfl rfl (h.jobs job (all ▸ .head _)) h.functions fun other hother => ?_
  exact h.jobs other (all ▸ .tail _ hother)

omit h

theorem back (h : StaysGrounded m m₁) (hm : m.Grounded) : StaysGrounded m (m₁.moveTo m.current) where
  grounded :=
    { scopes := h.grounded.scopes
      current := Nat.lt_of_lt_of_le hm.current h.size
      functions := h.grounded.functions
      jobs := h.grounded.jobs }
  size := h.size
  parent := h.parent
  roots := h.roots

theorem finish (hm : m.Grounded) {file : Option Path} (key : ModuleKey)
    (body : StaysGrounded (m.enter (m.scopes.addRoot file)) m₁) :
    StaysGrounded m { m₁.moveTo m.current with
      modules := m₁.modules.finish key (m.scopes.addRoot file).1 } := by
  have whole := (enterRoot hm file).trans body
  have inside : m.scopes.all.size < (m.scopes.addRoot file).2.all.size := by
    simp [Scopes.addRoot]
  have root : (m₁.scopes.get m.scopes.all.size).parent = none := by
    rw [body.parent _ inside]
    simp [Machine.enter, Scopes.addRoot, Scopes.get]
  exact {
    grounded :=
      { scopes := body.grounded.scopes.finish key (Nat.lt_of_lt_of_le inside body.size) root
        current := Nat.lt_of_lt_of_le hm.current whole.size
        functions := body.grounded.functions
        jobs := body.grounded.jobs }
    size := whole.size
    parent := whole.parent
    roots := fun other hother => by
      rcases List.mem_cons.mp hother with rfl | hother
      · exact .inr (Nat.le_refl _)
      · exact whole.roots other hother }

end StaysGrounded

end Machine

/-- **A machine stays grounded in every course** that stays inside or does not go on in the root of a module
that was evaluated. -/
theorem Course.staysGrounded {w : Bool} {r : Reach} {whole : Bool} {m m' : Machine}
    (h : Course w r whole m m') (hm : m.Grounded)
    (outside : r = .here → m.current ∉ m.modules.roots) : Machine.StaysGrounded m m' := by
  induction h with
  | quiet h => exact .quiet hm h
  | seq first _ ih₁ ih₂ =>
    have stays := ih₁ hm outside
    refine stays.trans (ih₂ stays.grounded fun here => ?_)
    rw [first.current]
    exact stays.notMem_roots hm.current (outside here)
  | stop _ ih => exact ih hm outside
  | pass _ record ih =>
    have stays := ih hm outside
    exact stays.trans (.quiet stays.grounded record)
  | widen _ ih => exact ih hm nofun
  | assign name v _ =>
    exact .modify hm (fun _ => rfl) fun _ ht => .inl (Scope.targets_rebind _ _ _ ht)
  | function f scope _ =>
    refine .same hm rfl rfl hm.current (fun g hg => ?_) hm.jobs
    rcases Array.mem_push.mp hg with before | rfl
    · exact hm.functions g before
    · exact scope ▸ hm.current
  | schedule callee arguments continuations span =>
    refine .same hm rfl rfl hm.current hm.functions fun job hjob => ?_
    have hjob : job ∈ _ ++ [_] := Queue.toList_push _ _ ▸ hjob
    rcases List.mem_append.mp hjob with before | new
    · exact hm.jobs job before
    · rw [List.mem_singleton.mp new]
      exact hm.current
  | work v pop _ ih =>
    have started := Machine.StaysGrounded.begin hm pop
    have worked := (started.trans (ih started.grounded nofun)).back hm
    exact worked.trans (.same worked.grounded rfl rfl worked.grounded.current
      worked.grounded.functions worked.grounded.jobs)
  | workStopped pop _ ih =>
    have started := Machine.StaysGrounded.begin hm pop
    exact (started.trans (ih started.grounded nofun)).back hm
  | block _ ih =>
    have entered := Machine.StaysGrounded.enterChild hm hm.current
    exact (entered.trans (ih entered.grounded fun _ => hm.size_notMem_roots)).back hm
  | call f made _ ih =>
    have noted := Machine.StaysGrounded.noted hm rfl (.called f)
    have entered := noted.trans (.enterChild noted.grounded (hm.functions f made))
    exact (entered.trans (ih entered.grounded fun _ => hm.size_notMem_roots)).back hm
  | declare name v static _ =>
    refine .modify hm (fun scope => ?_) fun _ ht => .inl ?_
    · cases static <;> rfl
    · cases static <;> exact ht
  | expose name =>
    refine .modify hm (fun scope => ?_) fun _ ht => .inl ?_
    · unfold Scope.expose
      split <;> rfl
    · unfold Scope.expose at ht
      split at ht <;> exact ht
  | link name loaded h => exact .link hm loaded.mem_roots (outside rfl) h
  | setAlias name remote => exact .setAlias hm name remote
  | builtin name _ _ ih =>
    have entered := Machine.StaysGrounded.enterRoot hm none
    exact .finish hm _ (ih entered.grounded fun _ => hm.size_notMem_roots)
  | builtinStopped name _ _ ih =>
    have entered := Machine.StaysGrounded.enterRoot hm none
    exact (entered.trans (ih entered.grounded fun _ => hm.size_notMem_roots)).back hm
  | load path program _ start _ ih =>
    have noted := Machine.StaysGrounded.noted hm (ModuleTable.loaded_of_start start)
      (.moduleRead path program)
    have entered := Machine.StaysGrounded.enterRoot noted.grounded (some path)
    exact noted.trans (.finish noted.grounded _
      (ih entered.grounded fun _ => noted.grounded.size_notMem_roots))
  | loadStopped path program _ start _ ih =>
    have noted := Machine.StaysGrounded.noted hm (ModuleTable.loaded_of_start start)
      (.moduleRead path program)
    have entered := noted.trans (.enterRoot noted.grounded (some path))
    have left := (entered.trans
      (ih entered.grounded fun _ => noted.grounded.size_notMem_roots)).back hm
    exact left.trans (.same left.grounded rfl rfl left.grounded.current left.grounded.functions
      left.grounded.jobs)
  | unread path _ start =>
    have loaded := ModuleTable.loaded_of_start start
    exact .same hm rfl (by exact loaded) hm.current hm.functions hm.jobs

/-! ## Passes -/

namespace Machine

variable {m m' : Machine}

theorem staysGrounded_declareConstants (h : m.Grounded) (root : ScopeId)
    (exports : List (String × Value)) :
    StaysGrounded m { m with scopes := m.scopes.declareConstants root exports } := by
  induction exports generalizing m with
  | nil => exact .same h rfl rfl h.current h.functions h.jobs
  | cons entry rest ih =>
    obtain ⟨name, v⟩ := entry
    unfold Scopes.declareConstants Scopes.declare
    cases m.scopes.declareFault? root name with
    | some fault => exact ih h
    | none =>
      have declared : StaysGrounded m { m with scopes := m.scopes.addBinding root name v true } :=
        .modify h (fun _ => rfl) fun _ ht => .inl ht
      exact declared.trans (ih declared.grounded)

theorem staysGrounded_addPrelude (h : m.Grounded) (root : ScopeId) : StaysGrounded m (m.addPrelude root) := by
  unfold addPrelude
  split
  · exact .same h rfl rfl h.current h.functions h.jobs
  · rename_i exports heap hbuild
    have built : StaysGrounded m { m with heap } :=
      .same h rfl rfl h.current (Evaluator.functions_build? hbuild ▸ h.functions) h.jobs
    exact built.trans (staysGrounded_declareConstants built.grounded root exports)

/-- **A machine on which programs have been run**, one pass after another, whether they were done or failed.
It started without scopes, functions, jobs and modules, and between passes these stay as they are. -/
inductive Reached : Machine → Prop where
  | start {m : Machine} (scopes : m.scopes = {}) (functions : m.heap.functions = #[])
      (tasks : m.tasks = {}) (modules : m.modules = {}) (file : Option Path) : Reached (m.start file)
  | between {m m' : Machine} (h : Reached m) (scopes : m'.scopes = m.scopes)
      (current : m'.current = m.current) (functions : m'.heap.functions = m.heap.functions)
      (tasks : m'.tasks = m.tasks) (modules : m'.modules = m.modules) : Reached m'
  | done {m m' : Machine} {v : Value} (h : Reached m) (depth : Nat) (p : Program)
      (ends : interpretTo depth p m = .done v m') : Reached m'
  | failed {m m' : Machine} {fault : Fault} (h : Reached m) (depth : Nat) (p : Program)
      (ends : interpretTo depth p m = .failed fault m') : Reached m'

theorem grounded_start (scopes : m.scopes = {}) (functions : m.heap.functions = #[])
    (tasks : m.tasks = {}) (modules : m.modules = {}) (file : Option Path) :
    (m.start file).Grounded ∧ (m.start file).current ∉ (m.start file).modules.roots := by
  have rooted : (m.enter (m.scopes.addRoot file)).Grounded := by
    constructor
    · show ({ all := m.scopes.all.push { file }, aliasCount := m.scopes.aliasCount } : Scopes).Grounded
        m.modules.loaded
      rw [scopes, modules]
      exact Scopes.Grounded.empty.push _ rfl fun parent hparent => by cases hparent
    · simp [enter, Scopes.addRoot]
    · simp [enter, functions]
    · simp [enter, tasks]
  have started := staysGrounded_addPrelude rooted m.scopes.all.size
  refine ⟨started.grounded, ?_⟩
  have kept : (m.start file).modules = m.modules ∧ (m.start file).current = m.scopes.all.size := by
    unfold start addPrelude
    dsimp only
    split <;> exact ⟨rfl, rfl⟩
  rw [kept.1, modules]
  intro hmem
  cases hmem

theorem staysGrounded_pass {ev : Evaluator} (hev : ev.Follows) (h : m.Grounded)
    (outside : m.current ∉ m.modules.roots) (p : Program) :
    (pass ev p { m with log := {} }).Ends fun _ m' =>
      StaysGrounded m m' ∧ m'.current = m.current := by
  have cleared : StaysGrounded m { m with log := {} } :=
    .same h rfl rfl h.current h.functions h.jobs
  refine (follows_pass hev p { m with log := {} }).imp fun _ m' course => ?_
  exact ⟨cleared.trans (course.staysGrounded cleared.grounded fun _ => outside), course.current⟩

theorem Reached.grounded (h : m.Reached) : m.Grounded ∧ m.current ∉ m.modules.roots := by
  induction h with
  | start scopes functions tasks modules file => exact grounded_start scopes functions tasks modules file
  | between _ scopes current functions tasks modules ih =>
    refine ⟨(StaysGrounded.same ih.1 scopes (congrArg _ modules) (current ▸ ih.1.current)
      (functions ▸ ih.1.functions) (tasks ▸ ih.1.jobs)).grounded, ?_⟩
    rw [current, modules]
    exact ih.2
  | done _ depth p ends ih =>
    have stays := (staysGrounded_pass (Evaluator.follows_ofDepth depth) ih.1 ih.2 p).done (pass_of_done ends)
    exact ⟨stays.1.grounded, stays.2 ▸ stays.1.notMem_roots ih.1.current ih.2⟩
  | failed _ depth p ends ih =>
    obtain ⟨fault, m₁, stopped, -, rfl⟩ := pass_of_failed ends
    have stays := (staysGrounded_pass (Evaluator.follows_ofDepth depth) ih.1 ih.2 p).failed stopped
    have grounded := stays.1.grounded
    have dropped : StaysGrounded m₁ { m₁ with tasks := m₁.tasks.clear, log := {} } :=
      .same grounded rfl rfl grounded.current grounded.functions fun job hjob => by cases hjob
    exact ⟨dropped.grounded, stays.2 ▸ stays.1.notMem_roots ih.1.current ih.2⟩

/-- **Looking up names always comes to an end**: between the passes of a run, and at every moment of the next
one, whatever programs are run and whatever modules they use. -/
theorem Reached.lookup_ends (h : m.Reached) :
    m.scopes.LookupEnds ∧ ∀ stop depth p,
      (pass (.upTo stop depth) p { m with log := {} }).Ends fun _ m' => m'.scopes.LookupEnds := by
  obtain ⟨grounded, outside⟩ := h.grounded
  refine ⟨grounded.scopes.lookupEnds, fun stop depth p => ?_⟩
  refine (staysGrounded_pass (Evaluator.follows_upTo stop depth) grounded outside p).imp ?_
  exact fun _ m' stays => stays.1.grounded.scopes.lookupEnds

def importing : Program :=
  ⟨2, [⟨1, {}, .useModule "vine:path" none []⟩]⟩

/-- After a pass over the program the root of the script refers to that of the module, and names are still
looked up to an end, in this pass and in the next one. -/
theorem lookup_ends_importing :
    ∃ v m', (({} : Machine).start none).Reached ∧
      interpretTo 3 importing (({} : Machine).start none) = .done v m' ∧ m'.Reached ∧
      m'.scopes.Refers 0 1 ∧ m'.scopes.LookupEnds ∧
      ∀ stop, (pass (.upTo stop 3) importing { m' with log := {} }).Ends fun _ m'' =>
        m''.scopes.LookupEnds := by
  have fresh : (({} : Machine).start none).Reached := .start rfl rfl rfl rfl none
  have run : (match interpretTo 3 importing (({} : Machine).start none) with
      | .done _ m' => (m'.scopes.get 0).targets == [1]
      | _ => false) = true := by decide +kernel
  cases hpass : interpretTo 3 importing (({} : Machine).start none) with
  | failed fault m' => rw [hpass] at run; cases run
  | exhausted => rw [hpass] at run; cases run
  | done v m' =>
    rw [hpass, beq_iff_eq] at run
    have reached : m'.Reached := .done fresh 3 importing hpass
    refine ⟨v, m', fresh, rfl, reached, .inr ?_, reached.lookup_ends.1,
      fun stop => reached.lookup_ends.2 stop 3 importing⟩
    rw [run]
    exact .head _

end Machine

end Trellis
