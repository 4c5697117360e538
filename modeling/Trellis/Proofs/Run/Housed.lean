import Trellis.Proofs.Run.Accounts
import Trellis.Proofs.Run.Faults
import Trellis.Proofs.Script.Nodes

/-!
# The files that code stands in

The file that a fault gets is the one of the scope in which the code is executed. The two go together because each
scope *houses* the code that is executed in it (`Sources.Houses`): the code stands in a program that was run in the
file of the scope, or that was read from it as a module. A function and a job are executed later, in scopes inside of
the one in which they were made, so what has to be known of a machine is that the scopes of its functions and of its
jobs house their code (`Sources.Housed`).

Scopes never change their files, and nothing is taken out of the journal, which tells of the modules that were read.
So what was housed once stays housed (`Sources.Houses.mono`).
-/

namespace Trellis

/-! ## Passages of scripts -/

/-- **A passage of a script**: some of its nodes, and with each of them its parts. -/
structure Passage where
  Has : Node → Prop
  part : ∀ {n c : Node}, Has n → c ∈ n.parts → Has c

namespace Passage

def below (n : Node) : Passage :=
  ⟨(· ∈ n.all), fun h mem => Node.part_mem_all mem n h⟩

def ofProgram (p : Program) : Passage :=
  ⟨(· ∈ p.nodes), fun h mem => Program.mem_nodes_of_mem_all h (Node.mem_all_of_part mem)⟩

theorem has_body {p : Program} {s : Stmt} (h : s ∈ p.body) : (ofProgram p).Has (.stmt s) :=
  List.mem_flatMap.mpr ⟨s, h, Node.self_mem_all _⟩

theorem has_self (n : Node) : (below n).Has n :=
  n.self_mem_all

end Passage

/-! ## Scopes and their files -/

structure Scopes.KeepsFiles (s s' : Scopes) : Prop where
  size : s.all.size ≤ s'.all.size
  file : ∀ id < s.all.size, (s'.get id).file = (s.get id).file

namespace Scopes.KeepsFiles

variable {s s' s₁ s₂ : Scopes}

theorem refl (s : Scopes) : s.KeepsFiles s :=
  ⟨Nat.le_refl _, fun _ _ => rfl⟩

theorem trans (h₁ : s.KeepsFiles s₁) (h₂ : s₁.KeepsFiles s₂) : s.KeepsFiles s₂ :=
  ⟨Nat.le_trans h₁.size h₂.size, fun id hid =>
    (h₂.file id (Nat.lt_of_lt_of_le hid h₁.size)).trans (h₁.file id hid)⟩

theorem modify (s : Scopes) (id : ScopeId) {f : Scope → Scope} (h : ∀ scope, (f scope).file = scope.file) :
    s.KeepsFiles (s.modify id f) where
  size := Nat.le_of_eq (size_modify s id f).symm
  file i hi := by
    by_cases same : i = id
    · subst same
      rw [get_modify_self _ hi]
      exact h _
    · rw [get_modify_of_ne _ same]

theorem push (s : Scopes) (scope : Scope) : s.KeepsFiles { s with all := s.all.push scope } where
  size := by simp
  file _ hi := congrArg Scope.file (get_push scope _ hi)

theorem addRoot (s : Scopes) (file : Option Path) : s.KeepsFiles (s.addRoot file).2 :=
  push s _

theorem addChild (s : Scopes) (parent : ScopeId) : s.KeepsFiles (s.addChild parent).2 :=
  push s _

theorem addBinding (s : Scopes) (id : ScopeId) (name : String) (v : Value) (static : Bool) :
    s.KeepsFiles (s.addBinding id name v static) :=
  modify s id fun _ => by cases static <;> rfl

theorem replace (s : Scopes) (id : ScopeId) (name : String) (v : Value) : s.KeepsFiles (s.replace id name v) :=
  modify s id fun _ => rfl

theorem expose (s : Scopes) (id : ScopeId) (name : String) : s.KeepsFiles (s.expose id name) :=
  modify s id fun scope => by
    unfold Scope.expose
    split <;> rfl

theorem setAlias (s : Scopes) (id : ScopeId) (name remote : String) : s.KeepsFiles (s.setAlias id name remote) := by
  have changed : s.KeepsFiles (s.modify id fun scope =>
      { scope with aliases := (name, remote) :: scope.aliases }) := modify s id fun _ => rfl
  exact ⟨changed.size, changed.file⟩

theorem link {id root : ScopeId} {name : String} (h : s.link id name root = .ok s') : s.KeepsFiles s' := by
  obtain ⟨-, rfl⟩ | ⟨-, -, rfl⟩ := of_link h
  · exact modify s id fun _ => rfl
  · exact modify s id fun _ => rfl

theorem declareConstants (s : Scopes) (id : ScopeId) (exports : List (String × Value)) :
    s.KeepsFiles (s.declareConstants id exports) := by
  induction exports generalizing s with
  | nil => exact .refl s
  | cons entry rest ih =>
    obtain ⟨name, v⟩ := entry
    unfold Scopes.declareConstants Scopes.declare
    cases s.declareFault? id name with
    | some fault => exact ih s
    | none => exact (addBinding s id name v true).trans (ih _)

end Scopes.KeepsFiles

theorem Scopes.file_addRoot (s : Scopes) (file : Option Path) :
    ((s.addRoot file).2.get (s.addRoot file).1).file = file := by
  simp [Scopes.addRoot, Scopes.get]

theorem Scopes.file_addChild (s : Scopes) (parent : ScopeId) :
    ((s.addChild parent).2.get (s.addChild parent).1).file = (s.get parent).file := by
  simp [Scopes.addChild, Scopes.get]

theorem Scopes.addRoot_lt_size (s : Scopes) (file : Option Path) :
    (s.addRoot file).1 < (s.addRoot file).2.all.size := by
  simp [Scopes.addRoot]

theorem Scopes.addChild_lt_size (s : Scopes) (parent : ScopeId) :
    (s.addChild parent).1 < (s.addChild parent).2.all.size := by
  simp [Scopes.addChild]

/-! ## Housing -/

/-- **The scripts that a run is given**: the programs that are run, one after another, and the file that they
are in. -/
structure Sources where
  file : Path
  programs : List Program

/-- **A later machine**: scopes keep their files, and the journal keeps its entries. -/
structure Machine.Extends (m m' : Machine) : Prop where
  scopes : m.scopes.KeepsFiles m'.scopes
  journal : ∀ event ∈ m.journal, event ∈ m'.journal

namespace Machine.Extends

variable {m m' m₁ m₂ : Machine}

theorem trans (h₁ : m.Extends m₁) (h₂ : m₁.Extends m₂) : m.Extends m₂ :=
  ⟨h₁.scopes.trans h₂.scopes, fun event h => h₂.journal event (h₁.journal event h)⟩

theorem same (scopes : m'.scopes = m.scopes) (journal : m'.journal = m.journal) : m.Extends m' :=
  ⟨scopes ▸ .refl _, fun _ h => journal ▸ h⟩

theorem ofScopes {scopes : Scopes} (h : m.scopes.KeepsFiles scopes) : m.Extends { m with scopes } :=
  ⟨h, fun _ h => h⟩

theorem note (m : Machine) (event : Event) : m.Extends (m.note event) :=
  ⟨.refl _, fun _ h => .tail _ h⟩

end Machine.Extends

namespace Sources

variable (src : Sources) {m m' m₁ m₂ : Machine} {scope : ScopeId} {n c : Node}

/-- **A node stands in a file**: in a program that the run is given, or in one that was read from the file of a
module. -/
def HasCode (m : Machine) (file : Path) (n : Node) : Prop :=
  ∃ p : Program, n ∈ p.nodes ∧ ((file = src.file ∧ p ∈ src.programs) ∨ .moduleRead file p ∈ m.journal)

/-- **A scope houses a node**: there is such a scope, and the node stands in its file. -/
def Houses (m : Machine) (scope : ScopeId) (n : Node) : Prop :=
  scope < m.scopes.all.size ∧ ∃ file, (m.scopes.get scope).file = some file ∧ src.HasCode m file n

def PutOff (m : Machine) (job : Job) : Prop :=
  ∃ e started, e.span = job.span ∧ e.form = .run started job.continuations ∧
    src.Houses m job.scope (.expr e)

/-- **The code of a machine is housed** by the scopes that it will be executed in, and no debugger looks on. -/
structure Housed (m : Machine) : Prop where
  functions : ∀ f ∈ m.heap.functions, src.Houses m f.scope (.block f.body)
  jobs : ∀ job ∈ m.tasks.jobs.toList, src.PutOff m job
  unseen : ∀ c, m.observer ≠ .console c

variable {src}

theorem HasCode.below {file : Path} (h : src.HasCode m file n) (hc : c ∈ n.all) : src.HasCode m file c := by
  obtain ⟨p, hn, hp⟩ := h
  exact ⟨p, Program.mem_nodes_of_mem_all hn hc, hp⟩

theorem HasCode.mono {file : Path} (h : src.HasCode m file n)
    (journal : ∀ event ∈ m.journal, event ∈ m'.journal) : src.HasCode m' file n := by
  obtain ⟨p, hn, hp⟩ := h
  exact ⟨p, hn, hp.imp_right (journal _)⟩

theorem Houses.below (h : src.Houses m scope n) (hc : c ∈ n.all) : src.Houses m scope c := by
  obtain ⟨inside, file, hfile, code⟩ := h
  exact ⟨inside, file, hfile, code.below hc⟩

theorem Houses.mono (h : src.Houses m scope n) (later : m.Extends m') : src.Houses m' scope n := by
  obtain ⟨inside, file, hfile, code⟩ := h
  exact ⟨Nat.lt_of_lt_of_le inside later.scopes.size, file, (later.scopes.file _ inside).trans hfile,
    code.mono later.journal⟩

theorem Houses.child (h : src.Houses m scope n) :
    src.Houses { m with scopes := (m.scopes.addChild scope).2 } (m.scopes.addChild scope).1 n := by
  obtain ⟨inside, file, hfile, code⟩ := h
  exact ⟨m.scopes.addChild_lt_size scope, file, (m.scopes.file_addChild scope).trans hfile, code⟩

theorem PutOff.mono {job : Job} (h : src.PutOff m job) (later : m.Extends m') : src.PutOff m' job := by
  obtain ⟨e, started, span, form, houses⟩ := h
  exact ⟨e, started, span, form, houses.mono later⟩

variable (h : src.Housed m)

include h

theorem Housed.mono (later : m.Extends m')
    (functions : ∀ f ∈ m'.heap.functions, f ∈ m.heap.functions)
    (jobs : ∀ job ∈ m'.tasks.jobs.toList, job ∈ m.tasks.jobs.toList)
    (unseen : ∀ c, m'.observer ≠ .console c) : src.Housed m' where
  functions f hf := (h.functions f (functions f hf)).mono later
  jobs job hjob := (h.jobs job (jobs job hjob)).mono later
  unseen := unseen

theorem Housed.ofScopes {scopes : Scopes} (keeps : m.scopes.KeepsFiles scopes) : src.Housed { m with scopes } :=
  h.mono (.ofScopes keeps) (fun _ hf => hf) (fun _ hjob => hjob) h.unseen

theorem Housed.moveTo (scope : ScopeId) : src.Housed (m.moveTo scope) :=
  h.mono (.same rfl rfl) (fun _ hf => hf) (fun _ hjob => hjob) h.unseen

theorem Housed.note (event : Event) : src.Housed (m.note event) :=
  h.mono (.note m event) (fun _ hf => hf) (fun _ hjob => hjob) h.unseen

theorem Housed.newFunction {f : Closure} (houses : src.Houses m f.scope (.block f.body)) :
    src.Housed { m with heap := (m.heap.newFunction f).2 } where
  functions g hg := by
    rcases Array.mem_push.mp hg with before | rfl
    · exact h.functions g before
    · exact houses
  jobs := h.jobs
  unseen := h.unseen

theorem Housed.schedule {e started : Expr} {continuations : List Continuation}
    (form : e.form = .run started continuations) (houses : src.Houses m m.current (.expr e))
    (callee : Value) (arguments : List Value) :
    src.Housed (m.schedule callee arguments continuations e.span) := by
  have later : m.Extends (m.schedule callee arguments continuations e.span) := ⟨.refl _, fun _ h => .tail _ h⟩
  refine ⟨fun f hf => (h.functions f hf).mono later, fun job hjob => ?_, h.unseen⟩
  rcases List.mem_append.mp (Queue.toList_push _ _ ▸ hjob) with before | new
  · exact (h.jobs job before).mono later
  · rw [List.mem_singleton.mp new]
    exact ⟨e, started, rfl, form, houses.mono later⟩

theorem Housed.pop {job : Job} {tasks : TaskQueue}
    (pop : m.tasks.pop? = some (job, tasks)) :
    src.Housed { m with tasks } ∧ src.PutOff { m with tasks } job := by
  obtain ⟨⟨_, _⟩, hpop, hq⟩ := Option.map_eq_some_iff.mp pop
  cases hq
  have all := Queue.toList_of_pop? hpop
  exact ⟨⟨h.functions, fun other hother => h.jobs other (all ▸ .tail _ hother), h.unseen⟩,
    h.jobs job (all ▸ .head _)⟩

theorem Housed.addPrelude (root : ScopeId) : src.Housed (m.addPrelude root) := by
  unfold Machine.addPrelude
  split
  · exact h
  · rename_i exports heap built
    have later : m.Extends { m with heap, scopes := m.scopes.declareConstants root exports } :=
      ⟨.declareConstants m.scopes root exports, fun _ h => h⟩
    exact h.mono later (fun f hf => Evaluator.functions_build? built ▸ hf) (fun _ hjob => hjob) h.unseen

end Sources

end Trellis
