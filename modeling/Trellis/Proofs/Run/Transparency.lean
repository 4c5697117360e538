import Trellis.Proofs.Run.Likeness

/-!
# The debugger is transparent

A run that is observed from a console is compared with the same run when nobody looks on. At every statement the
console may pause the run and take any number of commands. As long as none of them is the command to exit, all of
this is lost on the script: the two runs come to the same value or the same fault, with the same scopes, heap, tasks
and modules, and the script writes the same texts.

The two machines are *overlooked* (`Machine.Overlooked`): they agree in all but the observer and in what the console
wrote. This is a likeness, so what has to be looked at is the console itself. Its commands are the lines of its
input, and none but `exit` stops the run.
-/

namespace Trellis

/-! ## The lines of an input -/

namespace Text

theorem wordsFrom_concat (current cs : List Char) {c : Char} (blank : isBlank c = true) :
    wordsFrom current (cs ++ [c]) = wordsFrom current cs := by
  induction cs generalizing current with
  | nil => cases current <;> simp [wordsFrom, blank]
  | cons d cs ih => simp only [List.cons_append, wordsFrom, ih]

theorem words_ofList (cs : List Char) : words (String.ofList cs) = (wordsFrom [] cs).map String.ofList := by
  rw [words, String.toList_ofList]

theorem words_closeLine (reversed : List Char) :
    words (String.ofList (closeLine reversed)) =
      words (String.ofList (reversed.reverse ++ ['\n'])) := by
  rw [words_ofList, words_ofList, wordsFrom_concat _ _ rfl]
  unfold closeLine
  split
  · rw [List.reverse_cons, wordsFrom_concat _ _ rfl]
  · rfl

theorem readLine?_spec {input line rest : List Char} (h : readLine? input = some (line, rest)) :
    ∃ piece : List Char, (∀ c ∈ piece, c ≠ '\n') ∧
      ((input = piece ++ '\n' :: rest ∧ line = piece ++ ['\n']) ∨
        (input = piece ∧ piece ≠ [] ∧ line = piece ∧ rest = [])) := by
  have whole := List.takeWhile_append_dropWhile (p := (· != '\n')) (l := input)
  refine ⟨input.takeWhile (· != '\n'), fun c hc =>
    bne_iff_ne.mp (List.all_eq_true.mp List.all_takeWhile c hc), ?_⟩
  cases input with
  | nil => cases h
  | cons c cs =>
    rw [readLine?] at h
    · cases hdrop : (c :: cs).dropWhile (· != '\n') with
      | nil =>
        rw [hdrop] at h whole
        rw [List.append_nil] at whole
        cases h
        exact .inr ⟨whole.symm, by rw [whole]; exact List.cons_ne_nil c cs, rfl, rfl⟩
      | cons feed others =>
        have hfeed : feed = '\n' := by
          have := List.head?_dropWhile_not (· != '\n') (c :: cs)
          rw [hdrop] at this
          simpa using this
        rw [hdrop] at h whole
        subst hfeed
        cases h
        exact .inl ⟨whole.symm, rfl⟩
    · exact List.cons_ne_nil c cs

end Text

/-! ## Consoles -/

namespace Console

def isExit (words : List String) : Bool :=
  words.head? == some "exit"

def hasExit (input : List Char) : Bool :=
  (Text.linesFrom [] input).any fun line => isExit (Text.words (String.ofList line))

theorem hasExit_of_readLine? {input line rest : List Char}
    (h : Text.readLine? input = some (line, rest)) :
    hasExit input = (isExit (Text.words (String.ofList line)) || hasExit rest) := by
  obtain ⟨piece, plain, ⟨rfl, rfl⟩ | ⟨rfl, filled, rfl, rfl⟩⟩ := Text.readLine?_spec h
  · unfold hasExit
    rw [Text.linesFrom_append (fun h => plain _ h rfl), List.append_nil, Text.linesFrom, List.any_cons,
      Text.words_closeLine, List.reverse_reverse]
  · have read : Text.linesFrom [] line = [line] := by
      have := Text.linesFrom_append (fun h => plain _ h rfl) [] []
      rw [List.append_nil, List.append_nil] at this
      rw [this, Text.linesFrom, if_neg (by simpa using filled), List.reverse_reverse]
    unfold hasExit
    rw [read]
    rfl

theorem command_spec (c : Console) (scopes : Scopes) (h : Heap) (words : List String) :
    (c.command scopes h words).1.input = c.input ∧
      (isExit words = false → (c.command scopes h words).2.2 ≠ .stop) := by
  cases words with
  | nil => exact ⟨rfl, nofun⟩
  | cons verb arguments =>
    have going (n : Console) (text : String) (v : Verdict) (same : n.input = c.input)
        (goes : v ≠ .stop) :
        ((n, text, v) : Console × String × Verdict).1.input = c.input ∧
          (isExit (verb :: arguments) = false → ((n, text, v) : Console × String × Verdict).2.2 ≠ .stop) :=
      ⟨same, fun _ => goes⟩
    unfold command
    dsimp only
    -- One split for each verb, in the order in which they are tried.
    split
    · split <;> exact going _ _ _ rfl nofun
    split
    · split
      · split <;> exact going _ _ _ rfl nofun
      · exact going _ _ _ rfl nofun
    split
    · exact going _ _ _ rfl nofun
    split
    · exact going _ _ _ rfl nofun
    split
    · exact going _ _ _ rfl nofun
    split
    · exact going _ _ _ rfl nofun
    split
    · exact going _ _ _ rfl nofun
    split
    · rename_i exits
      refine ⟨rfl, fun other => ?_⟩
      rw [beq_iff_eq.mp exits] at other
      cases other
    split <;> exact going _ _ _ rfl nofun

/-- **Taking commands never ends the run** unless one of them is to exit, and the commands that are left are
among those that were there. -/
theorem converse_spec (scopes : Scopes) (h : Heap) (bound : Nat) (c : Console) (written : String)
    (stays : hasExit c.input = false) :
    hasExit (converse scopes h bound c written).1.input = false ∧
      (converse scopes h bound c written).2.2 ≠ .stop := by
  induction bound generalizing c written with
  | zero => exact ⟨stays, nofun⟩
  | succ bound ih =>
    unfold converse
    cases hline : Text.readLine? c.input with
    | none => exact ⟨stays, nofun⟩
    | some found =>
      obtain ⟨line, rest⟩ := found
      rw [hasExit_of_readLine? hline, Bool.or_eq_false_iff] at stays
      obtain ⟨same, goes⟩ := command_spec { c with input := rest } scopes h
        (Text.words (String.ofList line))
      have kept : hasExit ({ c with input := rest }.command scopes h
          (Text.words (String.ofList line))).1.input = false := by
        rw [same]
        exact stays.2
      have goes := goes stays.1
      dsimp only
      generalize { c with input := rest }.command scopes h (Text.words (String.ofList line)) = next at *
      obtain ⟨c', text, verdict⟩ := next
      cases verdict with
      -- Only here the conversation goes on, with one line less.
      | stay => exact ih c' _ kept
      | resume => exact ⟨kept, nofun⟩
      | stop => exact absurd rfl goes

theorem report_input (c : Console) (line : Nat) (statement : NodeId) (scope : ScopeId)
    (file : Option Path) : (c.report line statement scope file).1.input = c.input := by
  unfold report
  split
  · rfl
  · dsimp only
    split <;> rfl

end Console

/-! ## Machines that are watched in two ways -/

namespace Machine

/-- **Machines that are watched in two ways** and differ in nothing else: what is decided by the observers and by what was
written, and what telling them of a statement keeps. -/
structure Watching (R : Machine → Machine → Prop) : Prop where
  same : ∀ {m m'}, R m m' → ∃ o t, m' = m.seenBy o t
  carry : ∀ {m n o t}, R m (m.seenBy o t) → n.observer = m.observer → n.transcript = m.transcript →
    R n (n.seenBy o t)
  write : ∀ {m m'}, R m m' → ∀ text, R (m.write .script text) (m'.write .script text)
  observe : ∀ s, Run.Beside R (Run.observe s) (Run.observe s)

namespace Watching

variable {R : Machine → Machine → Prop} {ev ev' : Evaluator}

theorem likeness (hR : Watching R) : Likeness R :=
  ⟨hR.same, fun h _ => hR.carry h, hR.write⟩

theorem changed (hR : Watching R) {m m' : Machine} (h : R m m') {f : Machine → Machine}
    (seen : ∀ (m : Machine) o t, f (m.seenBy o t) = (f m).seenBy o t)
    (observer : ∀ m, (f m).observer = m.observer) (transcript : ∀ m, (f m).transcript = m.transcript) :
    R (f m) (f m') := by
  obtain ⟨o, t, rfl⟩ := hR.same h
  rw [seen]
  exact hR.carry h (observer m) (transcript m)

theorem loadModule (hR : Watching R) (hev : ev.Beside R ev') (source : String) :
    Run.Beside R (ev.loadModule source) (ev'.loadModule source) := by
  have kept (f : ModuleTable → ModuleTable) {m m' : Machine} (h : R m m') :
      R { m with modules := f m.modules } { m' with modules := f m'.modules } :=
    hR.changed h (f := fun m => { m with modules := f m.modules })
      (fun _ _ _ => rfl) (fun _ => rfl) (fun _ => rfl)
  intro m m' h
  refine Evaluator.beside_loadModule hR.likeness h (fun name => ?_) ?_
  · exact Evaluator.beside_loadBuiltin hR.likeness name fun root _ _ hn _ =>
      kept (·.finish (.builtin name) root) hn
  · refine Evaluator.beside_loadFile (S := fun _ => R) hR.likeness h (fun _ _ => hev) ?_ ?_ ?_
    · exact fun path modules _ _ => kept (fun _ => modules) h
    · exact fun path n n' hn => kept (·.abandon (.file path)) hn
    · exact fun path root n n' hn => kept (·.finish (.file path) root) hn

theorem ofDepth (hR : Watching R) (depth : Nat) :
    (Evaluator.ofDepth depth).Beside R (Evaluator.ofDepth depth) := by
  induction depth with
  | zero =>
    exact ⟨hR.likeness, fun _ => .exhaust, fun _ => .exhaust, fun _ => .exhaust, fun _ => .exhaust, rfl⟩
  | succ depth ih =>
    exact ⟨hR.likeness, Evaluator.beside_evaluateStep ih,
      fun s => Evaluator.beside_executeStep ih s (hR.observe s),
      fun s => Evaluator.beside_performStep ih s fun source _ _ _ => hR.loadModule ih source,
      Evaluator.beside_workStep ih, rfl⟩

theorem interpretTo (hR : Watching R) (depth : Nat) (p : Program) :
    Run.Beside R (Machine.interpretTo depth p) (Machine.interpretTo depth p) := by
  intro m m' h
  rw [interpretTo_eq, interpretTo_eq]
  have cleared : R { m with log := {} } { m' with log := {} } :=
    hR.changed h (f := fun m => { m with log := {} }) (fun _ _ _ => rfl) (fun _ => rfl) (fun _ => rfl)
  refine Action.beside_onFault (beside_pass (hR.ofDepth depth) p _ _ cleared) (fun _ _ hn => hn) ?_
  intro fault n n' hn
  refine ⟨?_, hR.changed hn (f := fun m => { m with tasks := m.tasks.clear, log := {} })
    (fun _ _ _ => rfl) (fun _ => rfl) (fun _ => rfl)⟩
  obtain ⟨o, t, rfl⟩ := hR.same hn
  rfl

end Watching

/-! ## Machines with and without a console -/

theorem observe_console {m : Machine} {c : Console} (observer : m.observer = .console c)
    (stays : Console.hasExit c.input = false) (s : Stmt) :
    ∃ c' text, Run.observe s m = .done () ({ m with observer := .console c' }.write .console text) ∧
      Console.hasExit c'.input = false := by
  unfold Run.observe
  rw [observer]
  dsimp only
  have reported : Console.hasExit (c.report s.span.line s.id m.current m.currentFile).1.input = false := by
    rw [Console.report_input]
    exact stays
  generalize c.report s.span.line s.id m.current m.currentFile = told₁ at *
  obtain ⟨c₁, text⟩ := told₁
  split
  · obtain ⟨left, goes⟩ := Console.converse_spec m.scopes m.heap (c₁.input.length + 1) c₁ "" reported
    unfold Console.interact
    generalize Console.converse m.scopes m.heap (c₁.input.length + 1) c₁ "" = told₂ at *
    obtain ⟨c₂, more, verdict⟩ := told₂
    cases verdict with
    | stop => exact absurd rfl goes
    | stay => exact ⟨c₂, _, rfl, left⟩
    | resume => exact ⟨c₂, _, rfl, left⟩
  · exact ⟨c₁, _, rfl, reported⟩

/-- **Two machines are overlooked**: the first one is observed from a console that is not told to exit, the
second one by nobody, and they agree in all else, and in what the script wrote. -/
structure Overlooked (m m' : Machine) : Prop where
  same : ∃ o t, m' = m.seenBy o t
  console : ∃ c, m.observer = .console c ∧ Console.hasExit c.input = false
  nobody : m'.observer = .nobody
  printed : m'.transcript.scriptPieces = m.transcript.scriptPieces

namespace Overlooked

theorem observe (s : Stmt) : Run.Beside Overlooked (Run.observe s) (Run.observe s) := by
  rintro m m' ⟨⟨o, t, rfl⟩, ⟨c, hc, stays⟩, nobody, printed⟩
  have alone : Run.observe s (m.seenBy o t) = .done () (m.seenBy o t) := by
    unfold Run.observe
    rw [nobody]
  obtain ⟨c', text, told, stays'⟩ := observe_console hc stays s
  rw [alone, told]
  refine ⟨_, rfl, ⟨o, t, rfl⟩, ⟨c', rfl, stays'⟩, nobody, ?_⟩
  show t.scriptPieces = (m.transcript.write .console text).scriptPieces
  rw [Transcript.scriptPieces_write_console]
  exact printed

theorem watching : Watching Overlooked where
  same h := h.same
  carry h observer transcript :=
    { same := ⟨_, _, rfl⟩
      console := observer ▸ h.console
      nobody := h.nobody
      printed := transcript ▸ h.printed }
  write := by
    rintro m m' h text
    obtain ⟨o, t, rfl⟩ := h.same
    refine ⟨⟨o, t.write .script text, rfl⟩, h.console, h.nobody, ?_⟩
    show (t.write .script text).scriptPieces = (m.transcript.write .script text).scriptPieces
    rw [Transcript.scriptPieces_write_script, Transcript.scriptPieces_write_script]
    exact congrArg (· ++ [text]) h.printed
  observe := observe

end Overlooked

end Machine

end Trellis
