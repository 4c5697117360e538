import Trellis.Proofs.Run.Transparency

/-!
# Where the debugger pauses

The console knows of a run only the statements that it is told of, one after another. If every pause is answered by the
command to go on, what it writes at each of them is a function of the statements so far (`Console.remark`): it pauses at
the first statement of its file, and at a statement on a line with a breakpoint if the statement of the file before
that one was on another line. So a run under the console is compared with the run that is traced
(`Machine.interpretTo_pauses`). A line that a loop comes back to at once is not paused at again
(`Machine.loop_passes_breakpoint`).
-/

namespace Trellis

/-- **What the console wrote**, the last piece first. There is one for each statement that it was told of. -/
def Transcript.told (t : Transcript) : List String :=
  t.reversed.filterMap fun (writer, text) =>
    match writer with
    | .script => none
    | .console => some text

namespace Console

/-- The command to go on, as often as is said. -/
def nexts (n : Nat) : List Char :=
  (List.replicate n ['n', '\n']).flatten

variable (c : Console) (a : TraceEntry) (earlier : List TraceEntry)

/-- The last statement of the file among statements, the last one first. -/
def last? : Option TraceEntry :=
  earlier.find? (·.file == c.file)

def lineBefore : Nat :=
  (c.last? earlier).elim c.line (·.line)

def arrives : Bool :=
  a.file == c.file && a.line != c.lineBefore earlier && c.breakpoints.contains a.line

def pausesAt : Bool :=
  c.arrives a earlier || a.file == c.file && c.paused && (c.last? earlier).isNone

/-- **What the console writes about a statement**, and about the command to go on if it pauses there. -/
def remark : String :=
  (if c.arrives a earlier then "Paused at breakpoint at line " ++ toString a.line ++ "\n" else "") ++
    if c.pausesAt a earlier then prompt ++ "Continuing execution...\n" else ""

def session : List TraceEntry → List String
  | [] => []
  | a :: earlier => c.remark a earlier :: session earlier

def pauses : List TraceEntry → Nat
  | [] => 0
  | a :: earlier => pauses earlier + if c.pausesAt a earlier then 1 else 0

/-- The console behind statements, if there were so many answers. -/
def after (n : Nat) (trace : List TraceEntry) : Console :=
  { c with
    line := c.lineBefore trace
    statement := (c.last? trace).map (·.statement)
    scope := (c.last? trace).elim c.scope (some ·.scope)
    paused := c.paused && (c.last? trace).isNone
    input := nexts (n - c.pauses trace) }

variable {c}

theorem after_nil {n : Nat} (fresh : c.statement = none) (answers : c.input = nexts n) : c.after n [] = c := by
  simp [after, last?, lineBefore, pauses, ← answers, ← fresh]

theorem report_after (n : Nat) (attached : c.detached = false) :
    (c.after n earlier).report a.line a.statement a.scope a.file =
      ({ c.after n (a :: earlier) with
          paused := c.pausesAt a earlier || (c.paused && (c.last? (a :: earlier)).isNone)
          input := nexts (n - c.pauses earlier) },
        if c.arrives a earlier then "Paused at breakpoint at line " ++ toString a.line ++ "\n" else "") := by
  unfold report
  cases same : a.file == c.file with
  | true =>
    have last : c.last? (a :: earlier) = some a := by simp [last?, same]
    have hit : c.arrives a earlier = (a.line != c.lineBefore earlier && c.breakpoints.contains a.line) := by
      simp [arrives, same]
    rw [if_neg (by simp [after, bne, same])]
    simp only [after, attached, last, pausesAt, hit, same]
    split <;> simp_all [lineBefore]
  | false =>
    have last : c.last? (a :: earlier) = c.last? earlier := by simp [last?, same]
    have passed : c.arrives a earlier = false := by simp [arrives, same]
    have kept : c.pausesAt a earlier = false := by simp [pausesAt, passed, same]
    rw [if_pos (by simp [after, bne, same])]
    simp [after, lineBefore, pauses, last, passed, kept]

theorem interact_nexts {d : Console} {k : Nat} (answers : d.input = nexts (k + 1)) (scopes : Scopes) (h : Heap) :
    d.interact scopes h =
      ({ d with paused := false, input := nexts k }, prompt ++ "Continuing execution...\n", .resume) := by
  have read : Text.readLine? (nexts (k + 1)) = some (['n', '\n'], nexts k) := rfl
  unfold interact converse
  simp only [answers, read]
  rfl

theorem hasExit_nexts (k : Nat) : hasExit (nexts k) = false := by
  induction k with
  | zero => rfl
  | succ k ih =>
    have read : Text.readLine? (nexts (k + 1)) = some (['n', '\n'], nexts k) := rfl
    rw [hasExit_of_readLine? read, ih]
    rfl

theorem file_of_pausesAt (h : c.pausesAt a earlier = true) : c.last? (a :: earlier) = some a := by
  have same : (a.file == c.file) = true := by
    cases same : a.file == c.file <;> simp_all [pausesAt, arrives]
  simp [last?, same]

theorem isPaused_after (n : Nat) (attached : c.detached = false) :
    ((c.after n earlier).report a.line a.statement a.scope a.file).1.isPaused = c.pausesAt a earlier := by
  rw [report_after a earlier n attached]
  cases pausing : c.pausesAt a earlier with
  | true => simp [isPaused, after, attached, file_of_pausesAt a earlier pausing]
  | false => cases hlast : c.last? (a :: earlier) <;> simp [isPaused, after, hlast]

end Console

namespace Machine

variable {c : Console} {n : Nat}

theorem observe_after (attached : c.detached = false) {m : Machine} {trace : List TraceEntry}
    (observer : m.observer = .console (c.after n trace)) (s : Stmt) {a : TraceEntry}
    (ha : a = ⟨s.span.line, s.id, m.current, m.currentFile⟩) (left : c.pauses (a :: trace) ≤ n) :
    Run.observe s m =
      .done () ({ m with observer := .console (c.after n (a :: trace)) }.write .console (c.remark a trace)) := by
  have told : (c.after n trace).report s.span.line s.id m.current m.currentFile =
      (c.after n trace).report a.line a.statement a.scope a.file := by rw [ha]
  have pausing := Console.isPaused_after a trace n attached
  rw [Console.report_after a trace n attached] at told pausing
  unfold Run.observe
  simp only [observer, told, pausing, Console.remark]
  cases paused : c.pausesAt a trace with
  | false =>
    have quiet : c.arrives a trace = false := by simp_all [Console.pausesAt]
    simp [Console.after, Console.pauses, paused, quiet]
  | true =>
    rw [Console.pauses, paused, if_pos rfl] at left
    have answers : n - c.pauses trace = n - (c.pauses trace + 1) + 1 := by omega
    rw [if_pos rfl, Console.interact_nexts (congrArg Console.nexts answers)]
    simp [Console.after, Console.pauses, paused, Console.file_of_pausesAt a trace paused]

/-- **A run under the console goes beside one that is traced.** The console is where the trace says, and has written what is
said of the statements of the trace, as long as it has been answered. -/
structure Prompted (c : Console) (n : Nat) (before : List String) (m m' : Machine) : Prop where
  same : ∃ o t, m' = m.seenBy o t
  told : ∃ trace c', m'.observer = .trace trace ∧ m.observer = .console c' ∧ Console.hasExit c'.input = false ∧
    (c.pauses trace ≤ n → c' = c.after n trace ∧ m.transcript.told = c.session trace ++ before)

theorem Prompted.observe {before : List String} (attached : c.detached = false) (s : Stmt) :
    Run.Beside (Prompted c n before) (Run.observe s) (Run.observe s) := by
  rintro m m' ⟨⟨o, t, rfl⟩, trace, c', traced, observer, stays, answered⟩
  have noted : Run.observe s (m.seenBy o t) = .done ()
      (m.seenBy (.trace (⟨s.span.line, s.id, m.current, m.currentFile⟩ :: trace)) t) := by
    unfold Run.observe
    simp only [traced]
    rfl
  rw [noted]
  by_cases left : c.pauses (⟨s.span.line, s.id, m.current, m.currentFile⟩ :: trace) ≤ n
  · obtain ⟨rfl, earlier⟩ := answered (Nat.le_trans (Nat.le_add_right ..) left)
    rw [observe_after attached observer s rfl left]
    exact ⟨_, rfl, ⟨_, _, rfl⟩, _, _, rfl, rfl, Console.hasExit_nexts _,
      fun _ => ⟨rfl, congrArg (c.remark _ trace :: ·) earlier⟩⟩
  · obtain ⟨d, text, told, stays'⟩ := observe_console observer stays s
    rw [told]
    exact ⟨_, rfl, ⟨_, _, rfl⟩, _, d, rfl, rfl, stays', fun h => absurd h left⟩

theorem Prompted.watching (attached : c.detached = false) (before : List String) : Watching (Prompted c n before) where
  same h := h.same
  carry := by
    rintro m k o t ⟨-, trace, c', traced, observer', told⟩ observer transcript
    exact ⟨⟨o, t, rfl⟩, trace, c', traced, observer ▸ observer', transcript ▸ told⟩
  write := by
    rintro m m' ⟨⟨o, t, rfl⟩, told⟩ text
    exact ⟨⟨o, t.write .script text, rfl⟩, told⟩
  observe := observe attached

/-- **Where the debugger pauses.** A program is run under a console with any breakpoints, and every pause is answered by the
command to go on, as long as there are answers. Then it comes to the same end as when it is traced, and of the statements
of the trace the console pauses exactly at the first one of its file and at those that the run comes to on a line with a
breakpoint from another line of the file. This is what it writes about each of them, if it is answered every time. -/
theorem interpretTo_pauses (m : Machine) (c : Console) (n depth : Nat) (p : Program) (attached : c.detached = false)
    (fresh : c.statement = none) (answers : c.input = Console.nexts n) :
    (interpretTo depth p { m with observer := .console c }).Beside
      (fun k k' => ∃ trace t, k' = k.seenBy (.trace trace) t ∧
        (c.pauses trace ≤ n → k.transcript.told = c.session trace ++ m.transcript.told))
      (interpretTo depth p { m with observer := .trace [] }) := by
  have start : Prompted c n m.transcript.told { m with observer := .console c } { m with observer := .trace [] } :=
    ⟨⟨.trace [], m.transcript, rfl⟩, [], c, rfl, rfl, answers ▸ Console.hasExit_nexts n,
      fun _ => ⟨(Console.after_nil fresh answers).symm, rfl⟩⟩
  refine ((Prompted.watching attached _).interpretTo depth p _ _ start).imp ?_
  rintro k _ ⟨⟨o, t, rfl⟩, trace, c', traced, -, -, answered⟩
  exact ⟨trace, t, congrArg (k.seenBy · t) traced, fun left => (answered left).2⟩

/-- A loop with one statement in its body, on the second line. -/
def looping : Program :=
  ⟨4, [⟨3, { line := 1 }, .loop ⟨"i", {}⟩ none ⟨{}, .array [⟨{}, .literal .nil⟩, ⟨{}, .literal .nil⟩]⟩
    ⟨2, {}, [⟨1, { line := 2 }, .expression ⟨{}, .literal .nil⟩⟩]⟩⟩]⟩

/-- A breakpoint at that statement, and more answers than it takes. -/
def stopping : Console :=
  { lines := ["for i in [nil, nil]:", "    nil", "end"], file := none, outline := {}, breakpoints := [2]
    input := Console.nexts 3 }

def stopped : List String :=
  ["", "Paused at breakpoint at line 2\ndebug> Continuing execution...\n", "debug> Continuing execution...\n"]

/-- The console pauses at the loop, and at its statement when the run comes to it from the line above. -/
theorem interpretTo_pauses_looping :
    stopping.detached = false ∧ stopping.statement = none ∧ stopping.input = Console.nexts 3 ∧
      ∃ v m, interpretTo 5 looping { ({} : Machine).start none with observer := .console stopping } = .done v m ∧
        m.transcript.told = stopped := by
  have run : (interpretTo 5 looping { ({} : Machine).start none with observer := .console stopping }).doneWith
      (fun _ => true) = true := by decide +kernel
  have traced : (interpretTo 5 looping { ({} : Machine).start none with observer := .trace [] }).doneWith (fun m =>
      match m.observer with
      | .trace trace => decide (stopping.pauses trace ≤ 3) && stopping.session trace == stopped
      | _ => false) = true := by decide +kernel
  obtain ⟨v, m, done, -⟩ := Outcome.of_doneWith run
  obtain ⟨m', alone, trace, t, seen, told⟩ :=
    Outcome.Beside.of_done (interpretTo_pauses _ stopping 3 5 looping rfl rfl rfl) done
  subst seen
  obtain ⟨_, _, again, checked⟩ := Outcome.of_doneWith traced
  rw [alone] at again
  obtain ⟨-, rfl⟩ := Outcome.done.inj again
  obtain ⟨few, said⟩ := Bool.and_eq_true_iff.mp
    (checked : (decide (stopping.pauses trace ≤ 3) && stopping.session trace == stopped) = true)
  have told := told (of_decide_eq_true few)
  have before : (({} : Machine).start none).transcript.told = [] := by decide +kernel
  rw [beq_iff_eq.mp said, before, List.append_nil] at told
  exact ⟨rfl, rfl, rfl, v, m, done, told⟩

/-- **A loop passes a breakpoint.** Its statement is executed twice, each time as the first one of the body, and the run
pauses there once: the second time it comes from the same line. -/
theorem loop_passes_breakpoint :
    ∃ v m v' m' trace,
      interpretTo 5 looping { ({} : Machine).start none with observer := .console stopping } = .done v m ∧
      m.transcript.text = "debug> Continuing execution...\nPaused at breakpoint at line 2\n" ++
        "debug> Continuing execution...\n" ∧
      interpretTo 5 looping { ({} : Machine).start none with observer := .trace [] } = .done v' m' ∧
      m'.observer = .trace trace ∧ trace.map (fun a => (a.line, a.statement)) = [(2, 1), (2, 1), (1, 3)] := by
  have run : (interpretTo 5 looping { ({} : Machine).start none with observer := .console stopping }).doneWith
      (fun m => m.transcript.text == "debug> Continuing execution...\nPaused at breakpoint at line 2\n" ++
        "debug> Continuing execution...\n") = true := by decide +kernel
  have traced : (interpretTo 5 looping { ({} : Machine).start none with observer := .trace [] }).doneWith (fun m =>
      match m.observer with
      | .trace trace => trace.map (fun a => (a.line, a.statement)) == [(2, 1), (2, 1), (1, 3)]
      | _ => false) = true := by decide +kernel
  obtain ⟨v, m, done, written⟩ := Outcome.of_doneWith run
  obtain ⟨v', m', alone, checked⟩ := Outcome.of_doneWith traced
  cases observer : m'.observer with
  | trace trace =>
    rw [observer] at checked
    exact ⟨v, m, v', m', trace, done, beq_iff_eq.mp written, alone, observer, beq_iff_eq.mp checked⟩
  | nobody => rw [observer] at checked; cases checked
  | console c => rw [observer] at checked; cases checked

end Machine

end Trellis
