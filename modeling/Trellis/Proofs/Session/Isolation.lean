import Trellis.Proofs.Grammar.Matching
import Trellis.Proofs.Run.Schedule
import Trellis.Session

/-!
# The inputs of a session are read in isolation

One parser serves a whole session. Still, what an input is read as does not depend on the inputs before it:
it is what a parser of its own would make of it, except that the identities go on where the last input
stopped.

Three things could get from one input into the next: tokens that are left over, the settings of the parser,
and the place of the token taken last. A reading that is done stops at the mark of the end, which the next
tokens take the place of, and after one that failed the session starts with a new parser. The settings are
those of the machine, which no run changes. And no block starts before a token was taken.
-/

namespace Trellis

/-! ## Marks of the end -/

theorem dropEnd_of_suffix_scan {keywords : KeywordTable} {source : String} {rest : List Token}
    (hsuffix : rest <:+ (scan keywords source).tokens)
    (hfront : ∀ t ∈ rest.head?, t.isEnd = true) : Parser.dropEnd rest = [] := by
  obtain ⟨mark, hmark, htokens⟩ := tokens_scan keywords source
  rw [htokens, List.suffix_concat_iff] at hsuffix
  rcases hsuffix with rfl | ⟨before, rfl, hbefore⟩
  · rfl
  · cases before with
    | nil =>
      have hend : mark.isEnd = true := congrArg Token.isEnd hmark
      simp [Parser.dropEnd, hend]
    | cons t others =>
      have hmem := List.mem_reverse.mp (hbefore.mem (.head others))
      have hend := (Scan.reaches_run keywords source.toList).isEnd t hmem
      rw [hfront t rfl] at hend
      cases hend

theorem Parse.repeatRound_stop {α β γ : Type} {round : α → Parse (Parse.Round α β)}
    {P : Parser → Prop} (hstop : ∀ a p b q, round a p = .done (.stop b) q → P q) (bound : List γ)
    {a : α} {p : Parser} {b : β} {q : Parser} (h : repeatRound round bound a p = .done b q) : P q := by
  induction bound generalizing a p with
  | nil => cases h
  | cons _ bound ih =>
    obtain ⟨ended, mid, hround, hgoes⟩ := Action.done_bind h
    cases ended with
    | again a => exact ih hgoes
    | stop b =>
      cases hgoes
      exact hstop _ _ _ _ hround

theorem Parser.front_of_readProgram {p q : Parser} {program : Program}
    (h : p.readProgram = .done program q) : ∀ t ∈ q.tokens.head?, t.isEnd = true := by
  have hwhole : Parse.program p.rules { p with log := {} } = .done program q := by
    unfold Parser.readProgram at h
    cases hread : Parse.program p.rules { p with log := {} } with
    | done a u =>
      rw [hread] at h
      exact h
    | failed fault u =>
      rw [hread] at h
      cases h
    | exhausted =>
      rw [hread] at h
      cases h
  obtain ⟨id, p₁, _, hbody⟩ := Action.done_bind hwhole
  obtain ⟨reversed, p₂, hrounds, hdone⟩ := Action.done_bind hbody
  cases hdone
  have hfront : q.front.isEnd = true := by
    refine Parse.repeatRound_stop (P := fun q => q.front.isEnd = true) ?_ _ hrounds
    intro read u b v hround
    obtain ⟨front, u₁, hfront, hgoes⟩ := Action.done_bind hround
    cases hfront
    cases hend : u.front.isEnd with
    | true =>
      rw [hend] at hgoes
      cases hgoes
      exact hend
    | false =>
      rw [hend] at hgoes
      obtain ⟨s, u₂, _, hagain⟩ := Action.done_bind hgoes
      cases hagain
  intro t ht
  rw [Parser.front, ht] at hfront
  exact hfront

/-! ## What no run changes -/

theorem Course.chosen {w : Bool} {r : Reach} {whole : Bool} {m m' : Machine}
    (h : Course w r whole m m') : m'.settings = m.settings ∧ m'.keywords = m.keywords := by
  induction h with
  | quiet h => exact ⟨h.settings, h.keywords⟩
  | seq _ _ ih₁ ih₂ => exact ⟨ih₂.1.trans ih₁.1, ih₂.2.trans ih₁.2⟩
  | stop _ ih => exact ih
  | pass _ record ih => exact ⟨record.settings.trans ih.1, record.keywords.trans ih.2⟩
  | widen _ ih => exact ih
  | work _ _ _ ih => exact ih
  | workStopped _ _ ih => exact ih
  | block _ ih => exact ih
  | call _ _ _ ih => exact ih
  | builtin _ _ _ ih => exact ih
  | builtinStopped _ _ _ ih => exact ih
  | load _ _ _ _ _ ih => exact ih
  | loadStopped _ _ _ _ _ ih => exact ih
  | _ => exact ⟨rfl, rfl⟩

theorem Machine.chosen_interpret (p : Program) (m : Machine) :
    (m.interpret p).Ends fun _ m' => m'.settings = m.settings ∧ m'.keywords = m.keywords := by
  have hpass : (pass (.ofDepth depthLimit) p { m with log := {} }).Ends fun _ m' =>
      m'.settings = m.settings ∧ m'.keywords = m.keywords :=
    (follows_pass (Evaluator.follows_ofDepth depthLimit) p { m with log := {} }).imp
      fun _ _ h => h.chosen
  exact ends_interpretTo hpass (fun _ h => h) fun _ h => h

/-! ## Sessions -/

namespace Session

/-- **What an input is read as in a session.** A fault of scanning comes before one of the grammar. -/
def reading (s : Session) (input : String) : Outcome Parser Program :=
  let scanned := scan s.machine.keywords input
  match scanned.fault? with
  | some fault => .failed fault s.parser
  | none => (s.parser.push scanned.tokens).readProgram

/-- What a session runs is what it has read: where scanning finds no fault, the tokens are added to its
parser, and a program is read. -/
theorem reading_eq {s : Session} {input : String}
    (hfault : (scan s.machine.keywords input).fault? = none) :
    s.reading input = (s.parser.push (scan s.machine.keywords input).tokens).readProgram := by
  unfold reading
  simp only [hfault]

/-- **A session that is ready for an input**: nothing is left over from the inputs before, and its machine
and its parser have the settings of the machine that it was started with. -/
structure Ready (m : Machine) (s : Session) : Prop where
  settings : s.machine.settings = m.settings
  keywords : s.machine.keywords = m.keywords
  nothingLeft : Parser.dropEnd s.parser.tokens = []
  spelling : s.parser.keywords = m.keywords
  matching : s.parser.matching = m.settings.matching

variable {m : Machine} {s : Session}

theorem ready_freshParser (hs : s.machine.settings = m.settings)
    (hk : s.machine.keywords = m.keywords) :
    Ready m { s with parser := freshParser s.machine } :=
  ⟨hs, hk, rfl, hk, congrArg Settings.matching hs⟩

theorem Ready.report (h : s.Ready m) (input : String) (fault : Fault) : (s.report input fault).Ready m :=
  ⟨h.settings, h.keywords, h.nothingLeft, h.spelling, h.matching⟩

theorem Ready.echo (h : s.Ready m) (v : Value) : (s.echo v).Ready m := by
  unfold Session.echo
  split
  · exact h
  · exact ⟨h.settings, h.keywords, h.nothingLeft, h.spelling, h.matching⟩

theorem ready_start (m : Machine) : Ready m (start m) := by
  have hchosen : (m.start none).settings = m.settings ∧ (m.start none).keywords = m.keywords := by
    unfold Machine.start Machine.addPrelude
    simp only
    split <;> exact ⟨rfl, rfl⟩
  exact ready_freshParser (s := start m) hchosen.1 hchosen.2

theorem Ready.done (h : s.Ready m) {input : String} {program : Program} {q : Parser}
    (hfault : (scan s.machine.keywords input).fault? = none)
    (hread : s.reading input = .done program q) :
    Parser.dropEnd q.tokens = [] ∧ q.keywords = m.keywords ∧ q.matching = m.settings.matching := by
  rw [reading_eq hfault] at hread
  -- the reading is in step with itself, which tells what it leaves of the parser
  have hstep := Parser.inStep_readProgram (c := ⟨0, true⟩) (b := true) _ _
    (Parser.inStep_matchingBy rfl (s.parser.push (scan s.machine.keywords input).tokens)
      s.parser.matching s.parser.matching (Nat.le_refl _) fun _ => rfl)
  have hself : (s.parser.push (scan s.machine.keywords input).tokens).matchingBy s.parser.matching
      = s.parser.push (scan s.machine.keywords input).tokens := rfl
  rw [hself, hread] at hstep
  obtain ⟨_, _, _, hleaves⟩ := hstep
  have hsuffix : q.tokens <:+ (scan s.machine.keywords input).tokens := by
    have := hleaves.tokens
    rwa [Parser.push, h.nothingLeft] at this
  exact ⟨dropEnd_of_suffix_scan hsuffix (Parser.front_of_readProgram hread),
    hleaves.keywords.trans h.spelling, hleaves.matching.trans h.matching⟩

theorem Ready.run (h : s.Ready m) (input : String) : (s.run input).Ready m := by
  unfold Session.run
  simp only
  split
  · exact h.report input _
  · rename_i hfault
    rw [← reading_eq hfault]
    split
    · exact h
    · exact (ready_freshParser h.settings h.keywords).report input _
    · rename_i program parser hread
      obtain ⟨hleft, hspelling, hmatching⟩ := h.done hfault hread
      have hchosen := Machine.chosen_interpret program s.machine
      have hready : ∀ machine : Machine, machine.settings = s.machine.settings ∧
          machine.keywords = s.machine.keywords → Ready m { s with machine, parser } :=
        fun machine hm => ⟨hm.1.trans h.settings, hm.2.trans h.keywords, hleft, hspelling, hmatching⟩
      split
      · exact h
      · rename_i fault machine hrun
        rw [hrun] at hchosen
        exact (hready machine hchosen).report input fault
      · rename_i v machine hrun
        rw [hrun] at hchosen
        exact (hready machine hchosen).echo v

theorem Ready.runAll (h : s.Ready m) (inputs : List String) : (inputs.foldl Session.run s).Ready m := by
  induction inputs generalizing s with
  | nil => exact h
  | cons input others ih => exact ih (h.run input)

/-- A session that is ready and a new parser are in step: the session is ahead by the identities it has
given. -/
theorem Ready.inStep (h : s.Ready m) (tokens : List Token) (hne : tokens ≠ []) :
    Parser.InStep ⟨s.parser.nextId, true⟩ false
      { Parser.ofTokens tokens with keywords := m.keywords, matching := m.settings.matching }
      { s.parser.push tokens with log := {} } where
  tokens := by
    show Parser.dropEnd s.parser.tokens ++ tokens = tokens
    rw [h.nothingLeft, List.nil_append]
  endSpan := by
    show ((tokens.getLast?).map (·.span)).getD _ = ((tokens.getLast?).map (·.span)).getD _
    rw [List.getLast?_eq_some_getLast hne]
    rfl
  keywords := h.spelling
  log := rfl
  nextId := (Nat.zero_add _).symm
  discards := Nat.le_of_eq (congrArg MatchMode.limit h.matching.symm)
  exact := fun _ => congrArg MatchMode.limit h.matching
  lastSpan := by rintro ⟨⟩

theorem readProgram_log (p : Parser) : { p with log := {} }.readProgram = p.readProgram := rfl

/-- **Every input of a session is read in isolation.** Whatever the inputs before it were, and however they
ended, it comes to the fault that it comes to alone, or to the program that it is alone with all identities
moved by the same number, and so is the outline of the program. -/
theorem reading_alone (m : Machine) (inputs : List String) (input : String) :
    ∃ moved : Nat,
      ((inputs.foldl run (start m)).reading input).result?
          = (readScript m.keywords m.settings.matching input).result?.map
              (Except.map (Program.renumber (· + moved))) ∧
        ((inputs.foldl run (start m)).reading input).result?.map (Except.map Program.outline)
          = (readScript m.keywords m.settings.matching input).result?.map
              (Except.map fun alone => alone.outline.renumber (· + moved)) := by
  have h := (ready_start m).runAll inputs
  generalize inputs.foldl run (start m) = s at h ⊢
  refine ⟨s.parser.nextId, ?_⟩
  have hresult : (s.reading input).result?
      = (readScript m.keywords m.settings.matching input).result?.map
          (Except.map (Program.renumber (· + s.parser.nextId))) := by
    unfold reading readScript
    simp only [h.keywords]
    cases (scan m.keywords input).fault? with
    | some fault => rfl
    | none =>
      obtain ⟨mark, _, htokens⟩ := tokens_scan m.keywords input
      have hne : (scan m.keywords input).tokens ≠ [] := by
        rw [htokens]
        exact List.concat_ne_nil _ _
      have hread := Parser.inStep_readProgram _ _ (h.inStep _ hne)
      rw [readProgram_log] at hread
      simp only
      generalize Parser.readProgram { Parser.ofTokens (scan m.keywords input).tokens with
        keywords := m.keywords, matching := m.settings.matching } = alone at hread ⊢
      cases alone with
      | done program q =>
        obtain ⟨q', hdone, _⟩ := hread
        rw [hdone]
        rfl
      | failed fault q =>
        obtain ⟨q', hfailed, _⟩ := hread rfl
        rw [hfailed]
        rfl
      | exhausted =>
        rw [hread rfl]
        rfl
  refine ⟨hresult, ?_⟩
  rw [hresult, Option.map_map]
  refine congrArg (Option.map · _) (funext fun result => ?_)
  cases result with
  | error fault => rfl
  | ok program => exact congrArg Except.ok (Program.outline_renumber _ program)

end Session

end Trellis
