import Trellis.Proofs.Token.Origin

/-!
# Which blank lines are tokens

A *blank line* of a script holds blanks only, ends in a line feed and is outside of comments. Blank lines that follow
each other are a run. The marks of blank lines among the tokens stand for the runs that have a token in front of them
and are outside of brackets, one for each such run and in their order (`blankLines_marked`). A mark has the place of the
first line of its run.

While a script is scanned, three things tell whether the end of a line becomes a mark: whether the line holds anything,
which brackets are open, and what the last token is. They say the same as the lines that were read (`Scan.Marks`), and
what a lexeme does to a scan keeps it so.
-/

namespace Trellis

open Text (lastLine allBlank)

namespace Token

def isAmong (symbols : List Symbol) (t : Token) : Bool :=
  symbols.any (t.terminal == .symbol ·)

def opened (ts : List Token) : Nat :=
  ts.countP (isAmong [.leftParen, .leftBrace, .leftBracket])

def closed (ts : List Token) : Nat :=
  ts.countP (isAmong [.rightParen, .rightBrace, .rightBracket])

def lastRow (t : Token) : Nat :=
  t.span.line + t.lexeme.toList.count '\n'

/-- **Is a line of a script blank**, and outside of comments? Lines are counted from zero, and places from one. -/
def blankRow (source : List Char) (ts : List Token) (i : Nat) : Bool :=
  (source.splitOn '\n')[i]?.any allBlank &&
    ts.all fun t => !(t.terminal == .comment && t.span.line ≤ i + 1 && i + 1 ≤ t.lastRow)

/-- **Does a run of blank lines start with a line**, behind some token and outside of brackets? -/
def startsRun (source : List Char) (ts : List Token) (i : Nat) : Bool :=
  blankRow source ts i && !(0 < i && blankRow source ts (i - 1)) &&
    ts.any (fun t => !t.isBlankLine && t.span.line ≤ i) &&
    opened (ts.filter (·.span.line ≤ i)) == closed (ts.filter (·.span.line ≤ i))

def runSpans (source : List Char) (ts : List Token) (gone : Nat) : List Span :=
  ((List.range gone).filter (startsRun source ts)).map (⟨· + 1, 1, 0⟩)

variable {source : List Char} {t : Token} {ts ts' : List Token} {i gone : Nat}

theorem blankRow_cons (h : i + 1 < t.span.line ∨ t.terminal ≠ .comment) :
    blankRow source (t :: ts) i = blankRow source ts i := by
  have outside : (t.terminal == .comment && t.span.line ≤ i + 1 && i + 1 ≤ t.lastRow) = false := by
    obtain later | other := h
    · simp [Nat.not_le_of_lt later]
    · simp [other]
  rw [blankRow, blankRow, List.all_cons, outside]
  rfl

theorem startsRun_cons (later : i < t.span.line) (h : i + 1 < t.span.line ∨ t.terminal ≠ .comment) :
    startsRun source (t :: ts) i = startsRun source ts i := by
  have before : blankRow source (t :: ts) (i - 1) = blankRow source ts (i - 1) :=
    blankRow_cons (h.imp_left fun h => by omega)
  have behind : (t.span.line ≤ i : Bool) = false := decide_eq_false (Nat.not_le_of_lt later)
  simp only [startsRun, blankRow_cons h, before, List.any_cons, List.filter_cons, behind, Bool.and_false,
    Bool.false_or, Bool.false_eq_true, if_false]

theorem startsRun_reverse : startsRun source ts.reverse i = startsRun source ts i := by
  simp only [startsRun, blankRow, opened, closed, List.all_reverse, List.any_reverse, List.filter_reverse,
    List.countP_reverse]

theorem runSpans_congr (same : ∀ i < gone, startsRun source ts' i = startsRun source ts i) :
    runSpans source ts' gone = runSpans source ts gone := by
  rw [runSpans, List.filter_congr fun i hi => same i (List.mem_range.mp hi), runSpans]

theorem runSpans_add {more : Nat} (none : ∀ i, gone ≤ i → i < gone + more → startsRun source ts i = false) :
    runSpans source ts (gone + more) = runSpans source ts gone := by
  have rest : ((List.range more).map (gone + ·)).filter (startsRun source ts) = [] := by
    refine List.filter_eq_nil_iff.mpr fun i hi => ?_
    obtain ⟨j, hj, rfl⟩ := List.mem_map.mp hi
    rw [none _ (Nat.le_add_right ..) (Nat.add_lt_add_left (List.mem_range.mp hj) _)]
    exact Bool.false_ne_true
  rw [runSpans, List.range_add, List.filter_append, rest, List.append_nil, runSpans]

theorem runSpans_succ (h : startsRun source ts gone = true) :
    runSpans source ts (gone + 1) = runSpans source ts gone ++ [⟨gone + 1, 1, 0⟩] := by
  rw [runSpans, List.range_succ, List.filter_append, List.map_append, List.filter_cons_of_pos h]
  rfl

end Token

/-! ## Scans -/

namespace Lexeme

variable {keywords : KeywordTable} {c : Char} {rest : List Char} {kind : TokenKind}

theorem exists_of_feed (hkind : (read c rest).tokenKind? keywords = some kind) (feed : '\n' ∈ (read c rest).text) :
    kind = .comment ∧ ∃ body, (read c rest).text = body ++ ['#'] := by
  have comment : kind = .comment :=
    Classical.not_not.mp fun other => (tight_of_tokenKind? (neat_read c rest) hkind other).noFeed feed
  subst comment
  refine ⟨rfl, ?_⟩
  have reads := reads_read c rest
  generalize read c rest = x at reads hkind feed ⊢
  cases reads with
  | @marked body => exact ⟨'#' :: '*' :: (body ++ ['*']), by simp⟩
  | line noFeed => simp [noFeed] at feed
  | word =>
    rw [tokenKind?] at hkind
    dsimp only at hkind
    split at hkind <;> cases hkind
  | _ => cases hkind

theorem allBlank_lastLine (hkind : (read c rest).tokenKind? keywords = some kind) (done : List Char) :
    allBlank (lastLine (done ++ (read c rest).text)) = false := by
  by_cases feed : '\n' ∈ (read c rest).text
  · obtain ⟨-, body, text⟩ := exists_of_feed hkind feed
    rw [text, ← List.append_assoc, Text.lastLine_append_of_notMem (by decide), allBlank, List.all_append]
    exact Bool.and_false _
  · have reads := reads_read c rest
    rw [Text.lastLine_append_of_notMem feed, reads.text_eq, allBlank, List.all_append, List.all_cons,
      reads.isBlank_of_tokenKind? hkind]
    exact Bool.and_false _

end Lexeme

namespace Scan

open Token (opened closed blankRow startsRun runSpans)

/-- **The marks of a scan in progress**, when some lines are over. What is known of the line that was begun tells what
its end will do. -/
structure Marks (s : Scan) (source : List Char) (gone : Nat) : Prop where
  marks : (s.tokens.reverse.filter Token.isBlankLine).map (·.span) = runSpans source s.tokens gone
  balance : opened s.tokens = closed s.tokens + s.owed.length
  inner : ∀ later t earlier, s.tokens = later ++ t :: earlier → t.isBlankLine = true → opened earlier = closed earlier
  settled : s.content = true → s.behindBlank = false
  /-- The last token is a mark if the line in front is blank. -/
  lone : s.content = false → s.tokens ≠ [] → s.owed = [] →
    s.behindBlank = (0 < gone && blankRow source s.tokens (gone - 1))
  /-- The tokens are not behind the line, and in front of it if it holds nothing. -/
  front : ∀ t ∈ s.tokens, t.lastRow ≤ gone + s.content.toNat

theorem Settles.balance {s : Scan} {x : Lexeme} {kind : TokenKind} {owed : List Symbol}
    {faults : List LocatedScanFault} (h : s.Settles x kind owed faults) (none : faults = [])
    (balance : opened s.tokens = closed s.tokens + s.owed.length) (text : String) (span : Span) :
    opened (⟨kind, text, span⟩ :: s.tokens) = closed (⟨kind, text, span⟩ :: s.tokens) + owed.length := by
  unfold opened closed at balance ⊢
  rw [List.countP_cons, List.countP_cons]
  cases h with
  | @opens symbol closer h =>
    rw [balance]
    cases symbol <;> cases h <;> rfl
  | @closes symbol owed h owes =>
    rw [balance, owes, List.length_cons]
    cases symbol <;> cases h <;> exact (Nat.add_right_comm _ 1 _).symm
  | unmatched => cases none
  | keeps h =>
    rw [balance]
    cases kind with
    | symbol symbol =>
      obtain ⟨opener, closer⟩ := h symbol rfl
      cases symbol <;> first | cases opener; done | cases closer; done | rfl
    | _ => rfl

variable {keywords : KeywordTable} {source done left : List Char} {s : Scan} {gone : Nat}

theorem getElem?_row (h : source = done ++ '\n' :: left) :
    (source.splitOn '\n')[done.count '\n']? = some (lastLine done) := by
  rw [h, Text.getElem?_splitOn]
  simp

theorem Marks.token (h : s.Marks source gone) {c : Char} {rest : List Char} {kind : TokenKind}
    {owed : List Symbol} (hkind : (Lexeme.read c rest).tokenKind? keywords = some kind)
    (settles : s.Settles (Lexeme.read c rest) kind owed []) (line : s.position.line = gone + 1) (after : Position) :
    Marks ⟨after, true, owed, ⟨kind, String.ofList (Lexeme.read c rest).text,
      s.position.span (Lexeme.read c rest).text.length⟩ :: s.tokens, []⟩ source
      (gone + (Lexeme.read c rest).text.count '\n') := by
  have comment := Lexeme.exists_of_feed hkind
  have noMark (span : Span) := (Lexeme.isMark_of_tokenKind? hkind (String.ofList (Lexeme.read c rest).text) span).1
  generalize Lexeme.read c rest = x at *
  have lastRow : Token.lastRow ⟨kind, String.ofList x.text, s.position.span x.text.length⟩ =
      gone + 1 + x.text.count '\n' := by
    rw [Token.lastRow, String.toList_ofList, ← line]
    rfl
  refine ⟨?_, settles.balance rfl h.balance _ _, ?_, fun _ => noMark _, nofun, ?_⟩
  · rw [List.reverse_cons, List.filter_append, List.filter_cons_of_neg (by rw [noMark]; exact Bool.false_ne_true),
      List.filter_nil, List.append_nil, h.marks]
    refine ((Token.runSpans_add fun i hi hi' => ?_).trans (Token.runSpans_congr fun i hi => ?_)).symm
    · -- only a comment has lines of its own
      obtain ⟨rfl, -⟩ := comment (List.count_pos_iff.mp (by omega))
      have covered : blankRow source (⟨.comment, String.ofList x.text, s.position.span x.text.length⟩ :: s.tokens) i
          = false := by
        have : (s.position.span x.text.length).line = gone + 1 := line
        rw [blankRow, List.all_cons, lastRow, this, decide_eq_true (show gone + 1 ≤ i + 1 by omega),
          decide_eq_true (show i + 1 ≤ gone + 1 + x.text.count '\n' by omega)]
        exact Bool.and_false _
      rw [startsRun, covered]
      rfl
    · have later : i + 1 < s.position.line := by omega
      exact Token.startsRun_cons (Nat.lt_of_succ_lt later) (.inl later)
  · rintro (_ | ⟨t, later⟩) mark earlier htokens isMark
    · cases htokens
      rw [noMark] at isMark
      cases isMark
    · exact h.inner later mark earlier (List.cons.inj htokens).2 isMark
  · refine List.forall_mem_cons.mpr ⟨by rw [lastRow]; exact Nat.le_of_eq (Nat.add_right_comm ..), fun t ht => ?_⟩
    have := h.front t ht
    have := s.content.toNat_le
    show t.lastRow ≤ _ + 1
    omega

theorem Marks.startsRun_eq (h : s.Marks source gone) (hcontent : s.content = false)
    (blank : blankRow source s.tokens gone = true) : startsRun source s.tokens gone = s.marksBlankLine := by
  have rows (t : Token) (ht : t ∈ s.tokens) : t.span.line ≤ gone := by
    have := h.front t ht
    rw [hcontent] at this
    exact Nat.le_trans (Nat.le_add_right ..) this
  have all : s.tokens.filter (·.span.line ≤ gone) = s.tokens :=
    List.filter_eq_self.mpr fun t ht => decide_eq_true (rows t ht)
  rw [Bool.eq_iff_iff, marksBlankLine_iff, startsRun, blank, all]
  simp only [Bool.true_and, Bool.and_eq_true, beq_iff_eq, List.any_eq_true, Bool.not_eq_true', h.balance,
    Nat.add_eq_left, List.length_eq_zero_iff]
  constructor
  · rintro ⟨⟨first, t, ht, -⟩, closed⟩
    exact ⟨hcontent, closed, (h.lone hcontent (List.ne_nil_of_mem ht) closed).trans first⟩
  · rintro ⟨-, closed, behind⟩
    obtain ⟨t, ht, noMark⟩ : ∃ t ∈ s.tokens, t.isBlankLine = false := by
      unfold behindBlank at behind
      cases htokens : s.tokens with
      | nil => rw [htokens] at behind; cases behind
      | cons t others => rw [htokens] at behind; exact ⟨t, .head _, behind⟩
    refine ⟨⟨?_, t, ht, noMark, decide_eq_true (rows t ht)⟩, closed⟩
    exact (h.lone hcontent (List.ne_nil_of_mem ht) closed).symm.trans behind

theorem Marks.line (h : s.Marks source gone) (noRun : startsRun source s.tokens gone = false)
    (lone : s.tokens ≠ [] → s.owed = [] → s.behindBlank = blankRow source s.tokens gone) (after : Position) :
    Marks ⟨after, false, s.owed, s.tokens, s.faults⟩ source (gone + 1) := by
  refine ⟨?_, h.balance, h.inner, nofun, fun _ => lone, fun t ht => ?_⟩
  · rw [h.marks]
    refine (Token.runSpans_add fun i hi hi' => ?_).symm
    rwa [Nat.le_antisymm (Nat.le_of_lt_succ hi') hi]
  · exact Nat.le_trans (h.front t ht) (Nat.add_le_add_left s.content.toNat_le _)

theorem Marks.mark (h : s.Marks source gone) (marks : s.marksBlankLine = true)
    (blank : blankRow source s.tokens gone = true) (line : s.position.line = gone + 1) (after : Position) :
    Marks ⟨after, false, s.owed, ⟨.blankLine, "", ⟨s.position.line, 1, 0⟩⟩ :: s.tokens, s.faults⟩ source
      (gone + 1) := by
  obtain ⟨hcontent, closed, -⟩ := marksBlankLine_iff.mp marks
  have starts := h.startsRun_eq hcontent blank
  rw [marks] at starts
  rw [line]
  refine ⟨?_, h.balance, ?_, nofun, fun _ _ _ => ?_, List.forall_mem_cons.mpr ⟨Nat.le_refl _, fun t ht => ?_⟩⟩
  · have same (i : Nat) (hi : i ≤ gone) :
        startsRun source (⟨.blankLine, "", ⟨gone + 1, 1, 0⟩⟩ :: s.tokens) i = startsRun source s.tokens i :=
      Token.startsRun_cons (Nat.lt_succ_of_le hi) (.inr nofun)
    rw [List.reverse_cons, List.filter_append, List.map_append, h.marks,
      Token.runSpans_succ ((same gone (Nat.le_refl _)).trans starts),
      Token.runSpans_congr fun i hi => same i (Nat.le_of_lt hi)]
    rfl
  · rintro (_ | ⟨t, later⟩) mark earlier htokens isMark
    · cases htokens
      rw [h.balance, closed]
      rfl
    · exact h.inner later mark earlier (List.cons.inj htokens).2 isMark
  · exact ((Token.blankRow_cons (.inr (by rintro ⟨⟩))).trans blank).symm
  · exact Nat.le_trans (h.front t ht) (Nat.add_le_add_left s.content.toNat_le _)

theorem Reaches.content_eq (h : Reaches keywords source s done left) (none : s.faults = []) :
    s.content = !allBlank (lastLine done) := by
  induction h with
  | start => rfl
  | @step s done c rest h ih =>
    have steps := steps_step keywords s c rest
    have content := ih (List.suffix_nil.mp (none ▸ steps.suffix.2))
    generalize s.step keywords c (Lexeme.read c rest) = s' at steps none ⊢
    have feed : lastLine (done ++ ['\n']) = [] := Text.lastLine_append_of_mem (List.mem_singleton.mpr rfl)
    cases steps with
    | token hkind =>
      rw [Lexeme.allBlank_lastLine hkind]
      rfl
    | mark _ text =>
      rw [text, feed]
      rfl
    | line _ text =>
      rw [text, feed]
      rfl
    | blank _ text hblank noFeed =>
      rw [text, Text.lastLine_append_of_notMem (by simpa using Ne.symm noFeed), allBlank, List.all_append,
        List.all_cons, hblank, List.all_nil, Bool.and_true, Bool.and_true]
      exact content
    | fault => cases none

theorem Reaches.marks (h : Reaches keywords source s done left) (none : s.faults = []) :
    s.Marks source (done.count '\n') := by
  induction h with
  | start => exact ⟨rfl, rfl, by rintro (_ | _) _ _ ⟨⟩, nofun, nofun, nofun⟩
  | @step s done c rest h ih =>
    have steps := steps_step keywords s c rest
    have noFaults := List.suffix_nil.mp (none ▸ steps.suffix.2)
    have ih := ih noFaults
    have content := h.content_eq noFaults
    have line : s.position.line = done.count '\n' + 1 := by rw [h.position_eq, Position.after_eq, Nat.add_comm]
    have whole := Lexeme.text_append_rest c rest
    generalize s.step keywords c (Lexeme.read c rest) = s' at steps none ⊢
    -- the line that ends is the one that was begun
    have row (text : (Lexeme.read c rest).text = ['\n']) :
        blankRow source s.tokens (done.count '\n') = !s.content := by
      rw [text] at whole
      rw [blankRow, getElem?_row (h.source_eq.trans (by rw [← whole]; rfl)), Option.any_some]
      cases hcontent : s.content with
      | true =>
        rw [hcontent, eq_comm, Bool.not_eq_true'] at content
        rw [content]
        rfl
      | false =>
        rw [hcontent, eq_comm, Bool.not_eq_false'] at content
        rw [content, Bool.true_and]
        refine List.all_eq_true.mpr fun t ht => ?_
        have front := ih.front t ht
        rw [hcontent] at front
        have front : t.lastRow < done.count '\n' + 1 := Nat.lt_succ_of_le front
        rw [decide_eq_false (Nat.not_le_of_lt front), Bool.and_false]
        rfl
    rw [List.count_append]
    cases steps with
    | token hkind settles =>
      cases none
      exact ih.token hkind settles line _
    | mark _ text marks =>
      rw [text]
      exact ih.mark marks (by rw [row text, (marksBlankLine_iff.mp marks).1]; rfl) line _
    | line _ text marks =>
      rw [text]
      have row := row text
      cases hcontent : s.content with
      | true =>
        rw [hcontent] at row
        refine ih.line (by rw [startsRun, row]; rfl) (fun _ _ => ?_) _
        rw [row, ih.settled hcontent]
        rfl
      | false =>
        rw [hcontent] at row
        refine ih.line ((ih.startsRun_eq hcontent row).trans marks) (fun _ closed => ?_) _
        rw [row]
        refine Bool.of_not_eq_false fun behind => ?_
        rw [marksBlankLine_iff.mpr ⟨hcontent, closed, behind⟩] at marks
        cases marks
    | blank _ text hblank noFeed =>
      rw [text, List.count_singleton, if_neg (by simpa using noFeed)]
      exact ⟨ih.marks, ih.balance, ih.inner, ih.settled, ih.lone, ih.front⟩
    | fault => cases none

end Scan

/-- **The marks of blank lines stand for the runs of blank lines** that are behind some token and outside of brackets,
one for each run, in their order and at the start of the run. No script starts with such a mark, no two of them follow
each other, and none is inside of brackets. -/
theorem blankLines_marked (keywords : KeywordTable) (source : String) (none : (scan keywords source).faults = []) :
    ((scan keywords source).tokens.filter Token.isBlankLine).map (·.span) =
        Token.runSpans source.toList (scan keywords source).tokens (source.toList.count '\n') ∧
      Token.apart true (scan keywords source).tokens = true ∧
      ∀ before t behind, (scan keywords source).tokens = before ++ t :: behind → t.isBlankLine = true →
        Token.opened before = Token.closed before := by
  have none : (Scan.run keywords {} source.toList).faults = [] := List.reverse_eq_nil_iff.mp none
  have reaches := Scan.reaches_run keywords source.toList
  have h := reaches.marks none
  have line : (Scan.run keywords {} source.toList).position.line = source.toList.count '\n' + 1 := by
    rw [reaches.position_eq, Position.after_eq, Nat.add_comm]
  have mark : (Token.mk .endOfFile "" ((Scan.run keywords {} source.toList).position.span 0)).isBlankLine = false := rfl
  refine ⟨?_, ?_, fun before t behind htokens isMark => ?_⟩
  · rw [scan, Scan.finish, List.reverse_cons, List.filter_append, List.filter_cons_of_neg (by rw [mark]; rintro ⟨⟩),
      List.filter_nil, List.append_nil, h.marks, ← List.reverse_cons]
    refine (Token.runSpans_congr fun i hi => ?_).symm
    have later : i + 1 < (Scan.run keywords {} source.toList).position.line := by omega
    rw [Token.startsRun_reverse, Token.startsRun_cons (Nat.lt_of_succ_lt later) (.inl later)]
  · rw [← Token.apart_map_bare]
    exact apart_scan keywords source
  · have tokens := congrArg List.reverse htokens
    rw [scan, Scan.finish, List.reverse_reverse, List.reverse_append, List.reverse_cons, List.append_assoc] at tokens
    cases hbehind : behind.reverse with
    | nil =>
      rw [hbehind] at tokens
      rw [← (List.cons.inj tokens).1] at isMark
      cases isMark
    | cons last later =>
      rw [hbehind] at tokens
      have inner := h.inner later t before.reverse (List.cons.inj tokens).2 isMark
      rwa [Token.opened, Token.closed, List.countP_reverse, List.countP_reverse] at inner

/-- Two runs are marked, and the blank line in brackets is not. -/
theorem blankLines_marked_twice :
    ((scan .default "a\n\n \nb(\n\n)\n\n").tokens.filter Token.isBlankLine).map (·.span) = [⟨2, 1, 0⟩, ⟨7, 1, 0⟩] := by
  rw [(blankLines_marked .default "a\n\n \nb(\n\n)\n\n" (List.isEmpty_iff.mp (by decide +kernel))).1]
  decide +kernel

end Trellis
