import Trellis.Proofs.Token.Places

/-!
# Spaces in front of tokens

Where a token starts there may be any number of spaces and tabs, and the tokens of the script stay the same, apart
from their places (`tokens_spaced`). The lexemes in front of the token are read as before, since each of them ends where
it ended, whether it is followed by a space or by the token (`Lexeme.Reads.spaced`). So the scan of the spaced script
comes by the same state (`Scan.Reaches.spaced`). And from then on the two scans differ in the positions only, on which
no token depends (`Scan.bare_step`).
-/

namespace Trellis

/-- **Spaces and tabs are put in** somewhere in front of a character that is no line feed, or a line feed with anything
behind it is put at the end. -/
inductive Text.Spaced : List Char → List Char → Prop where
  | ended {more} : Spaced [] ('\n' :: more)
  | here {spaces rest c} (blank : ∀ d ∈ spaces, d = ' ' ∨ d = '\t') (noFeed : c ≠ '\n') :
      Spaced (c :: rest) (spaces ++ c :: rest)
  | behind {left left'} (c : Char) (h : Spaced left left') : Spaced (c :: left) (c :: left')

namespace Text.Spaced

variable {left left' : List Char}

theorem append (h : Spaced left left') (cs : List Char) : Spaced (cs ++ left) (cs ++ left') := by
  induction cs with
  | nil => exact h
  | cons c cs ih => exact .behind c ih

theorem head_all (h : Spaced left left') {p : Char → Bool} (space : p ' ' = true) (tab : p '\t' = true)
    (feed : p '\n' = true) (ends : left.head?.all p = true) : left'.head?.all p = true := by
  cases h with
  | ended => exact feed
  | @here spaces _ _ blank =>
    cases spaces with
    | nil => exact ends
    | cons d spaces => obtain rfl | rfl := blank d (.head _) <;> assumption
  | behind => exact ends

theorem lineEnds (h : Spaced left left') (ends : Lexeme.lineEnds left = true) : Lexeme.lineEnds left' = true := by
  cases h with
  | ended => rfl
  | here _ noFeed => exact absurd (by simpa [Lexeme.lineEnds] using ends) noFeed
  | behind => exact ends

theorem numberEnds (h : Spaced left left') {fraction : List Char} (ends : Lexeme.NumberEnds fraction left) :
    Lexeme.NumberEnds fraction left' := by
  refine ⟨h.head_all rfl rfl rfl ends.1, fun none d rest heq => ?_⟩
  cases h with
  | ended => cases heq
  | @here spaces _ _ blank =>
    cases spaces with
    | nil => exact ends.2 none d rest heq
    | cons c spaces =>
      obtain ⟨rfl, -⟩ := List.cons.inj heq
      cases blank '.' (.head _) <;> contradiction
  | @behind left left' c h =>
    obtain ⟨rfl, rfl⟩ := List.cons.inj heq
    have noDigit : left.head?.all (fun c => !c.isDigit) = true := by
      cases left with
      | nil => rfl
      | cons e more => simp [ends.2 none e more rfl]
    simpa using h.head_all rfl rfl rfl noDigit

end Text.Spaced

theorem Lexeme.Reads.spaced {c : Char} {rest left' : List Char} {x : Lexeme} (h : Reads c rest x)
    (closed : x.kind ≠ .fault .unterminatedComment) (spaced : Text.Spaced x.rest left') :
    read c (x.text.tail ++ left') = { x with rest := left' } := by
  have of {cs : List Char} (heq : x.text.tail ++ left' = cs) (h : Reads c cs { x with rest := left' }) :
      read c (x.text.tail ++ left') = { x with rest := left' } := heq ▸ h.read_eq
  cases h with
  | single h => exact of rfl (.single h)
  | long h => exact of rfl (.long h)
  | @short _ second _ _ _ h ends =>
    have other : second ≠ ' ' ∧ second ≠ '\t' ∧ second ≠ '\n' := by
      unfold Symbol.pair? at h
      split at h <;> cases h <;> decide
    have apart : left'.head?.all (· != second) = true := by
      refine spaced.head_all (by simp [other.1.symm]) (by simp [other.2.1.symm]) (by simp [other.2.2.symm]) ?_
      cases rest <;> simp_all
    refine of rfl (.short h fun heq => ?_)
    have heq : left'.head? = some second := heq
    simp [heq] at apart
  | marked h => exact of (by simp) (.marked h)
  | line noFeed noMark ends => exact of rfl (.line noFeed noMark (spaced.lineEnds ends))
  | newline => exact of rfl .newline
  | blank h noFeed => exact of rfl (.blank h noFeed)
  | text hquote noQuote noFeed => exact of (by simp) (.text hquote noQuote noFeed)
  | number hc hwhole hfraction ends noWord =>
    exact of (List.append_assoc ..) (.number hc hwhole hfraction (spaced.numberEnds ends)
      (spaced.head_all (by decide) (by decide) (by decide) noWord))
  | word h htail ends => exact of rfl (.word h htail (spaced.head_all (by decide) (by decide) (by decide) ends))
  | openComment => exact absurd rfl closed
  | openText hquote noQuote noFeed ends => exact of rfl (.openText hquote noQuote noFeed (spaced.lineEnds ends))
  | badSuffix hc hwhole hfraction hword htail ends =>
    exact of (by simp) (.badSuffix hc hwhole hfraction hword htail
      (spaced.head_all (by decide) (by decide) (by decide) ends))
  | stray h => exact of rfl (.stray h)

namespace Scan

variable {keywords : KeywordTable} {source done left left' : List Char} {s s' : Scan}

def IsClosed (s : Scan) : Prop :=
  ∀ f ∈ s.faults, f.fault ≠ .unterminatedComment

theorem Reaches.spaced (h : Reaches keywords source s done left) (closed : s.IsClosed)
    (spaced : Text.Spaced left left') : Reaches keywords (done ++ left') s done left' := by
  induction h generalizing left' with
  | start => exact .start
  | @step s done c rest h ih =>
    have reads := Lexeme.reads_read c rest
    have steps := steps_step keywords s c rest
    have proper (hkind : (Lexeme.read c rest).kind = .fault .unterminatedComment) : False := by
      obtain ⟨-, span, faults⟩ := steps.exists_fault hkind
      exact closed ⟨_, span⟩ (faults ▸ .head _) rfl
    have before := spaced.append (Lexeme.read c rest).text
    rw [Lexeme.text_append_rest] at before
    have reaches := ih (fun f hf => closed f (steps.suffix.2.subset hf)) before
    have read := reads.spaced proper spaced
    have text := reads.text_eq
    generalize Lexeme.read c rest = x at *
    rw [text, List.cons_append] at reaches
    have step := reaches.step
    rw [read, ← List.cons_append, ← text, ← List.append_assoc] at step
    exact step

structure Alike (s s' : Scan) : Prop where
  content : s.content = s'.content
  owed : s.owed = s'.owed
  tokens : s.tokens.map Token.bare = s'.tokens.map Token.bare
  faults : s.faults.map LocatedScanFault.fault = s'.faults.map LocatedScanFault.fault

theorem Alike.addToken (h : s.Alike s') (kind : TokenKind) (text : List Char) (span span' : Span) :
    (s.addToken kind text span).Alike (s'.addToken kind text span') :=
  ⟨h.content, h.owed, congrArg (_ :: ·) h.tokens, h.faults⟩

theorem Alike.addFault (h : s.Alike s') (fault : ScanFault) (span span' : Span) :
    (s.addFault fault span).Alike (s'.addFault fault span') :=
  ⟨h.content, h.owed, h.tokens, congrArg (fault :: ·) h.faults⟩

theorem Alike.bracket (h : s.Alike s') (symbol : Symbol) (c : Char) (span span' : Span) :
    (s.bracket symbol c span).Alike (s'.bracket symbol c span') := by
  unfold Scan.bracket
  rw [h.owed]
  split
  · exact ⟨h.content, rfl, h.tokens, h.faults⟩
  · split
    · split
      · split
        · exact ⟨h.content, rfl, h.tokens, h.faults⟩
        · exact h.addFault ..
      · exact h.addFault ..
    · exact h

theorem Alike.endLine (h : s.Alike s') : s.endLine.Alike s'.endLine := by
  have behind (u : Scan) : u.behindBlank = ((u.tokens.map Token.bare).head?.map Token.isBlankLine).getD true := by
    unfold behindBlank
    cases u.tokens <;> rfl
  have marks : s.marksBlankLine = s'.marksBlankLine := by
    rw [Bool.eq_iff_iff, marksBlankLine_iff, marksBlankLine_iff, h.content, h.owed, behind, behind, h.tokens]
  unfold Scan.endLine
  rw [marks]
  split
  · exact ⟨rfl, h.owed, congrArg (_ :: ·) h.tokens, h.faults⟩
  · exact ⟨rfl, h.owed, h.tokens, h.faults⟩

theorem Alike.take (h : s.Alike s') (keywords : KeywordTable) (x : Lexeme) :
    (s.take keywords x).Alike (s'.take keywords x) := by
  unfold Scan.take
  cases x.kind with
  | symbol symbol => exact (h.bracket ..).addToken ..
  | comment => exact h.addToken ..
  | newline => exact h.endLine
  | blank => exact h
  | text value => exact h.addToken ..
  | number => exact h.addToken ..
  | word =>
    dsimp only
    split <;> exact h.addToken ..
  | fault fault => exact h.addFault ..

theorem Alike.step (h : s.Alike s') (c : Char) (x : Lexeme) : (s.step keywords c x).Alike (s'.step keywords c x) := by
  have noted : Alike { s with content := s.content || !Text.isBlank c } { s' with content := s'.content || !Text.isBlank c } :=
    ⟨congrArg (· || _) h.content, h.owed, h.tokens, h.faults⟩
  obtain ⟨content, owed, tokens, faults⟩ := noted.take keywords x
  exact ⟨content, owed, tokens, faults⟩

theorem Alike.run (h : s.Alike s') (cs : List Char) : (s.run keywords cs).Alike (s'.run keywords cs) := by
  fun_induction Scan.run keywords s cs generalizing s' with
  | case1 s =>
    rw [Scan.run]
    exact h
  | case2 s c rest lexeme =>
    rename_i ih
    rw [Scan.run]
    exact ih (h.step c lexeme)

theorem Alike.finish (h : s.Alike s') (none : s'.faults = []) :
    s.finish.faults = [] ∧ s.finish.tokens.map Token.bare = s'.finish.tokens.map Token.bare := by
  have faults := h.faults
  rw [none, List.map_nil, List.map_eq_nil_iff] at faults
  refine ⟨List.reverse_eq_nil_iff.mpr faults, ?_⟩
  rw [Scan.finish, Scan.finish, List.map_reverse, List.map_reverse, List.map_cons, List.map_cons, h.tokens]
  rfl

theorem Alike.run_spaces (h : s.Alike s') {spaces : List Char} (blank : ∀ d ∈ spaces, d = ' ' ∨ d = '\t')
    (left : List Char) : (s.run keywords (spaces ++ left)).Alike (s'.run keywords left) := by
  induction spaces generalizing s with
  | nil => exact h.run left
  | cons d spaces ih =>
    obtain ⟨hd, blank⟩ := List.forall_mem_cons.mp blank
    have passed : Alike (s.step keywords d (Lexeme.read d (spaces ++ left))) s' ∧
        (Lexeme.read d (spaces ++ left)).rest = spaces ++ left := by
      have content : (s.content || false) = s'.content := (Bool.or_false _).trans h.content
      obtain rfl | rfl := hd <;> exact ⟨⟨content, h.owed, h.tokens, h.faults⟩, rfl⟩
    rw [List.cons_append, Scan.run, passed.2]
    exact ih passed.1 blank

end Scan

/-- **Spaces and tabs in front of a token change no token**, apart from the places. -/
theorem tokens_spaced (keywords : KeywordTable) (source : String) (none : (scan keywords source).faults = []) :
    ∃ placed, Token.LaidOut source.toList (scan keywords source).tokens placed ∧
      ∀ x ∈ placed, ∀ spaces : List Char, (∀ d ∈ spaces, d = ' ' ∨ d = '\t') →
        let spaced := scan keywords (String.ofList (source.toList.take x.2 ++ (spaces ++ source.toList.drop x.2)))
        spaced.faults = [] ∧ spaced.tokens.map Token.bare = (scan keywords source).tokens.map Token.bare := by
  have none : (Scan.run keywords {} source.toList).faults = [] := List.reverse_eq_nil_iff.mp none
  obtain ⟨placed, places⟩ := (Scan.reaches_run keywords source.toList).places
  refine ⟨placed, places.scan, fun x hx spaces blank => ?_⟩
  obtain ⟨s, before, c, rest, reaches, size, hkind⟩ := places.begins x hx
  have noFeed : c ≠ '\n' := by
    rintro rfl
    cases hkind
  have closed : s.IsClosed := by
    have faults := (Scan.suffix_run keywords s (c :: rest)).2
    rw [← reaches.run_eq, none, List.suffix_nil] at faults
    exact fun f hf => nomatch faults ▸ hf
  have spaced := (reaches.spaced closed (.here blank noFeed)).run_eq
  have alike : (s.run keywords (spaces ++ c :: rest)).Alike (s.run keywords (c :: rest)) :=
    Scan.Alike.run_spaces ⟨rfl, rfl, rfl, rfl⟩ blank (c :: rest)
  rw [← spaced, ← reaches.run_eq] at alike
  have text : source.toList.take x.2 ++ (spaces ++ source.toList.drop x.2) = before ++ (spaces ++ c :: rest) := by
    rw [reaches.source_eq, ← size, List.take_left, List.drop_left]
  rw [text, scan, scan, String.toList_ofList]
  exact alike.finish none

/-- A number in front of a range, and a symbol of two characters. -/
theorem tokens_spaced_range : ∃ placed, Token.LaidOut "x=1..n\n".toList (scan .default "x=1..n\n").tokens placed ∧
    ∀ x ∈ placed, ∀ spaces : List Char, (∀ d ∈ spaces, d = ' ' ∨ d = '\t') →
      let spaced := scan .default (String.ofList ("x=1..n\n".toList.take x.2 ++ (spaces ++ "x=1..n\n".toList.drop x.2)))
      spaced.faults = [] ∧ spaced.tokens.map Token.bare = (scan .default "x=1..n\n").tokens.map Token.bare :=
  tokens_spaced .default "x=1..n\n" (List.isEmpty_iff.mp (by decide +kernel))

end Trellis
