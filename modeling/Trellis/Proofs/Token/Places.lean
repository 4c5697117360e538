import Mathlib.Data.List.Induction
import Trellis.Proofs.Token.Sound

/-!
# Where the tokens of a script stand

Every token of a script but two kinds stands for characters: a blank line is a mark for a line that holds
none, and the end is a mark behind them all. The other tokens *occupy* an interval of the script. The
characters there are the lexeme of the token, and its span tells the line and the column at which the
interval starts (`Token.Occupies`).

Scanning lays the tokens out from left to right: each one starts at or behind the place where the one before
it ended (`Token.LaidOut`). And it passes over nothing but blanks, unless it notes a fault
(`Token.LeavesBlanks`). Both are kept by every lexeme, and so they hold of every script (`laidOut_scan`).
-/

namespace Trellis

def Text.lastLine (cs : List Char) : List Char :=
  (cs.reverse.takeWhile (· != '\n')).reverse

/-- **The position behind some characters**: its line counts the line feeds, and its column the characters
since the last one. -/
theorem Position.after_eq (cs : List Char) :
    ({} : Position).after cs = ⟨1 + cs.count '\n', 1 + (Text.lastLine cs).length⟩ := by
  induction cs using List.reverseRecOn with
  | nil => rfl
  | append_singleton cs c ih =>
    rw [after_append, ih, after_cons, after_nil, next]
    by_cases hc : c = '\n'
    · subst hc
      simp [Text.lastLine, Nat.add_assoc]
    · simp [Text.lastLine, hc, Nat.add_assoc]

namespace Token

def isMark (t : Token) : Bool :=
  t.isBlankLine || t.isEnd

/-- **The token occupies an interval of a script**: from the start that is given, as far as its span is
long. -/
structure Occupies (source : List Char) (t : Token) (start : Nat) : Prop where
  nonempty : 0 < t.span.length
  inside : start + t.span.length ≤ source.length
  chars : (source.drop start).take t.span.length = t.lexeme.toList
  /-- One more than there are line feeds in front of the interval. -/
  line : t.span.line = 1 + (source.take start).count '\n'
  /-- One more than there are characters on the same line in front of the interval. -/
  col : t.span.col = 1 + (Text.lastLine (source.take start)).length

/-- Is the character with a number in the interval of a token that starts at some place? -/
def Covers (placed : Token × Nat) (i : Nat) : Prop :=
  placed.2 ≤ i ∧ i < placed.2 + placed.1.span.length

/-- **Tokens laid out over a script**: those that are no marks occupy intervals of it, one behind the
other. -/
structure LaidOut (source : List Char) (ts : List Token) (placed : List (Token × Nat)) : Prop where
  tokens : placed.map Prod.fst = ts.filter fun t => !t.isMark
  occupies : ∀ x ∈ placed, x.1.Occupies source x.2
  apart : placed.Pairwise fun x y => x.2 + x.1.span.length ≤ y.2

def LeavesBlanks (source : List Char) (placed : List (Token × Nat)) : Prop :=
  ∀ (i : Nat) (c : Char), source[i]? = some c → (∀ x ∈ placed, ¬ Covers x i) → Text.isBlank c = true

variable {source text : List Char} {t : Token} {ts : List Token} {placed : List (Token × Nat)}

/-! ## One more lexeme -/

theorem Occupies.append {start : Nat} (h : t.Occupies source start) (text : List Char) :
    t.Occupies (source ++ text) start := by
  have hstart : start ≤ source.length := Nat.le_of_add_right_le h.inside
  have htake : (source ++ text).take start = source.take start := List.take_append_of_le_length hstart
  refine ⟨h.nonempty, ?_, ?_, ?_, ?_⟩
  · rw [List.length_append]
    exact Nat.le_add_right_of_le h.inside
  · rw [List.drop_append_of_le_length hstart, List.take_append_of_le_length, h.chars]
    rw [List.length_drop]
    exact Nat.le_sub_of_add_le' h.inside
  · rw [htake, h.line]
  · rw [htake, h.col]

theorem occupies_append (kind : TokenKind) (hne : text ≠ []) :
    (Token.mk kind (String.ofList text) ((({} : Position).after source).span text.length)).Occupies
      (source ++ text) source.length := by
  refine ⟨List.length_pos_iff.mpr hne, ?_, ?_, ?_, ?_⟩
  · exact Nat.le_of_eq List.length_append.symm
  · rw [List.drop_left, String.toList_ofList]
    exact List.take_length
  · rw [List.take_left, Position.after_eq]
    rfl
  · rw [List.take_left, Position.after_eq]
    rfl

theorem LaidOut.append (h : LaidOut source ts placed) (text : List Char) : LaidOut (source ++ text) ts placed :=
  ⟨h.tokens, fun x hx => (h.occupies x hx).append text, h.apart⟩

theorem LaidOut.append_marks {marks : List Token} (h : LaidOut source ts placed)
    (hmarks : ∀ t ∈ marks, t.isMark = true) : LaidOut source (ts ++ marks) placed := by
  have hnone : marks.filter (fun t => !t.isMark) = [] := by
    refine List.filter_eq_nil_iff.mpr fun t ht => ?_
    simp [hmarks t ht]
  refine ⟨?_, h.occupies, h.apart⟩
  rw [List.filter_append, h.tokens, hnone, List.append_nil]

theorem LaidOut.append_token (h : LaidOut source ts placed) (ht : t.isMark = false)
    (hoccupies : t.Occupies (source ++ text) source.length) :
    LaidOut (source ++ text) (ts ++ [t]) (placed ++ [(t, source.length)]) := by
  refine ⟨?_, ?_, ?_⟩
  · rw [List.map_append, List.filter_append, h.tokens, List.filter_cons_of_pos (by simp [ht])]
    rfl
  · intro x hx
    rcases List.mem_append.mp hx with hx | hx
    · exact (h.occupies x hx).append text
    · rw [List.mem_singleton.mp hx]
      exact hoccupies
  · -- What was placed before ends within the characters that were there.
    refine List.pairwise_append.mpr ⟨h.apart, List.pairwise_singleton _ _, fun x hx y hy => ?_⟩
    rw [List.mem_singleton.mp hy]
    exact (h.occupies x hx).inside

theorem LeavesBlanks.append_token (h : LeavesBlanks source placed) (hlength : t.span.length = text.length) :
    LeavesBlanks (source ++ text) (placed ++ [(t, source.length)]) := by
  intro i c hc houtside
  by_cases hi : i < source.length
  · rw [List.getElem?_append_left hi] at hc
    exact h i c hc fun x hx => houtside x (List.mem_append_left _ hx)
  · obtain ⟨hlt, -⟩ := List.getElem?_eq_some_iff.mp hc
    rw [List.length_append] at hlt
    refine absurd ⟨Nat.le_of_not_lt hi, ?_⟩ (houtside (t, source.length) (by simp))
    rw [hlength]
    exact hlt

theorem LeavesBlanks.append_blanks (h : LeavesBlanks source placed) (htext : Text.allBlank text = true) :
    LeavesBlanks (source ++ text) placed := by
  intro i c hc houtside
  by_cases hi : i < source.length
  · rw [List.getElem?_append_left hi] at hc
    exact h i c hc houtside
  · rw [List.getElem?_append_right (Nat.le_of_not_lt hi)] at hc
    exact List.all_eq_true.mp htext c (List.mem_of_getElem? hc)

end Token

/-! ## Scans -/

namespace Scan

open Token (LaidOut LeavesBlanks)

/-- **A scan in progress**: the tokens that were found are laid out over the characters that were read, each where the
scan came by. -/
structure Places (keywords : KeywordTable) (source : List Char) (s : Scan) (done : List Char)
    (placed : List (Token × Nat)) : Prop where
  laidOut : LaidOut done s.tokens.reverse placed
  blanks : s.faults = [] → LeavesBlanks done placed
  begins : ∀ x ∈ placed, ∃ s' before c rest, Reaches keywords source s' before (c :: rest) ∧ before.length = x.2 ∧
    (Lexeme.read c rest).tokenKind? keywords = some x.1.kind

theorem Reaches.places {keywords : KeywordTable} {source done left : List Char} {s : Scan}
    (h : Reaches keywords source s done left) : ∃ placed, s.Places keywords source done placed := by
  induction h with
  | start => exact ⟨[], ⟨rfl, List.forall_mem_nil _, .nil⟩, fun _ _ _ hc => (nomatch hc), List.forall_mem_nil _⟩
  | @step s done c rest h ih =>
    obtain ⟨placed, laidOut, blanks, begins⟩ := ih
    have steps := steps_step keywords s c rest
    generalize s.step keywords c (Lexeme.read c rest) = s' at steps ⊢
    -- a token occupies the characters that were just read; otherwise they are blank, and only marks are added
    cases steps with
    | @token kind _ _ hkind settles =>
      have noMark (text : String) (span : Span) : (Token.mk kind text span).isMark = false := by
        obtain ⟨noBlank, noEnd⟩ := Lexeme.isMark_of_tokenKind? hkind text span
        rw [Token.isMark, noBlank, noEnd]
        rfl
      rw [h.position_eq]
      have laidOut := laidOut.append_token (noMark _ _) (Token.occupies_append kind (Lexeme.text_ne_nil c rest))
      rw [← List.reverse_cons] at laidOut
      refine ⟨_, laidOut, fun none => (blanks (List.suffix_nil.mp (none ▸ settles.suffix_faults))).append_token rfl, ?_⟩
      exact List.forall_mem_append.mpr ⟨begins, List.forall_mem_singleton.mpr ⟨s, done, c, rest, h, rfl, hkind⟩⟩
    | mark _ text =>
      rw [text]
      refine ⟨placed, ?_, fun none => (blanks none).append_blanks rfl, begins⟩
      rw [List.reverse_cons]
      exact (laidOut.append _).append_marks (List.forall_mem_singleton.mpr rfl)
    | line _ text => exact ⟨placed, laidOut.append _, fun none => (blanks none).append_blanks (text ▸ rfl), begins⟩
    | blank _ text hblank =>
      refine ⟨placed, laidOut.append _, fun none => (blanks none).append_blanks ?_, begins⟩
      simp [text, Text.allBlank, hblank]
    | fault => exact ⟨placed, laidOut.append _, fun none => (nomatch none), begins⟩

theorem Places.scan {keywords : KeywordTable} {source : String} {placed : List (Token × Nat)}
    (h : (run keywords {} source.toList).Places keywords source.toList source.toList placed) :
    LaidOut source.toList (scan keywords source).tokens placed := by
  rw [Trellis.scan, Scan.finish, List.reverse_cons]
  exact h.laidOut.append_marks (List.forall_mem_singleton.mpr rfl)

end Scan

/-- **Every token of a script stands where its span says.** The tokens that are no marks occupy intervals of
the script, one behind the other; the last token is the only one that marks the end; and where scanning
notes no fault, there are blanks only outside the intervals. -/
theorem laidOut_scan (keywords : KeywordTable) (source : String) :
    ∃ placed, Token.LaidOut source.toList (scan keywords source).tokens placed ∧
      (∃ ts mark, (scan keywords source).tokens = ts ++ [mark] ∧ mark.isEnd = true ∧
        ∀ t ∈ ts, t.isEnd = false) ∧
      ((scan keywords source).faults = [] → Token.LeavesBlanks source.toList placed) := by
  have reaches := Scan.reaches_run keywords source.toList
  obtain ⟨placed, places⟩ := reaches.places
  refine ⟨placed, places.scan, ⟨_, _, List.reverse_cons, rfl, ?_⟩, fun none => ?_⟩
  · exact fun t ht => reaches.isEnd t (List.mem_reverse.mp ht)
  · exact places.blanks (List.reverse_eq_nil_iff.mp none)

end Trellis
