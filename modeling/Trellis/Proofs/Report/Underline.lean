import Trellis.Proofs.Token.Origin
import Trellis.Report

/-!
# Reports underline tokens

A report shows a line of the script and, below it, a row of carets. That the carets stand under the characters that
the report is about rests on two notions of a line being the same. Scanning counts line feeds. The report takes the
lines of the script apart, where a carriage return before a line feed is dropped with it, and where the last line
need not be ended. The two agree on every token that is tight (`Token.IsRead.exists_line`).

The number of the line and the blanks below it have the same width, and the padding in front of the carets has the
tabs of the line in the same places (`Report.underlines_located`).
-/

namespace Trellis

namespace Text

theorem mem_of_mem_closeLine {line : List Char} {c : Char} (h : c ∈ closeLine line) : c ∈ line := by
  unfold closeLine at h
  split at h
  · exact List.mem_cons_of_mem _ (List.mem_reverse.mp h)
  · exact List.mem_reverse.mp h

theorem notMem_of_mem_linesFrom {current cs line : List Char} (hcurrent : '\n' ∉ current)
    (h : line ∈ linesFrom current cs) : '\n' ∉ line := by
  induction cs generalizing current with
  | nil =>
    unfold linesFrom at h
    split at h
    · cases h
    · rw [List.mem_singleton.mp h, List.mem_reverse]
      exact hcurrent
  | cons c cs ih =>
    by_cases hc : c = '\n'
    · subst hc
      obtain rfl | h := List.mem_cons.mp h
      · exact fun hmem => hcurrent (mem_of_mem_closeLine hmem)
      · exact ih List.not_mem_nil h
    · rw [linesFrom_cons_of_ne hc] at h
      exact ih (by simp [Ne.symm hc, hcurrent]) h

end Text

theorem Token.IsRead.exists_line {keywords : KeywordTable} {source : String} {t : Token}
    (h : t.IsRead keywords source.toList) (hcomment : t.kind ≠ .comment) :
    ∃ line front behind, (Text.lines source)[t.span.line - 1]? = some line ∧
      line.toList = front ++ (t.lexeme.toList ++ behind) ∧
      0 < t.span.line ∧ t.span.col = front.length + 1 ∧ t.span.length = t.lexeme.length ∧
      0 < t.span.length ∧ '\n' ∉ line.toList := by
  obtain ⟨before, c, rest, hsource, hkind, hlexeme, hspan⟩ := h
  have htight := Lexeme.tight_of_tokenKind? (Lexeme.neat_read c rest) hkind hcomment
  have hne := Lexeme.text_ne_nil c rest
  obtain ⟨behind, hline⟩ :=
    Text.exists_line htight hne [] List.not_mem_nil before (Lexeme.read c rest).rest
  rw [Lexeme.text_append_rest, ← hsource] at hline
  rw [Position.after_eq] at hspan
  refine ⟨String.ofList (Text.lastLine before ++ ((Lexeme.read c rest).text ++ behind)),
    Text.lastLine before, behind, ?_, ?_, ?_, ?_, ?_, ?_, ?_⟩
  · rw [hspan, Text.lines, List.getElem?_map]
    show Option.map _ (Text.linesFrom [] source.toList)[1 + before.count '\n' - 1]? = _
    rw [Nat.add_sub_cancel_left, hline]
    rfl
  · rw [String.toList_ofList, hlexeme]
  · rw [hspan]
    exact Nat.lt_add_right _ Nat.one_pos
  · rw [hspan]
    exact Nat.add_comm _ _
  · rw [hspan, ← String.length_toList, hlexeme]
    rfl
  · rw [hspan]
    exact List.length_pos_iff.mpr hne
  · rw [String.toList_ofList]
    exact Text.notMem_of_mem_linesFrom List.not_mem_nil (List.mem_of_getElem? hline)

namespace Report

/-- **A report shows a line and underlines a stretch of it.** The line is shown behind its number. Below it
there is a row of carets, as long as the stretch, behind blanks as wide as the number and behind a padding as
long as what stands in front of the stretch, with tabs where the line has tabs. -/
def Underlines (report : String) (number : Nat) (line : List Char) (start length : Nat) : Prop :=
  '\n' ∉ line ∧ ∃ above padding below : List Char,
    report.toList = above ++
      ((toString number).toList ++ " | ".toList ++ line ++ '\n' ::
        (List.replicate (toString number).length ' ' ++ " | ".toList ++ padding ++ List.replicate length '^' ++
          '\n' :: below)) ∧
    above.getLast? = some '\n' ∧ padding.length = start ∧
    ∀ i < start, padding[i]? = some (if (line)[i]? = some '\t' then '\t' else ' ')

theorem getElem?_padding {line : List Char} {col i : Nat} (hi : i < col - 1) (hcol : col - 1 ≤ line.length) :
    (padding line col)[i]? = some (if (line)[i]? = some '\t' then '\t' else ' ') := by
  obtain ⟨c, hc⟩ : ∃ c, (line)[i]? = some c := ⟨_, List.getElem?_eq_getElem (Nat.lt_of_lt_of_le hi hcol)⟩
  rw [padding, List.getElem?_map, List.getElem?_take_of_lt hi, hc]
  simp

def placeIn (file : Option Path) (span : Span) : String :=
  match file with
  | some path => path.text ++ ":" ++ span.place
  | none => "line " ++ span.place

def heading (label : String) (file : Option Path) (span : Span) (message : String) : String :=
  "error[" ++ label ++ "]: " ++ message ++ "\n" ++ Text.repeated (toString span.line).length ' ' ++ "--> " ++
    placeIn file span ++ "\n" ++ Text.repeated (toString span.line).length ' ' ++ " |\n"

theorem getLast?_heading (label : String) (file : Option Path) (span : Span) (message : String) :
    (heading label file span message).toList.getLast? = some '\n' := by
  unfold heading
  rw [String.toList_append, List.getLast?_append]
  rfl

theorem located_eq (source label : String) (file : Option Path) (span : Span) (message : String)
    (hint : Option String) :
    located source label file span message hint = heading label file span message ++
      (toString span.line ++ " | " ++ lineAt source span.line ++ "\n" ++
        (Text.repeated (toString span.line).length ' ' ++ " | " ++
          String.ofList (padding (lineAt source span.line).toList span.col) ++
          Text.repeated (max span.length 1) '^' ++ "\n" ++
          hintLines (Text.repeated (toString span.line).length ' ') hint)) := by
  unfold located heading placeIn
  generalize toString span.line = number
  generalize lineAt source span.line = line
  cases file with
  | some path => simp only [String.append_assoc]
  | none => simp only [String.append_assoc]

theorem underlines_located (source label : String) (file : Option Path) (span : Span) (message : String)
    (hint : Option String) {line : String} (hline : (Text.lines source)[span.line - 1]? = some line)
    (hfeed : '\n' ∉ line.toList) (hcol : span.col - 1 ≤ line.toList.length) (hlength : 0 < span.length) :
    Underlines (located source label file span message hint) span.line line.toList (span.col - 1)
      span.length := by
  have hshown : lineAt source span.line = line := by rw [lineAt, hline]; rfl
  refine ⟨hfeed, _, padding line.toList span.col,
    (hintLines (Text.repeated (toString span.line).length ' ') hint).toList, ?_,
    getLast?_heading label file span message, ?_, fun i hi => getElem?_padding hi hcol⟩
  · rw [located_eq, hshown, Nat.max_eq_left hlength]
    simp only [String.toList_append, String.toList_ofList, Text.repeated, List.append_assoc]
    rfl
  · rw [padding, List.length_map, List.length_take, Nat.min_eq_left hcol]

end Report

/-- **A report about a token underlines the token.** For every token of a script that is no comment and no mark,
a report with the span of the token shows the line of the script on which the token stands, and its carets are
under the characters of the token. -/
theorem Report.underlines_token (keywords : KeywordTable) (source label : String) (file : Option Path)
    (message : String) (hint : Option String) {t : Token} (ht : t ∈ (scan keywords source).tokens)
    (hterminal : t.terminal ∉ [.comment, .blankLine, .endOfFile]) :
    ∃ line, (Text.lines source)[t.span.line - 1]? = some line ∧ 0 < t.span.line ∧ 0 < t.span.col ∧
      t.span.length = t.lexeme.length ∧
      (line.toList.drop (t.span.col - 1)).take t.span.length = t.lexeme.toList ∧
      Underlines (located source label file t.span message hint) t.span.line line.toList (t.span.col - 1)
        t.span.length := by
  have hkinds : t.isMark = false ∧ t.kind ≠ .comment := by
    obtain ⟨kind, lexeme, span⟩ := t
    cases kind with
    | comment => exact absurd (List.mem_cons_self) hterminal
    | blankLine => exact absurd (List.mem_cons_of_mem _ List.mem_cons_self) hterminal
    | endOfFile => exact absurd (List.mem_cons_of_mem _ (List.mem_cons_of_mem _ List.mem_cons_self)) hterminal
    | symbol s => exact ⟨rfl, by rintro ⟨⟩⟩
    | keyword k => exact ⟨rfl, by rintro ⟨⟩⟩
    | name => exact ⟨rfl, by rintro ⟨⟩⟩
    | text value => exact ⟨rfl, by rintro ⟨⟩⟩
    | number value => exact ⟨rfl, by rintro ⟨⟩⟩
  obtain ⟨line, front, behind, hline, hchars, hnumber, hcol, hlength, hpos, hfeed⟩ :=
    (isRead_scan ht hkinds.1).exists_line hkinds.2
  have hstart : t.span.col - 1 = front.length := by rw [hcol, Nat.add_sub_cancel]
  have hinside : t.span.col - 1 ≤ line.toList.length := by
    rw [hstart, hchars, List.length_append]
    exact Nat.le_add_right _ _
  refine ⟨line, hline, hnumber, ?_, hlength, ?_, underlines_located source label file t.span message hint hline
    hfeed hinside hpos⟩
  · rw [hcol]
    exact Nat.succ_pos _
  · rw [hstart, hchars, List.drop_left, hlength, ← String.length_toList, List.take_left]

/-- The second token of a line that is ended by a carriage return and a line feed, behind a tab. -/
theorem Report.underlines_token_behindTab :
    ∃ t ∈ (scan .default "if x:\r\n\tä .. zz\r\nend").tokens, t.lexeme = "zz" ∧
      t.terminal ∉ [.comment, .blankLine, .endOfFile] ∧
      Underlines (located "if x:\r\n\tä .. zz\r\nend" "syntax" none t.span "here" none) 2 "\tä .. zz".toList 6 2 := by
  obtain ⟨t, ht, hfound⟩ : ∃ t ∈ (scan .default "if x:\r\n\tä .. zz\r\nend").tokens,
      (t.lexeme == "zz" && t.terminal == .name && t.span == ⟨2, 7, 2⟩) = true :=
    List.any_eq_true.mp (by decide +kernel)
  simp only [Bool.and_eq_true, beq_iff_eq] at hfound
  obtain ⟨⟨hlexeme, hname⟩, hspan⟩ := hfound
  have hterminal : t.terminal ∉ [.comment, .blankLine, .endOfFile] := by
    rw [hname]
    decide
  obtain ⟨line, hline, -, -, -, -, hunderlines⟩ :=
    underlines_token .default "if x:\r\n\tä .. zz\r\nend" "syntax" none "here" none ht hterminal
  have hshown : (Text.lines "if x:\r\n\tä .. zz\r\nend")[1]? = some "\tä .. zz" := by decide +kernel
  refine ⟨t, ht, hlexeme, hterminal, ?_⟩
  rw [hspan] at hline hunderlines ⊢
  rw [Option.some.inj (hline.symm.trans hshown)] at hunderlines
  exact hunderlines

end Trellis
