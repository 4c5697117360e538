import Trellis.Proofs.Grammar.Tracks
import Trellis.Proofs.Grammar.Yields
import Trellis.Proofs.Token.Origin

/-!
# Names stand where they are said to

A name in a tree has a place, a span of the script. The characters there are the characters of the name
(`readScript_anchored`), also in the slots of a template.

For a token outside of templates this is how scanning places tokens. A slot is a script of its own: its places are
moved by the column of the text that the slot is in, by the offset of the slot in that text and by one for the quote
(`Span.Holds.shift`). Escapes are no problem, since offsets count the characters as they were written.
-/

namespace Trellis

/-! ## Places -/

/-- **The characters of a script that a span covers**: those of its line from its column on, as many as it is
long. -/
def Span.charsIn (source : String) (s : Span) : List Char :=
  (((source.toList.splitOn '\n')[s.line - 1]?.getD []).drop (s.col - 1)).take s.length

/-- **A span holds a word**: the word stands on the line of the span, behind as many characters as its column
says. -/
structure Span.Holds (source : List Char) (s : Span) (word : List Char) : Prop where
  line : 0 < s.line
  length : s.length = word.length
  stands : ∃ front behind, (source.splitOn '\n')[s.line - 1]? = some (front ++ (word ++ behind)) ∧
    s.col = front.length + 1

namespace Span.Holds

variable {source : List Char} {s : Span} {word : List Char}

theorem charsIn {source : String} (h : s.Holds source.toList word) : s.charsIn source = word := by
  obtain ⟨front, behind, hline, hcol⟩ := h.stands
  rw [Span.charsIn, hline, hcol, h.length, Option.getD_some, Nat.add_sub_cancel, List.drop_left, List.take_left]

/-- A span that is in a piece of a line is in the line, if it is moved by what stands in front of the piece. -/
theorem shift {text inner : Span} {before piece behind : List Char} {offset : Nat} {quote : Char}
    (htext : text.Holds source (quote :: (before ++ (piece ++ behind) ++ [quote])))
    (hoffset : before.length = offset) (hpiece : '\n' ∉ piece) (hinner : inner.Holds piece word) :
    (Parse.shiftSpan text offset inner).Holds source word := by
  obtain ⟨front, rest, hline, hcol⟩ := htext.stands
  obtain ⟨front', rest', hline', hcol'⟩ := hinner.stands
  -- the piece is the only line of the script that it is
  rw [List.splitOn_eq_singleton hpiece] at hline'
  have hpieceEq : piece = front' ++ (word ++ rest') :=
    List.mem_singleton.mp (List.mem_of_getElem? hline') |>.symm
  refine ⟨htext.line, hinner.length, front ++ quote :: (before ++ front'),
    rest' ++ (behind ++ quote :: rest), ?_, ?_⟩
  · show (source.splitOn '\n')[text.line - 1]? = _
    rw [hline, hpieceEq]
    simp
  · show text.col + offset + inner.col = _
    rw [hcol, hcol', ← hoffset]
    simp
    omega

end Span.Holds

/-! ## Tokens -/

/-- The span of a token holds its characters, of which there are some. A text stands between quotes, on one
line. -/
structure Token.StandsIn (source : List Char) (t : Token) : Prop where
  nonempty : t.lexeme ≠ ""
  holds : t.span.Holds source t.lexeme.toList
  quoted : ∀ raw, t.kind = .text raw →
    '\n' ∉ raw.toList ∧ ∃ quote, t.lexeme.toList = quote :: (raw.toList ++ [quote])

def Token.IsAnchored (source : List Char) (t : Token) : Prop :=
  t.isTrivia = false → t.isEnd = false → t.StandsIn source

theorem Token.IsRead.isAnchored {keywords : KeywordTable} {source : List Char} {t : Token}
    (h : t.IsRead keywords source) : t.IsAnchored source := by
  intro htrivia _
  obtain ⟨before, c, rest, hsource, hkind, hlexeme, hspan⟩ := h
  have hcomment : t.kind ≠ .comment := fun hcomment => by
    rw [isTrivia, hcomment] at htrivia
    cases htrivia
  have hneat := Lexeme.neat_read c rest
  have htight := Lexeme.tight_of_tokenKind? hneat hkind hcomment
  refine ⟨fun hempty => ?_, ⟨?_, ?_, ?_⟩, fun raw hraw => ?_⟩
  · rw [hempty] at hlexeme
    exact Lexeme.text_ne_nil c rest hlexeme.symm
  · rw [hspan, Position.after_eq]
    exact Nat.lt_add_right _ Nat.one_pos
  · rw [hspan, hlexeme]
    rfl
  · refine ⟨Text.lastLine before, (Lexeme.read c rest).rest.takeWhile (· != '\n'), ?_, ?_⟩
    · have hline := Text.getElem?_splitOn before ((Lexeme.read c rest).text ++ (Lexeme.read c rest).rest)
      rw [Lexeme.text_append_rest, ← hsource] at hline
      rw [hspan, Position.after_eq, hlexeme]
      show (source.splitOn '\n')[1 + before.count '\n' - 1]? = _
      rw [Nat.add_sub_cancel_left, hline, ← Lexeme.text_append_rest c rest, List.takeWhile_append_of_pos]
      exact fun d hd => bne_iff_ne.mpr fun heq => htight.noFeed (heq ▸ hd)
    · rw [hspan, Position.after_eq]
      exact Nat.add_comm _ _
  · rw [hraw] at hkind
    obtain ⟨quote, -, hquoted⟩ := Lexeme.quoted_of_tokenKind? hneat hkind
    refine ⟨fun hfeed => htight.noFeed ?_, quote, hlexeme.trans hquoted⟩
    rw [hquoted]
    exact .tail _ (List.mem_append_left _ hfeed)

theorem isAnchored_scan {keywords : KeywordTable} {source : String} {t : Token}
    (ht : t ∈ (scan keywords source).tokens) : t.IsAnchored source.toList := by
  cases hmark : t.isMark with
  | false => exact (isRead_scan ht hmark).isAnchored
  | true =>
    obtain ⟨kind, lexeme, span⟩ := t
    cases kind with
    | blankLine => exact fun htrivia => by cases htrivia
    | endOfFile => exact fun _ hend => by cases hend
    | _ => cases hmark

theorem isAnchored_slot {source : List Char} {t : Token} {raw : String} {segments : List Template.Segment}
    {inner : String} {offset : Nat} (ht : t.IsAnchored source) (hkind : t.kind = .text raw)
    (hsplit : Template.split raw = .ok segments) (hmem : .slot inner offset ∈ segments) {u : Token}
    (hu : u.IsAnchored inner.toList) :
    Token.IsAnchored source { u with span := Parse.shiftSpan t.span offset u.span } := by
  intro htrivia hend
  have hinner := hu htrivia hend
  have houter : t.StandsIn source := ht (by rw [Token.isTrivia, hkind]) (by rw [Token.isEnd, hkind])
  obtain ⟨hfeed, quote, hquoted⟩ := houter.quoted raw hkind
  obtain ⟨before, behind, hraw, hoffset⟩ : ∃ before behind, raw.toList = before ++ (inner.toList ++ behind) ∧
      before.length = offset := by
    obtain ⟨before, behind, hraw, hoffset, -⟩ := Template.exists_of_split hsplit hmem
    exact ⟨before ++ [Template.opener, Template.opener], _, by rw [hraw, List.append_assoc]; rfl, by simp [hoffset]⟩
  have htext := houter.holds
  rw [hquoted, hraw] at htext
  have hpiece : '\n' ∉ inner.toList := fun hin => hfeed (by
    rw [hraw]
    exact List.mem_append_right _ (List.mem_append_left _ hin))
  exact ⟨hinner.nonempty, htext.shift hoffset hpiece hinner.holds, hinner.quoted⟩

def Ident.IsAnchored (source : List Char) (i : Ident) : Prop :=
  i.name ≠ "" ∧ i.span.Holds source i.name.toList

theorem anchors_isAnchored (source : List Char) : Anchors (Token.IsAnchored source) (Ident.IsAnchored source) where
  word {t} ht hword := by
    have hsolid : t.isTrivia = false ∧ t.isEnd = false := by
      obtain ⟨kind, lexeme, span⟩ := t
      cases kind with
      | name => exact ⟨rfl, rfl⟩
      | keyword k => exact ⟨rfl, rfl⟩
      | _ => rcases hword with hword | hword <;> cases hword
    have hstands := ht hsolid.1 hsolid.2
    exact ⟨hstands.nonempty, hstands.holds⟩
  slot ht hkind hsplit hmem _ _ hu := isAnchored_slot ht hkind hsplit hmem (isAnchored_scan hu)

/-- **Names stand where they are said to.** In a script that was read, with whatever keywords and in whatever mode
of matching, the characters that the place of a name covers are the characters of the name. This holds for the
names in all nodes, and so for those in the slots of templates. -/
theorem readScript_anchored {keywords : KeywordTable} {matching : MatchMode} {source : String} {program : Program}
    {q : Parser} (h : readScript keywords matching source = .done program q) {n : Node} (hn : n ∈ program.nodes)
    {i : Ident} (hi : i ∈ n.idents) :
    0 < i.span.line ∧ 0 < i.span.col ∧ 0 < i.span.length ∧ i.span.length = i.name.length ∧
      i.span.charsIn source = i.name.toList := by
  have hfits := Parser.fits_readProgram (anchors_isAnchored source.toList)
    (fun t ht => isAnchored_scan ht) (Parser.readProgram_of_readScript h) n hn
  obtain ⟨hne, hholds⟩ := hfits.idents i hi
  obtain ⟨front, -, -, hcol⟩ := hholds.stands
  have hlength : i.span.length = i.name.length := by rw [hholds.length, String.length_toList]
  refine ⟨hholds.line, ?_, ?_, hlength, hholds.charsIn⟩
  · rw [hcol]
    exact Nat.succ_pos _
  · rw [hlength]
    exact Nat.pos_of_ne_zero fun hzero => hne (String.length_eq_zero_iff.mp hzero)

/-- A script with a template on its second line, in which an escape and a slot stand in front of another slot. -/
def slottedScript : String :=
  "let ä = 1\nlet t = \"é\\n\x7b\x7b ä \x7d\x7d\x7b\x7b f(b) \x7d\x7d\"\n"

/-- The script is read, and the argument in its last slot stands in the second line, as the 25th character. -/
theorem readScript_anchored_slot :
    ∃ program q n i, readScript .default .strict slottedScript = .done program q ∧ n ∈ program.nodes ∧
      i ∈ n.idents ∧ i.name = "b" ∧ i.span = ⟨2, 25, 1⟩ ∧ i.span.charsIn slottedScript = ['b'] := by
  have run : (match readScript .default .strict slottedScript with
      | .done program _ => program.nodes.any fun n : Node =>
          n.idents.any fun i => i.name == "b" && i.span == ⟨2, 25, 1⟩
      | _ => false) = true := by decide +kernel
  cases hread : readScript .default .strict slottedScript with
  | failed fault q => rw [hread] at run; cases run
  | exhausted => rw [hread] at run; cases run
  | done program q =>
    rw [hread] at run
    obtain ⟨n, hn, hfound⟩ := List.any_eq_true.mp run
    obtain ⟨i, hi, hfound⟩ := List.any_eq_true.mp hfound
    rw [Bool.and_eq_true, beq_iff_eq, beq_iff_eq] at hfound
    obtain ⟨hname, hspan⟩ := hfound
    refine ⟨program, q, n, i, rfl, hn, hi, hname, hspan, ?_⟩
    rw [(readScript_anchored hread hn hi).2.2.2.2, hname]
    rfl

end Trellis
