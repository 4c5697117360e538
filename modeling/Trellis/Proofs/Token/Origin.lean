import Mathlib.Data.List.TakeWhile
import Trellis.Proofs.Token.Places
import Trellis.Text.Lines

/-!
# What tokens are read from

A token that is no mark is a lexeme of the script: there are characters in front of it, the lexeme is read from
what stands behind these, and the kind, the characters and the span of the token are told by the lexeme and by
the characters in front of it (`Token.IsRead`). So everything that is known of lexemes is known of tokens.

Symbols, texts, numbers and words are *tight*: they hold no line feed and do not end in a carriage return. So
such a token stands on one line, and none of its characters belongs to the end of the line, whichever way that is
written. Comments are not tight, since those between marks may go over several lines, and the others go as far as
to the line feed.
-/

namespace Trellis

/-! ## Lines -/

namespace Text

theorem lastLine_append_of_notMem {a b : List Char} (h : '\n' ∉ b) : lastLine (a ++ b) = lastLine a ++ b := by
  unfold lastLine
  rw [List.reverse_append, List.takeWhile_append_of_pos, List.reverse_append, List.reverse_reverse]
  exact fun _ hc => bne_iff_ne.mpr fun heq => h (heq ▸ List.mem_reverse.mp hc)

theorem lastLine_append_of_mem {a b : List Char} (h : '\n' ∈ b) : lastLine (a ++ b) = lastLine b := by
  unfold lastLine
  rw [List.reverse_append, List.takeWhile_append, if_neg]
  intro hlength
  have hall := (List.takeWhile_sublist (p := (· != '\n')) (l := b.reverse)).eq_of_length hlength
  exact bne_iff_ne.mp (List.takeWhile_eq_self_iff.mp hall _ (List.mem_reverse.mpr h)) rfl

theorem lastLine_cons_of_mem {c : Char} {cs : List Char} (h : '\n' ∈ cs) : lastLine (c :: cs) = lastLine cs :=
  lastLine_append_of_mem (a := [c]) h

theorem lastLine_feed (cs : List Char) : lastLine ('\n' :: cs) = lastLine cs := by
  by_cases h : '\n' ∈ cs
  · exact lastLine_cons_of_mem h
  · rw [← List.singleton_append, lastLine_append_of_notMem h]
    exact (lastLine_append_of_notMem (a := []) h).symm

theorem getElem?_zero_splitOn (cs : List Char) : (cs.splitOn '\n')[0]? = some (cs.takeWhile (· != '\n')) := by
  unfold List.splitOn
  induction cs with
  | nil => rfl
  | cons c cs ih =>
    rw [List.splitOnP_cons_eq_if_modifyHead]
    by_cases hc : c = '\n'
    · subst hc
      rfl
    · rw [if_neg (by simpa using hc), List.takeWhile_cons_of_pos (by simpa using hc)]
      cases hlines : List.splitOnP (· == '\n') cs with
      | nil =>
        rw [hlines] at ih
        cases ih
      | cons first others =>
        rw [hlines] at ih
        cases ih
        rfl

theorem getElem?_splitOn (a b : List Char) :
    ((a ++ b).splitOn '\n')[a.count '\n']? = some (lastLine a ++ b.takeWhile (· != '\n')) := by
  induction a with
  | nil => exact getElem?_zero_splitOn b
  | cons c a ih =>
    by_cases hc : c = '\n'
    · subst hc
      rw [List.count_cons_self, lastLine_feed, ← ih]
      rfl
    · rw [List.count_cons_of_ne hc]
      by_cases ha : '\n' ∈ a
      · -- the lines behind the first one are those of what follows
        obtain ⟨n, hn⟩ := Nat.exists_eq_add_one.mpr (List.count_pos_iff.mpr ha)
        rw [lastLine_cons_of_mem ha, ← ih, hn, List.cons_append]
        unfold List.splitOn
        rw [List.splitOnP_cons_eq_if_modifyHead, if_neg (by simpa using hc)]
        cases List.splitOnP (· == '\n') (a ++ b) <;> rfl
      · have hnone : '\n' ∉ c :: a := by simpa [Ne.symm hc] using ha
        rw [List.count_eq_zero.mpr ha, getElem?_zero_splitOn, List.takeWhile_append_of_pos]
        · exact congrArg (some <| · ++ _) (lastLine_append_of_notMem (a := []) hnone).symm
        · exact fun _ hd => bne_iff_ne.mpr fun heq => hnone (heq ▸ hd)

structure Tight (cs : List Char) : Prop where
  noFeed : '\n' ∉ cs
  noReturn : cs.getLast? ≠ some '\r'

theorem Tight.of_forall {cs : List Char} (h : ∀ c ∈ cs, c ≠ '\n' ∧ c ≠ '\r') : Tight cs :=
  ⟨fun hfeed => (h _ hfeed).1 rfl, fun hlast => (h _ (List.mem_of_getLast? hlast)).2 rfl⟩

theorem closeLine_cons_of_ne {c : Char} (h : c ≠ '\r') (line : List Char) :
    closeLine (c :: line) = (c :: line).reverse := by
  rw [closeLine]
  rintro _ ⟨⟩
  exact h rfl

variable {text : List Char}

theorem exists_closeLine (htight : Tight text) (hne : text ≠ []) (front cs : List Char) :
    ∃ behind, closeLine (cs ++ (text.reverse ++ front)) = front.reverse ++ (text ++ behind) := by
  cases cs with
  | nil =>
    obtain ⟨c, others, hc⟩ := List.exists_cons_of_ne_nil (List.reverse_ne_nil_iff.mpr hne)
    have hlast : c ≠ '\r' := by
      rintro rfl
      exact htight.noReturn (by rw [← List.head?_reverse, hc]; rfl)
    refine ⟨[], ?_⟩
    rw [List.nil_append, hc, List.cons_append, closeLine_cons_of_ne hlast, ← List.cons_append, ← hc]
    simp
  | cons c cs =>
    by_cases hc : c = '\r'
    · subst hc
      exact ⟨cs.reverse, by simp [closeLine]⟩
    · exact ⟨(c :: cs).reverse, by rw [List.cons_append, closeLine_cons_of_ne hc]; simp⟩

theorem exists_firstLine (htight : Tight text) (hne : text ≠ []) (current b : List Char) :
    ∃ behind, (linesFrom current (text ++ b))[0]? = some (current.reverse ++ (text ++ behind)) := by
  have hfeed : '\n' ∉ b.takeWhile (· != '\n') := fun h => by
    have hall := List.all_eq_true.mp (List.all_takeWhile (p := (· != '\n')) (l := b)) _ h
    cases hall
  rw [linesFrom_append htight.noFeed, ← List.takeWhile_append_dropWhile (p := (· != '\n')) (l := b),
    linesFrom_append hfeed]
  cases hrest : b.dropWhile (· != '\n') with
  | nil =>
    have hsome : ((b.takeWhile (· != '\n')).reverse ++ (text.reverse ++ current)).isEmpty = false := by
      simp [hne]
    refine ⟨b.takeWhile (· != '\n'), ?_⟩
    rw [linesFrom, hsome]
    simp
  | cons c rest =>
    have hc := List.head?_dropWhile_not (p := (· != '\n')) (l := b)
    rw [hrest] at hc
    obtain rfl : c = '\n' := by simpa using hc
    obtain ⟨behind, hline⟩ := exists_closeLine htight hne current (b.takeWhile (· != '\n')).reverse
    exact ⟨behind, congrArg some hline⟩

theorem exists_line (htight : Tight text) (hne : text ≠ []) (current : List Char)
    (hcurrent : '\n' ∉ current) (a b : List Char) :
    ∃ behind, (linesFrom current (a ++ (text ++ b)))[a.count '\n']? =
      some (lastLine (current.reverse ++ a) ++ (text ++ behind)) := by
  induction a generalizing current with
  | nil =>
    have hlast : lastLine (current.reverse ++ []) = current.reverse := by
      rw [List.append_nil]
      exact lastLine_append_of_notMem (a := []) fun h => hcurrent (List.mem_reverse.mp h)
    rw [hlast]
    exact exists_firstLine htight hne current b
  | cons c a ih =>
    by_cases hc : c = '\n'
    · subst hc
      obtain ⟨behind, hline⟩ := ih [] List.not_mem_nil
      refine ⟨behind, ?_⟩
      rw [lastLine_append_of_mem List.mem_cons_self, lastLine_feed, List.count_cons_self]
      exact hline
    · have hmore : '\n' ∉ c :: current := by simp [Ne.symm hc, hcurrent]
      obtain ⟨behind, hline⟩ := ih (c :: current) hmore
      refine ⟨behind, ?_⟩
      rw [List.count_cons_of_ne hc, List.cons_append, linesFrom_cons_of_ne hc, hline]
      simp

end Text

/-! ## Lexemes -/

variable {keywords : KeywordTable}

namespace Lexeme

open Text (Tight)

def Neat (x : Lexeme) : Prop :=
  match x.kind with
  | .symbol _ => Tight x.text
  | .text value => Tight x.text ∧ ∃ quote, (quote = '\x22' ∨ quote = '\x27') ∧ x.text = quote :: (value ++ [quote])
  | .number => Tight x.text
  | .word => Tight x.text
  | .comment => True
  | .newline => True
  | .blank => True
  | .fault _ => True

theorem neat_read (c : Char) (rest : List Char) : (read c rest).Neat := by
  have digit (d : Char) (hd : d.isDigit = true) : d ≠ '\n' ∧ d ≠ '\r' := by
    refine ⟨?_, ?_⟩ <;> rintro rfl <;> cases hd
  have digits {ds : List Char} (hds : ds.all Char.isDigit = true) (d : Char) (hd : d ∈ ds) : d ≠ '\n' ∧ d ≠ '\r' :=
    digit d (List.all_eq_true.mp hds d hd)
  have h := reads_read c rest
  generalize read c rest = x at h ⊢
  cases h with
  | single h =>
    refine Tight.of_forall (List.forall_mem_singleton.mpr ?_)
    constructor <;> rintro rfl <;> cases h
  | long h => unfold Symbol.pair? at h; split at h <;> cases h <;> exact .of_forall (by simp)
  | short h => unfold Symbol.pair? at h; split at h <;> cases h <;> exact .of_forall (by simp)
  | text hquote noQuote noFeed =>
    refine ⟨⟨?_, ?_⟩, _, hquote, rfl⟩ <;> obtain rfl | rfl := hquote <;> simp [noFeed, List.getLast?_cons]
  | number hc hwhole hfraction =>
    refine Tight.of_forall (List.forall_mem_cons.mpr ⟨digit _ hc, List.forall_mem_append.mpr ⟨digits hwhole, ?_⟩⟩)
    obtain rfl | ⟨d, ds, rfl, hd, hds⟩ := hfraction
    · exact List.forall_mem_nil _
    · exact List.forall_mem_cons.mpr ⟨by decide, List.forall_mem_cons.mpr ⟨digit d hd, digits hds⟩⟩
  | word h htail =>
    refine Tight.of_forall (List.forall_mem_cons.mpr ⟨⟨?_, ?_⟩, fun d hd => ⟨?_, ?_⟩⟩) <;> rintro rfl
    · exact absurd h (by decide)
    · exact absurd h (by decide)
    · exact absurd (List.all_eq_true.mp htail _ hd) (by decide)
    · exact absurd (List.all_eq_true.mp htail _ hd) (by decide)
  | _ => trivial

theorem tight_of_tokenKind? {x : Lexeme} {kind : TokenKind} (h : x.Neat) (hkind : x.tokenKind? keywords = some kind)
    (hcomment : kind ≠ .comment) : Tight x.text := by
  obtain ⟨xkind, text, rest⟩ := x
  cases xkind with
  | symbol s => exact h
  | comment => exact absurd (Option.some.inj hkind).symm hcomment
  | newline => cases hkind
  | blank => cases hkind
  | text value => exact h.1
  | number => exact h
  | word => exact h
  | fault f => cases hkind

theorem quoted_of_tokenKind? {x : Lexeme} {value : String} (h : x.Neat)
    (hkind : x.tokenKind? keywords = some (.text value)) :
    ∃ quote, (quote = '\x22' ∨ quote = '\x27') ∧ x.text = quote :: (value.toList ++ [quote]) := by
  obtain ⟨xkind, text, rest⟩ := x
  cases xkind with
  | text written =>
    cases hkind
    rw [String.toList_ofList]
    exact h.2
  | word =>
    simp only [tokenKind?] at hkind
    split at hkind <;> cases hkind
  | symbol s => cases hkind
  | comment => cases hkind
  | newline => cases hkind
  | blank => cases hkind
  | number => cases hkind
  | fault f => cases hkind

end Lexeme

/-! ## Scans -/

/-- **The token is a lexeme of a script**, read behind the characters in front of it. -/
def Token.IsRead (keywords : KeywordTable) (source : List Char) (t : Token) : Prop :=
  ∃ before c rest, source = before ++ c :: rest ∧
    (Lexeme.read c rest).tokenKind? keywords = some t.kind ∧
    t.lexeme.toList = (Lexeme.read c rest).text ∧
    t.span = (({} : Position).after before).span (Lexeme.read c rest).text.length

theorem Scan.Reaches.isRead {source done left : List Char} {s : Scan} (h : Reaches keywords source s done left) :
    ∀ t ∈ s.tokens, t.isMark = true ∨ t.IsRead keywords source := by
  induction h with
  | start => exact List.forall_mem_nil _
  | @step s done c rest h ih =>
    have steps := steps_step keywords s c rest
    generalize s.step keywords c (Lexeme.read c rest) = s' at steps ⊢
    cases steps with
    | token hkind =>
      refine List.forall_mem_cons.mpr ⟨.inr ⟨done, c, rest, h.source_eq, hkind, String.toList_ofList, ?_⟩, ih⟩
      rw [h.position_eq]
    | mark => exact List.forall_mem_cons.mpr ⟨.inl rfl, ih⟩
    | _ => exact ih

theorem isRead_scan {source : String} {t : Token} (ht : t ∈ (scan keywords source).tokens)
    (hmark : t.isMark = false) : t.IsRead keywords source.toList := by
  obtain ⟨mark, hbare, htokens⟩ := tokens_scan keywords source
  rw [htokens] at ht
  obtain ht | ht := List.mem_append.mp ht
  · refine ((Scan.reaches_run keywords source.toList).isRead t (List.mem_reverse.mp ht)).resolve_left fun h => ?_
    rw [hmark] at h
    cases h
  · rw [List.mem_singleton.mp ht, show mark.isMark = mark.bare.isMark from rfl, hbare] at hmark
    cases hmark

end Trellis
