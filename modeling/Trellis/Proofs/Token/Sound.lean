import Trellis.Proofs.Token.Bare
import Trellis.Proofs.Token.Steps

/-!
# What the tokens of a script are like

Not every list of tokens comes from a script. Of those that do, four things are used later. A name is a
word that is no keyword, and a keyword is spelled as the table has it. A text holds no line end and at most
one kind of quotes, so it can be written between quotes again. A comment ends where it ended. And blank
lines are never doubled.

These facts are put together in `Token.Sound`, for a single token, and in `Token.Source`, for a list of
tokens. The last section shows that scanning gives nothing else (`source_scan`), and that the tokens of a
script weigh at most one more than it has characters (`weightOf_scan`).
-/

namespace Trellis

/-- **A comment, with its marks**: followed by nothing or by the end of the line, it is read as a whole. -/
def IsComment (text : List Char) : Prop :=
  ∃ body, text = '#' :: body ∧
    ∀ rest, rest.head?.all (· == '\n') = true →
      Lexeme.readComment (body ++ rest) = ⟨.comment, text, rest⟩

def IsQuotable (text : List Char) : Prop :=
  '\n' ∉ text ∧ ('\x22' ∈ text → '\x27' ∉ text)

variable {keywords : KeywordTable} {t : Token}

namespace Token

def Sound (keywords : KeywordTable) (t : Token) : Prop :=
  match t.kind with
  | .keyword k => Layout.isBareKey t.lexeme = true ∧ keywords.find? t.lexeme = some k
  | .name => Layout.isBareKey t.lexeme = true ∧ keywords.find? t.lexeme = none
  | .text value => IsQuotable value.toList
  | .comment => IsComment t.lexeme.toList
  | _ => True

/-! ## Blank lines apart -/

/-- Are there no two blank lines in a row, where a blank line may stand in front of the list? -/
def apart (behindBlank : Bool) : List Token → Bool
  | [] => true
  | t :: ts => !(behindBlank && t.isBlankLine) && apart t.isBlankLine ts

def endsBlank (behindBlank : Bool) : List Token → Bool
  | [] => behindBlank
  | t :: ts => endsBlank t.isBlankLine ts

theorem apart_append (behindBlank : Bool) (a b : List Token) :
    apart behindBlank (a ++ b) = (apart behindBlank a && apart (endsBlank behindBlank a) b) := by
  induction a generalizing behindBlank with
  | nil => rfl
  | cons t a ih => rw [List.cons_append, apart, apart, endsBlank, ih, Bool.and_assoc]

theorem endsBlank_append (behindBlank : Bool) (a b : List Token) :
    endsBlank behindBlank (a ++ b) = endsBlank (endsBlank behindBlank a) b := by
  induction a generalizing behindBlank with
  | nil => rfl
  | cons t a ih => exact ih _

@[simp] theorem apart_cons_of_not_blank (h : t.isBlankLine = false) (behindBlank : Bool) (ts : List Token) :
    apart behindBlank (t :: ts) = apart false ts := by
  rw [apart, h, Bool.and_false]
  rfl

theorem apart_of_apart {behindBlank : Bool} {ts : List Token} (h : apart behindBlank ts = true) :
    apart false ts = true := by
  cases ts with
  | nil => rfl
  | cons t ts =>
    rw [apart, Bool.and_eq_true] at h
    rw [apart, h.2]
    rfl

theorem apart_map_bare (behindBlank : Bool) (ts : List Token) :
    apart behindBlank (ts.map bare) = apart behindBlank ts := by
  induction ts generalizing behindBlank with
  | nil => rfl
  | cons t ts ih =>
    rw [List.map_cons, apart, apart, ih]
    rfl

structure Source (keywords : KeywordTable) (ts : List Token) : Prop where
  sound : ∀ t ∈ ts, t.Sound keywords
  apart : apart false ts = true

theorem Source.suffix {rest ts : List Token} (h : Source keywords ts) (hsuffix : rest <:+ ts) :
    Source keywords rest := by
  obtain ⟨taken, rfl⟩ := hsuffix
  refine ⟨fun t ht => h.sound t (List.mem_append_right taken ht), ?_⟩
  have happart := h.apart
  rw [apart_append, Bool.and_eq_true] at happart
  exact apart_of_apart happart.2

theorem Source.of_skip {ts rest : List Token} (h : Source keywords ts) (hskip : skip ts = t :: rest) :
    t.Sound keywords :=
  h.sound t ((skip_suffix ts).subset (hskip ▸ List.mem_cons_self))

@[simp] theorem sound_bare : t.bare.Sound keywords ↔ t.Sound keywords :=
  Iff.rfl

end Token

/-! ## Lexemes -/

namespace Lexeme

def Faithful (x : Lexeme) : Prop :=
  match x.kind with
  | .word => Layout.isBareKey (String.ofList x.text) = true
  | .text value => value.length + 2 = x.text.length ∧ IsQuotable value
  | .comment => IsComment x.text
  | _ => True

theorem Faithful.sound_of_tokenKind? {x : Lexeme} {kind : TokenKind} (h : x.Faithful)
    (hkind : x.tokenKind? keywords = some kind) (pos : 1 ≤ x.text.length) (span : Span) :
    (Token.mk kind (String.ofList x.text) span).Sound keywords ∧
      (Token.mk kind (String.ofList x.text) span).weight ≤ x.text.length := by
  obtain ⟨xkind, text, rest⟩ := x
  cases xkind with
  | symbol symbol => cases hkind; exact ⟨trivial, pos⟩
  | comment =>
    cases hkind
    exact ⟨by simpa [Token.Sound, Faithful] using h, pos⟩
  | text value =>
    cases hkind
    obtain ⟨length, quotable⟩ := h
    refine ⟨by simpa [Token.Sound] using quotable, ?_⟩
    simp only [Token.weight, String.length_ofList] at length ⊢
    omega
  | number => cases hkind; exact ⟨trivial, pos⟩
  | word =>
    simp only [tokenKind?] at hkind
    split at hkind <;> cases hkind <;> exact ⟨⟨h, by assumption⟩, pos⟩
  | newline => cases hkind
  | blank => cases hkind
  | fault fault => cases hkind

theorem faithful_read (c : Char) (rest : List Char) : (read c rest).Faithful := by
  obtain h := reads_read c rest
  generalize read c rest = x at h ⊢
  cases h with
  | marked h =>
    refine ⟨_, rfl, fun rest _ => ?_⟩
    rw [List.cons_append, List.append_assoc]
    exact (Reads.marked h).read_eq
  | line noFeed noMark => exact ⟨_, rfl, fun rest ends => (Reads.line noFeed noMark ends).read_eq⟩
  | text hquote noQuote noFeed =>
    refine ⟨by simp, noFeed, fun hdouble hsingle => ?_⟩
    obtain rfl | rfl := hquote
    · exact noQuote hdouble
    · exact noQuote hsingle
  | word h htail => simp [Faithful, Layout.isBareKey, h, htail]
  | _ => trivial

end Lexeme

/-! ## Scans -/

namespace Scan

open Token (Sound Source weightOf)

/-- The last token of a scan, which is kept first, is a blank line, or there is none yet. -/
def behindBlank (s : Scan) : Bool :=
  (s.tokens.head?.map Token.isBlankLine).getD true

theorem marksBlankLine_iff {s : Scan} :
    s.marksBlankLine = true ↔ s.content = false ∧ s.owed = [] ∧ s.behindBlank = false := by
  unfold marksBlankLine behindBlank
  cases s.tokens with
  | nil => simp
  | cons last others =>
    have hterminal : (last.terminal != .blankLine) = !last.isBlankLine := by
      obtain ⟨kind, lexeme, span⟩ := last
      cases kind <;> rfl
    simp [hterminal, and_assoc]

/-- **What a scan has found so far is what a script may hold**, and it weighs no more than the characters
it was found in. -/
structure Fair (keywords : KeywordTable) (s : Scan) (done : List Char) : Prop where
  sound : ∀ t ∈ s.tokens, t.Sound keywords
  apart : Token.apart true s.tokens.reverse = true
  weight : weightOf s.tokens ≤ done.length

theorem endsBlank_reverse (s : Scan) : Token.endsBlank true s.tokens.reverse = s.behindBlank := by
  unfold behindBlank
  cases s.tokens with
  | nil => rfl
  | cons t ts =>
    rw [List.reverse_cons, Token.endsBlank_append]
    rfl

theorem Fair.cons {s : Scan} {done text : List Char} (h : s.Fair keywords done) (sound : t.Sound keywords)
    (weight : t.weight ≤ text.length) (blank : t.isBlankLine = true → s.behindBlank = false) (position : Position)
    (content : Bool) (owed : List Symbol) (faults : List LocatedScanFault) :
    Fair keywords ⟨position, content, owed, t :: s.tokens, faults⟩ (done ++ text) := by
  refine ⟨List.forall_mem_cons.mpr ⟨sound, h.sound⟩, ?_, ?_⟩
  · rw [List.reverse_cons, Token.apart_append, h.apart, endsBlank_reverse, Token.apart]
    cases ht : t.isBlankLine with
    | false => simp [Token.apart]
    | true => simp [Token.apart, blank ht]
  · rw [Token.weightOf_cons, List.length_append, Nat.add_comm]
    exact Nat.add_le_add h.weight weight

theorem Reaches.fair {source done left : List Char} {s : Scan} (h : Reaches keywords source s done left) :
    s.Fair keywords done := by
  induction h with
  | start => exact ⟨List.forall_mem_nil _, rfl, Nat.le_refl _⟩
  | @step s done c rest h ih =>
    have faithful := Lexeme.faithful_read c rest
    have pos : 1 ≤ (Lexeme.read c rest).text.length := List.length_pos_iff.mpr (Lexeme.text_ne_nil c rest)
    have weight : weightOf s.tokens ≤ (done ++ (Lexeme.read c rest).text).length := by
      rw [List.length_append]
      exact Nat.le_add_right_of_le ih.weight
    have steps := steps_step keywords s c rest
    generalize s.step keywords c (Lexeme.read c rest) = s' at steps ⊢
    cases steps with
    | token hkind =>
      obtain ⟨sound, weight⟩ := faithful.sound_of_tokenKind? hkind pos (s.position.span (Lexeme.read c rest).text.length)
      refine ih.cons sound weight (fun hblank => ?_) _ _ _ _
      rw [(Lexeme.isMark_of_tokenKind? hkind _ _).1] at hblank
      cases hblank
    | mark _ _ marks =>
      have sound : Sound keywords ⟨.blankLine, "", ⟨s.position.line, 1, 0⟩⟩ := trivial
      exact ih.cons sound pos (fun _ => (marksBlankLine_iff.mp marks).2.2) _ _ _ _
    | line => exact ⟨ih.sound, ih.apart, weight⟩
    | blank => exact ⟨ih.sound, ih.apart, weight⟩
    | fault => exact ⟨ih.sound, ih.apart, weight⟩

end Scan

section

variable (keywords : KeywordTable) (source : String)

theorem tokens_scan :
    ∃ mark : Token, mark.bare = .endOfFile ∧
      (scan keywords source).tokens
        = (Scan.run keywords {} source.toList).tokens.reverse ++ [mark] := by
  refine ⟨_, ?_, List.reverse_cons⟩
  rfl

theorem apart_scan : Token.apart true ((scan keywords source).tokens.map Token.bare) = true := by
  obtain ⟨mark, hmark, htokens⟩ := tokens_scan keywords source
  have hblank : mark.isBlankLine = false := congrArg Token.isBlankLine hmark
  rw [Token.apart_map_bare, htokens, Token.apart_append,
    (Scan.reaches_run keywords source.toList).fair.apart, Token.apart_cons_of_not_blank hblank]
  rfl

theorem source_scan : Token.Source keywords ((scan keywords source).tokens.map Token.bare) := by
  refine ⟨fun t ht => ?_, Token.apart_of_apart (apart_scan keywords source)⟩
  obtain ⟨mark, hmark, htokens⟩ := tokens_scan keywords source
  rw [htokens] at ht
  obtain ⟨u, hu, rfl⟩ := List.mem_map.mp ht
  rcases List.mem_append.mp hu with hu | hu
  · exact Token.sound_bare.mpr ((Scan.reaches_run keywords source.toList).fair.sound u (List.mem_reverse.mp hu))
  · rw [List.mem_singleton.mp hu, hmark]
    trivial

theorem weightOf_scan : Token.weightOf (scan keywords source).tokens ≤ source.length + 1 := by
  obtain ⟨mark, hmark, htokens⟩ := tokens_scan keywords source
  have hweight := (Scan.reaches_run keywords source.toList).fair.weight
  have hmarkWeight : mark.weight = 1 := congrArg Token.weight hmark
  rw [htokens, Token.weightOf_append, Token.weightOf_reverse, Token.weightOf_cons,
    Token.weightOf_nil, hmarkWeight, ← String.length_toList]
  exact Nat.add_le_add_right hweight 1

end

end Trellis
