import Trellis.Script.Reading
import Trellis.Script.Layout

/-!
# Tokens without places

What the grammar makes of a script depends on the kinds and the characters of its tokens, and not on where
they stand. A *bare* token has no place, so lists of bare tokens are what two scripts have in common when
they differ in their layout only.

Here are the bare tokens that a layout writes, and the two ways in which the grammar looks at a list of
tokens: `Token.skip` drops the comments and blank lines at its front, and `Token.next` is the terminal of
the first token behind them. The weight of a list bounds the depth to which the rules of the grammar have
to go back to each other when they read it.
-/

namespace Trellis

namespace Token

def bare (t : Token) : Token :=
  { t with span := {} }

/-! ## The tokens of a layout -/

def ofSymbol (s : Symbol) : Token :=
  ⟨.symbol s, s.text, {}⟩

def ofKeyword (k : Keyword) : Token :=
  ⟨.keyword k, k.text, {}⟩

def ofName (word : String) : Token :=
  ⟨.name, word, {}⟩

def ofWord (keywords : KeywordTable) (word : String) : Token :=
  match keywords.find? word with
  | some k => ⟨.keyword k, word, {}⟩
  | none => ofName word

def ofText (value : String) : Token :=
  ⟨.text value, Layout.quoted value, {}⟩

def ofNumber (x : Float) : Token :=
  ⟨.number x, Number.text "inf" x, {}⟩

def ofComment (text : String) : Token :=
  ⟨.comment, text, {}⟩

def blankLine : Token :=
  ⟨.blankLine, "", {}⟩

def endOfFile : Token :=
  ⟨.endOfFile, "", {}⟩

def ofKey (keywords : KeywordTable) (key : String) : Token :=
  if Layout.isBareKey key then ofWord keywords key else ofText key

def listed : List (List Token) → List Token
  | [] => []
  | [item] => item
  | item :: next :: rest => item ++ ofSymbol .comma :: listed (next :: rest)

section

variable (t : Token) (s : Symbol) (k : Keyword) (word : String) (x : Float)
  (keywords : KeywordTable)

@[simp] theorem bare_kind : t.bare.kind = t.kind := rfl

@[simp] theorem bare_terminal : t.bare.terminal = t.terminal := rfl

@[simp] theorem bare_isTrivia : t.bare.isTrivia = t.isTrivia := rfl

@[simp] theorem bare_isEnd : t.bare.isEnd = t.isEnd := rfl

@[simp] theorem isTrivia_ofWord : (ofWord keywords word).isTrivia = false := by
  unfold ofWord
  split <;> rfl

@[simp] theorem isTrivia_ofKey : (ofKey keywords word).isTrivia = false := by
  unfold ofKey
  split
  · exact isTrivia_ofWord word keywords
  · rfl

end

theorem kind_of_bare {t u : Token} (h : u.bare = t) : u.kind = t.kind :=
  h ▸ rfl

theorem lexeme_of_bare {t u : Token} (h : u.bare = t) : u.lexeme = t.lexeme :=
  h ▸ rfl

theorem terminal_of_bare {t u : Token} (h : u.bare = t) : u.terminal = t.terminal :=
  h ▸ rfl

theorem isTrivia_eq (t : Token) : t.isTrivia = (t.terminal == .comment || t.terminal == .blankLine) := by
  obtain ⟨kind, lexeme, span⟩ := t
  cases kind <;> rfl

theorem isEnd_eq (t : Token) : t.isEnd = (t.terminal == .endOfFile) := by
  obtain ⟨kind, lexeme, span⟩ := t
  cases kind <;> rfl

/-! ## Looking at a list of tokens -/

def skip (ts : List Token) : List Token :=
  ts.dropWhile isTrivia

def next (ts : List Token) : Terminal :=
  ((skip ts).head?.map terminal).getD .endOfFile

@[simp] theorem skip_nil : skip [] = [] := rfl

theorem skip_cons (t : Token) (ts : List Token) : skip (t :: ts) = if t.isTrivia then skip ts else t :: ts := by
  unfold skip
  rw [List.dropWhile_cons]

variable {t : Token} {ts rest : List Token}

@[simp] theorem skip_cons_of_not_trivia (h : t.isTrivia = false) (ts : List Token) : skip (t :: ts) = t :: ts := by
  rw [skip_cons, h]
  rfl

@[simp] theorem skip_cons_of_trivia (h : t.isTrivia = true) (ts : List Token) : skip (t :: ts) = skip ts := by
  rw [skip_cons, h]
  rfl

@[simp] theorem next_cons_of_not_trivia (h : t.isTrivia = false) (ts : List Token) : next (t :: ts) = t.terminal := by
  unfold next
  rw [skip_cons_of_not_trivia h]
  rfl

@[simp] theorem next_cons_of_trivia (h : t.isTrivia = true) (ts : List Token) : next (t :: ts) = next ts := by
  unfold next
  rw [skip_cons_of_trivia h]

theorem next_eq_of_skip (h : skip ts = t :: rest) : next ts = t.terminal := by
  unfold next
  rw [h]
  rfl

theorem not_trivia_of_skip (h : skip ts = t :: rest) : t.isTrivia = false := by
  induction ts with
  | nil => cases h
  | cons s ts ih =>
    rw [skip_cons] at h
    split at h
    · exact ih h
    · injection h with hs
      subst hs
      simpa using ‹¬s.isTrivia = true›

theorem exists_skip_of_next {ts : List Token} {terminal : Terminal} (h : next ts = terminal)
    (hne : terminal ≠ .endOfFile) : ∃ t rest, skip ts = t :: rest ∧ t.terminal = terminal := by
  unfold next at h
  cases hs : skip ts with
  | nil =>
    rw [hs] at h
    exact absurd h.symm hne
  | cons t rest =>
    rw [hs] at h
    exact ⟨t, rest, rfl, h⟩

theorem skip_suffix (ts : List Token) : skip ts <:+ ts :=
  List.dropWhile_suffix isTrivia

/-! ## Weight -/

def weightOf (ts : List Token) : Nat :=
  ts.foldr (fun t n => t.weight + n) 0

@[simp] theorem weightOf_nil : weightOf [] = 0 := rfl

@[simp] theorem weightOf_cons (t : Token) (ts : List Token) : weightOf (t :: ts) = t.weight + weightOf ts := rfl

@[simp] theorem weightOf_append (a b : List Token) : weightOf (a ++ b) = weightOf a + weightOf b := by
  induction a with
  | nil => exact (Nat.zero_add _).symm
  | cons t a ih => rw [List.cons_append, weightOf_cons, weightOf_cons, ih, Nat.add_assoc]

@[simp] theorem bare_weight (t : Token) : t.bare.weight = t.weight := rfl

theorem weightOf_reverse (ts : List Token) : weightOf ts.reverse = weightOf ts := by
  induction ts with
  | nil => rfl
  | cons t ts ih =>
    rw [List.reverse_cons, weightOf_append, ih, weightOf_cons, weightOf_cons, weightOf_nil]
    omega

theorem weightOf_map_bare (ts : List Token) : weightOf (ts.map bare) = weightOf ts := by
  induction ts with
  | nil => rfl
  | cons t ts ih => rw [List.map_cons, weightOf_cons, weightOf_cons, ih, bare_weight]

@[simp] theorem weight_ofText (value : String) : (ofText value).weight = 1 + value.length := rfl

theorem weight_pos (t : Token) : 0 < t.weight := by
  unfold weight
  split
  · exact Nat.lt_of_lt_of_le Nat.zero_lt_one (Nat.le_add_right 1 _)
  · exact Nat.zero_lt_one

theorem weightOf_le_of_suffix {rest ts : List Token} (h : rest <:+ ts) : weightOf rest ≤ weightOf ts := by
  obtain ⟨taken, rfl⟩ := h
  rw [weightOf_append]
  exact Nat.le_add_left _ _

theorem length_lt_of_skip (h : skip ts = t :: rest) : rest.length < ts.length := by
  have hle := (skip_suffix ts).length_le
  rw [h, List.length_cons] at hle
  exact hle

theorem suffix_of_skip (h : skip ts = t :: rest) : rest <:+ ts :=
  (List.suffix_cons t rest).trans (h ▸ skip_suffix ts)

end Token

end Trellis
