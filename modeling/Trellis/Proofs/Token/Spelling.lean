import Trellis.Proofs.Token.Sound

/-!
# Characters that spell tokens

A layout writes tokens one behind the other, with blanks, line ends and indentation between them, and the
question is whether scanning finds the same tokens again. What a lexeme is depends on what follows it: a word
goes on as long as there are letters, and a point behind a number may belong to it. So everything here is
said of characters in front of others.

A keyword is written with its canonical name, and what that word is depends on the table of keywords. So the
tokens that are found are the written ones after `Token.respelled`, which is no change where the table has
the canonical names.

`Scan.Spells kw sure owed cs ts rest` says that in front of `rest` the characters `cs` are read as the tokens `ts`,
where the brackets `owed` are still open. Pieces of a line are put together by `Spells.append`, and brackets
around a piece by `Spells.bracketed`. `Scan.Lines` says the same of whole lines. There blank lines matter:
they are tokens outside of brackets only, and only behind a line that is not blank, so it is part of the
relation whether the lines start with a blank one.
-/

namespace Trellis

/-! ## Lexemes -/

theorem Layout.exists_of_isBareKey {word : String} (h : Layout.isBareKey word = true) :
    ∃ c cs, word.toList = c :: cs ∧ Text.startsWord c = true ∧ cs.all Text.continuesWord = true := by
  unfold Layout.isBareKey at h
  cases hchars : word.toList with
  | nil =>
    rw [hchars] at h
    cases h
  | cons c cs =>
    rw [hchars] at h
    exact ⟨c, cs, rfl, Bool.and_eq_true_iff.mp h⟩

namespace Symbol

/-- **What must not follow a symbol**: the character that would make it a longer one. -/
def Ends (s : Symbol) (rest : List Char) : Prop :=
  match s with
  | .dot => rest.head? ≠ some '.'
  | .assign => rest.head? ≠ some '='
  | .bang => rest.head? ≠ some '='
  | .greater => rest.head? ≠ some '='
  | .less => rest.head? ≠ some '='
  | _ => True

end Symbol

variable {text : String}

namespace Lexeme

variable {rest : List Char}

theorem read_symbol (s : Symbol) (h : s.Ends rest) :
    ∃ c cs, s.text.toList = c :: cs ∧ read c (cs ++ rest) = ⟨.symbol s, c :: cs, rest⟩ := by
  cases s <;>
    first
    | exact ⟨_, [], rfl, rfl⟩
    | exact ⟨_, [_], rfl, rfl⟩
    | exact ⟨_, [], rfl, readPair_short h⟩

theorem read_word {word : String} (hword : Layout.isBareKey word = true) (hrest : wordEnds rest = true) :
    ∃ c cs, word.toList = c :: cs ∧ read c (cs ++ rest) = ⟨.word, c :: cs, rest⟩ := by
  obtain ⟨c, cs, hchars, hstarts, hcontinues⟩ := Layout.exists_of_isBareKey hword
  exact ⟨c, cs, hchars, (Reads.word hstarts hcontinues hrest).read_eq⟩

theorem read_quoted (h : IsQuotable text.toList) :
    ∃ c cs, (Layout.quoted text).toList = c :: cs ∧ read c (cs ++ rest) = ⟨.text text.toList, c :: cs, rest⟩ := by
  unfold Layout.quoted
  cases hdouble : text.toList.contains '\x22' with
  | true =>
    refine ⟨'\x27', text.toList ++ ['\x27'], by simp, ?_⟩
    rw [List.append_assoc]
    exact readText_quoted (h.2 (by simpa using hdouble)) h.1
  | false =>
    refine ⟨'\x22', text.toList ++ ['\x22'], by simp, ?_⟩
    rw [List.append_assoc]
    exact readText_quoted (by simpa using hdouble) h.1

theorem read_comment {text : List Char} (h : IsComment text) (hrest : rest.head?.all (· == '\n') = true) :
    ∃ c cs, text = c :: cs ∧ read c (cs ++ rest) = ⟨.comment, c :: cs, rest⟩ := by
  obtain ⟨body, rfl, hbody⟩ := h
  exact ⟨'#', body, rfl, hbody rest hrest⟩

end Lexeme

/-! ## Tokens that are found -/

namespace Token

def isComment (t : Token) : Bool :=
  t.terminal == .comment

def comments (ts : List Token) : List String :=
  (ts.filter isComment).map lexeme

theorem comments_append (ts us : List Token) : comments (ts ++ us) = comments ts ++ comments us := by
  rw [comments, List.filter_append, List.map_append, comments, comments]

@[simp] theorem comments_map_bare (ts : List Token) : comments (ts.map bare) = comments ts := by
  rw [comments, List.filter_map, List.map_map]
  rfl

/-- **What a table makes of a token**: the canonical name of a keyword is a word like any other. -/
def respelled (kw : KeywordTable) (t : Token) : Token :=
  match t.kind with
  | .keyword k => if t.lexeme = k.text then { t with kind := (ofWord kw t.lexeme).kind } else t
  | _ => t

variable (kw : KeywordTable)

@[simp] theorem respelled_ofSymbol (s : Symbol) : (ofSymbol s).respelled kw = ofSymbol s := rfl

@[simp] theorem respelled_blankLine : blankLine.respelled kw = blankLine := rfl

theorem respelled_ofKeyword (k : Keyword) : (ofKeyword k).respelled kw = ofWord kw k.text := by
  simp only [respelled, ofKeyword, if_true]
  unfold ofWord
  cases kw.find? k.text <;> rfl

theorem respelled_ofWord (word : String) : (ofWord kw word).respelled kw = ofWord kw word := by
  unfold ofWord
  cases hfind : kw.find? word with
  | none => rfl
  | some k =>
    simp only [respelled, ofWord, hfind]
    exact ite_self _

theorem comments_ofWord (word : String) : comments [ofWord kw word] = [] := by
  unfold ofWord
  cases kw.find? word <;> rfl

theorem comments_respelled (t : Token) : comments [t.respelled kw] = comments [t] := by
  obtain ⟨kind, lexeme, span⟩ := t
  cases kind with
  | keyword k =>
    unfold respelled
    dsimp only
    split
    · unfold ofWord
      cases kw.find? lexeme <;> rfl
    · rfl
  | _ => rfl

/-- **What is found where tokens were written.** If the text is *sure*, it is what the table makes of them. In any
case it has the same comments. -/
structure Found (sure : Bool) (ts us : List Token) : Prop where
  comments : comments us = comments ts
  same : sure = true → us = ts.map (respelled kw)

variable {kw} {sure : Bool} {ts us ts' us' : List Token}

theorem Found.nil : Found kw sure [] [] :=
  ⟨rfl, fun _ => rfl⟩

theorem Found.single {t u : Token} (h : u = t.respelled kw) : Found kw sure [t] [u] :=
  ⟨h ▸ comments_respelled kw t, fun _ => congrArg ([·]) h⟩

theorem Found.append (h : Found kw sure ts us) (h' : Found kw sure ts' us') :
    Found kw sure (ts ++ ts') (us ++ us') :=
  ⟨by rw [comments_append, comments_append, h.comments, h'.comments],
    fun hsure => by rw [h.same hsure, h'.same hsure, List.map_append]⟩

end Token

/-! ## Pieces of a line -/

namespace Scan

/-- **A scan that has moved on to the rest** and has found the given tokens on the way. -/
structure Moved (kw : KeywordTable) (sure : Bool) (s : Scan) (cs : List Char) (ts : List Token) (rest : List Char)
    (s' : Scan) : Prop where
  run : s.run kw (cs ++ rest) = s'.run kw rest
  owed : s'.owed = s.owed
  faults : s'.faults = s.faults
  tokens : ∃ us, s'.tokens.map Token.bare = us.reverse ++ s.tokens.map Token.bare ∧ Token.Found kw sure ts us

theorem Moved.refl (kw : KeywordTable) (sure : Bool) (s : Scan) (rest : List Char) : s.Moved kw sure [] [] rest s :=
  ⟨rfl, rfl, rfl, [], rfl, .nil⟩

variable {kw : KeywordTable} {sure : Bool}

theorem Moved.trans {s s' s'' : Scan} {a b rest : List Char} {ts us : List Token}
    (h : s.Moved kw sure a ts (b ++ rest) s') (h' : s'.Moved kw sure b us rest s'') :
    s.Moved kw sure (a ++ b) (ts ++ us) rest s'' := by
  obtain ⟨found, htokens, hfound⟩ := h.tokens
  obtain ⟨found', htokens', hfound'⟩ := h'.tokens
  refine ⟨?_, h'.owed.trans h.owed, h'.faults.trans h.faults, found ++ found', ?_, hfound.append hfound'⟩
  · rw [List.append_assoc, h.run, h'.run]
  · rw [htokens', htokens, List.reverse_append, List.append_assoc]

def Settled (s : Scan) : Prop :=
  s.content = true → s.behindBlank = false

/-- **Characters that are read as the given tokens** in front of the rest, where some brackets are open. -/
def Spells (kw : KeywordTable) (sure : Bool) (owed : List Symbol) (cs : List Char) (ts : List Token)
    (rest : List Char) : Prop :=
  ∀ s : Scan, s.owed = owed → s.Settled → ∃ s', s.Moved kw sure cs ts rest s' ∧
    s'.content = (s.content || !ts.isEmpty) ∧ s'.Settled

variable {owed : List Symbol} {s : Scan}

theorem Settles.opener {x : Lexeme} {opener closer : Symbol} {faults : List LocatedScanFault}
    (h : s.Settles x (.symbol opener) owed faults) (opens : opener.closer? = some closer) :
    owed = closer :: s.owed ∧ faults = s.faults := by
  have notCloser : opener.isCloser = false := by cases opener <;> first | rfl | cases opens
  cases h with
  | opens h =>
    cases h.symm.trans opens
    exact ⟨rfl, rfl⟩
  | closes h => simp [notCloser] at h
  | unmatched h => simp [notCloser] at h
  | keeps h => simp [(h _ rfl).1] at opens

theorem Settles.closer {x : Lexeme} {closer : Symbol} {owed others : List Symbol} {faults : List LocatedScanFault}
    (h : s.Settles x (.symbol closer) owed faults) (closes : closer.isCloser = true)
    (owes : s.owed = closer :: others) : owed = others ∧ faults = s.faults := by
  cases h with
  | opens h => cases closer <;> cases closes <;> cases h
  | closes _ owed =>
    cases owed.symm.trans owes
    exact ⟨rfl, rfl⟩
  | unmatched _ h => simp [owes] at h
  | keeps h => simp [(h _ rfl).2] at closes

theorem exists_token (kw : KeywordTable) (s : Scan) {c : Char} {cs : List Char} {x : Lexeme} {kind : TokenKind}
    (hread : Lexeme.read c cs = x) (hkind : x.tokenKind? kw = some kind) :
    ∃ owed faults, s.Settles x kind owed faults ∧ s.run kw (c :: cs) =
      run kw ⟨s.position.after x.text, true, owed,
        ⟨kind, String.ofList x.text, s.position.span x.text.length⟩ :: s.tokens, faults⟩ x.rest := by
  have steps := steps_step kw s c cs
  rw [Scan.run]
  simp only [hread] at steps ⊢
  generalize s.step kw c x = s' at steps ⊢
  cases steps with
  | token h settles =>
    cases h.symm.trans hkind
    exact ⟨_, _, settles, rfl⟩
  | mark h => simp [Lexeme.tokenKind?, h] at hkind
  | line h => simp [Lexeme.tokenKind?, h] at hkind
  | blank h => simp [Lexeme.tokenKind?, h] at hkind
  | fault h => simp [Lexeme.tokenKind?, h] at hkind

theorem exists_symbol (kw : KeywordTable) (s : Scan) {symbol : Symbol} {rest : List Char} (hends : symbol.Ends rest) :
    ∃ (s' : Scan) (x : Lexeme) (span : Span), s.run kw (symbol.text.toList ++ rest) = s'.run kw rest ∧
      s.Settles x (.symbol symbol) s'.owed s'.faults ∧ s'.content = true ∧
      s'.tokens = ⟨.symbol symbol, symbol.text, span⟩ :: s.tokens := by
  obtain ⟨c, cs, hchars, hread⟩ := Lexeme.read_symbol symbol hends
  obtain ⟨owed, faults, settles, hrun⟩ := exists_token kw s hread rfl
  rw [← hchars, String.ofList_toList] at hrun
  rw [hchars]
  exact ⟨_, _, _, hrun, settles, rfl, rfl⟩

namespace Spells

variable {kw : KeywordTable} {sure : Bool} {owed : List Symbol} {a b cs rest : List Char} {ts us : List Token}

theorem nil : Spells kw sure owed [] [] rest :=
  fun s _ hs => ⟨s, .refl kw sure s rest, by simp, hs⟩

theorem append (h : Spells kw sure owed a ts (b ++ rest)) (h' : Spells kw sure owed b us rest) :
    Spells kw sure owed (a ++ b) (ts ++ us) rest := by
  intro s howed hs
  obtain ⟨s₁, hmoved, hcontent, hs₁⟩ := h s howed hs
  obtain ⟨s₂, hmoved', hcontent', hs₂⟩ := h' s₁ (hmoved.owed.trans howed) hs₁
  refine ⟨s₂, hmoved.trans hmoved', ?_, hs₂⟩
  rw [hcontent', hcontent, Bool.or_assoc]
  cases ts <;> simp

theorem blank : Spells kw sure owed [' '] [] rest := by
  intro s howed hs
  have hread : Lexeme.read ' ' rest = ⟨.blank, [' '], rest⟩ := rfl
  refine ⟨s.step kw ' ' ⟨.blank, [' '], rest⟩, ⟨?_, rfl, rfl, [], rfl, .nil⟩, rfl, ?_⟩
  · rw [List.singleton_append, Scan.run]
    simp only [hread]
  · intro hcontent
    exact hs (by simpa [Scan.step, Scan.take, Text.isBlank] using hcontent)

theorem of_lexeme {c : Char} {lexeme : LexemeKind} {kind : TokenKind} {t : Token}
    (hread : Lexeme.read c (cs ++ rest) = ⟨lexeme, c :: cs, rest⟩)
    (hkind : (Lexeme.mk lexeme (c :: cs) rest).tokenKind? kw = some kind)
    (hplain : ∀ symbol, kind = .symbol symbol → symbol.closer? = none ∧ symbol.isCloser = false)
    (ht : ⟨kind, String.ofList (c :: cs), {}⟩ = t.respelled kw) : Spells kw sure owed (c :: cs) [t] rest := by
  intro s howed hs
  obtain ⟨owed', faults, settles, hrun⟩ := exists_token kw s hread hkind
  obtain ⟨rfl, rfl⟩ : owed' = s.owed ∧ faults = s.faults := by
    cases settles with
    | opens h => simp [(hplain _ rfl).1] at h
    | closes h => simp [(hplain _ rfl).2] at h
    | unmatched h => simp [(hplain _ rfl).2] at h
    | keeps => exact ⟨rfl, rfl⟩
  refine ⟨_, ⟨hrun, rfl, rfl, [_], rfl, .single ht⟩, by simp, fun _ => ?_⟩
  exact (Lexeme.isMark_of_tokenKind? hkind _ _).1

theorem symbol (symbol : Symbol) (hends : symbol.Ends rest) (hopens : symbol.closer? = none)
    (hcloses : symbol.isCloser = false) :
    Spells kw sure owed symbol.text.toList [.ofSymbol symbol] rest := by
  obtain ⟨c, cs, hchars, hread⟩ := Lexeme.read_symbol symbol hends
  rw [hchars]
  refine of_lexeme hread rfl (fun _ heq => ?_) ?_
  · cases heq
    exact ⟨hopens, hcloses⟩
  · rw [← hchars, String.ofList_toList]
    rfl

theorem bracketed (opener : Symbol) {closer : Symbol} (hopens : opener.closer? = some closer)
    (h : Spells kw sure (closer :: owed) cs ts (closer.text.toList ++ rest)) :
    Spells kw sure owed (opener.text.toList ++ (cs ++ closer.text.toList))
      (.ofSymbol opener :: (ts ++ [.ofSymbol closer])) rest := by
  intro s howed hs
  have hbefore : ∀ rest, opener.Ends rest := by cases opener <;> first | exact fun _ => trivial | cases hopens
  have hbehind : closer.Ends rest ∧ closer.isCloser = true := by
    cases opener <;> first | cases hopens; exact ⟨trivial, rfl⟩ | cases hopens
  obtain ⟨s₁, _, span₁, hrun₁, settles₁, -, htokens₁⟩ :=
    exists_symbol kw s (hbefore (cs ++ (closer.text.toList ++ rest)))
  obtain ⟨howed₁, hfaults₁⟩ := settles₁.opener hopens
  obtain ⟨s₂, hmoved, -, -⟩ := h s₁ (howed₁.trans (congrArg _ howed)) fun _ => by rw [behindBlank, htokens₁]; rfl
  obtain ⟨s₃, _, span₃, hrun₃, settles₃, hcontent, htokens₃⟩ := exists_symbol kw s₂ hbehind.1
  obtain ⟨howed₃, hfaults₃⟩ := settles₃.closer hbehind.2 (hmoved.owed.trans howed₁)
  obtain ⟨us, htokens, hfound⟩ := hmoved.tokens
  refine ⟨s₃, ⟨?_, howed₃, ?_, .ofSymbol opener :: (us ++ [.ofSymbol closer]), ?_, ?_⟩, by simp [hcontent], fun _ => ?_⟩
  · rw [List.append_assoc, List.append_assoc, hrun₁, hmoved.run, hrun₃]
  · rw [hfaults₃, hmoved.faults, hfaults₁]
  · simp [htokens₃, htokens, htokens₁, Token.bare, Token.ofSymbol]
  · have opened : Token.Found kw sure [.ofSymbol opener] [.ofSymbol opener] := .single rfl
    exact opened.append (hfound.append (.single rfl))
  · rw [behindBlank, htokens₃]
    rfl

theorem found (h : Spells kw sure owed cs us rest) (hus : us.isEmpty = false ∧ Token.comments us = [])
    (hts : ts.isEmpty = false ∧ Token.comments ts = [])
    (hsame : sure = true → us.map (Token.respelled kw) = ts.map (Token.respelled kw)) :
    Spells kw sure owed cs ts rest := by
  intro s howed hs
  obtain ⟨s', hmoved, hcontent, hs'⟩ := h s howed hs
  obtain ⟨found, htokens, hfound⟩ := hmoved.tokens
  refine ⟨s', ⟨hmoved.run, hmoved.owed, hmoved.faults, found, htokens, ?_⟩, by rw [hcontent, hus.1, hts.1], hs'⟩
  exact ⟨hfound.comments.trans (hus.2.trans hts.2.symm), fun hsure => (hfound.same hsure).trans (hsame hsure)⟩

theorem word {word : String} (hword : Layout.isBareKey word = true)
    (hrest : Lexeme.wordEnds rest = true) : Spells kw sure owed word.toList [.ofWord kw word] rest := by
  obtain ⟨c, cs, hchars, hread⟩ := Lexeme.read_word hword hrest
  have hlexeme : String.ofList (c :: cs) = word := by rw [← hchars, String.ofList_toList]
  rw [hchars]
  cases hfind : kw.find? word with
  | none =>
    have hkind : (Lexeme.mk .word (c :: cs) rest).tokenKind? kw = some .name := by
      simp only [Lexeme.tokenKind?, hlexeme, hfind]
    refine of_lexeme hread hkind (by rintro _ ⟨⟩) ?_
    rw [Token.respelled_ofWord, Token.ofWord, hfind, hlexeme]
    rfl
  | some k =>
    have hkind : (Lexeme.mk .word (c :: cs) rest).tokenKind? kw = some (.keyword k) := by
      simp only [Lexeme.tokenKind?, hlexeme, hfind]
    refine of_lexeme hread hkind (by rintro _ ⟨⟩) ?_
    rw [Token.respelled_ofWord, Token.ofWord, hfind, hlexeme]

theorem keyword (k : Keyword) (hrest : Lexeme.wordEnds rest = true) :
    Spells kw sure owed k.text.toList [.ofKeyword k] rest := by
  have hword : Layout.isBareKey k.text = true := by cases k <;> rfl
  refine (word hword hrest).found ⟨rfl, Token.comments_ofWord kw _⟩ ⟨rfl, rfl⟩ fun _ => ?_
  rw [List.map_singleton, List.map_singleton, Token.respelled_ofWord, Token.respelled_ofKeyword]

theorem quoted (h : IsQuotable text.toList) :
    Spells kw sure owed (Layout.quoted text).toList [.ofText text] rest := by
  obtain ⟨c, cs, hchars, hread⟩ := Lexeme.read_quoted h
  rw [hchars]
  refine of_lexeme hread rfl nofun ?_
  rw [← hchars, String.ofList_toList, String.ofList_toList]
  rfl

theorem comment (h : IsComment text.toList) (hrest : rest.head?.all (· == '\n') = true) :
    Spells kw sure owed text.toList [.ofComment text] rest := by
  obtain ⟨c, cs, hchars, hread⟩ := Lexeme.read_comment h hrest
  rw [hchars]
  refine of_lexeme hread rfl nofun ?_
  rw [← hchars, String.ofList_toList]
  rfl

end Spells

/-! ## Lines -/

/-- **Lines that are read as the given tokens** in front of the rest, where some brackets are open. If the
first line may be blank, a token that is no blank line has to stand in front of it. -/
def Lines (kw : KeywordTable) (sure : Bool) (owed : List Symbol) (blankFirst : Bool) (cs : List Char)
    (ts : List Token) (rest : List Char) : Prop :=
  ∀ s : Scan, s.owed = owed → s.content = false → (blankFirst = true → s.behindBlank = false) →
    ∃ s', s.Moved kw sure cs ts rest s' ∧ s'.content = false

theorem marksBlankLine_eq (hcontent : s.content = false) (hbehind : s.behindBlank = false) :
    s.marksBlankLine = s.owed.isEmpty := by
  rw [Bool.eq_iff_iff, marksBlankLine_iff]
  simp [hcontent, hbehind]

theorem exists_endLine (kw : KeywordTable) (sure : Bool) (rest : List Char) (hcontent : s.content = true)
    (hs : s.Settled) : ∃ s', s.Moved kw sure ['\n'] [] rest s' ∧ s'.content = false ∧ s'.behindBlank = false := by
  have hread : Lexeme.read '\n' rest = ⟨.newline, ['\n'], rest⟩ := rfl
  have hmarks : marksBlankLine { s with content := s.content || !Text.isBlank '\n' } = false := by
    simp [marksBlankLine, hcontent]
  have htake : take kw { s with content := s.content || !Text.isBlank '\n' } ⟨.newline, ['\n'], rest⟩ =
      { s with content := false } := by
    simp only [take, endLine, hmarks]
    rfl
  refine ⟨s.step kw '\n' ⟨.newline, ['\n'], rest⟩, ⟨?_, ?_, ?_, [], ?_, .nil⟩, ?_, ?_⟩
  · rw [List.singleton_append, Scan.run]
    simp only [hread]
  all_goals rw [step, htake]
  · rfl
  · exact hs hcontent

theorem Spells.exists_moved {p : Bool} {a b rest : List Char} {ts us : List Token}
    (h : Spells kw sure owed a ts ('\n' :: (b ++ rest))) (hts : ts ≠ []) (h' : Lines kw sure owed p b us rest)
    (s : Scan) (howed : s.owed = owed) (hs : s.Settled) :
    ∃ s', s.Moved kw sure (a ++ '\n' :: b) (ts ++ us) rest s' ∧ s'.content = false := by
  obtain ⟨s₁, hmoved₁, hcontent₁, hs₁⟩ := h s howed hs
  have hholds : s₁.content = true := by
    rw [hcontent₁]
    cases ts with
    | nil => exact absurd rfl hts
    | cons _ _ => exact Bool.or_true _
  obtain ⟨s₂, hmoved₂, hcontent₂, hbehind⟩ := exists_endLine kw sure (b ++ rest) hholds hs₁
  obtain ⟨s₃, hmoved₃, hcontent₃⟩ :=
    h' s₂ ((hmoved₂.owed.trans hmoved₁.owed).trans howed) hcontent₂ fun _ => hbehind
  exact ⟨s₃, hmoved₁.trans (hmoved₂.trans hmoved₃), hcontent₃⟩

namespace Lines

variable {kw : KeywordTable} {sure : Bool} {owed : List Symbol} {p : Bool} {a b c rest : List Char}
  {ts us vs : List Token}

theorem nil : Lines kw sure owed p [] [] rest :=
  fun s _ hcontent _ => ⟨s, .refl kw sure s rest, hcontent⟩

theorem append (h : Lines kw sure owed p a ts (b ++ rest)) (h' : Lines kw sure owed false b us rest) :
    Lines kw sure owed p (a ++ b) (ts ++ us) rest := by
  intro s howed hcontent hblank
  obtain ⟨s₁, hmoved, hcontent₁⟩ := h s howed hcontent hblank
  obtain ⟨s₂, hmoved', hcontent₂⟩ := h' s₁ (hmoved.owed.trans howed) hcontent₁ (by rintro ⟨⟩)
  exact ⟨s₂, hmoved.trans hmoved', hcontent₂⟩

theorem line (h : Spells kw sure owed a ts ('\n' :: (b ++ rest))) (hts : ts ≠ [])
    (h' : Lines kw sure owed p b us rest) : Lines kw sure owed false (a ++ '\n' :: b) (ts ++ us) rest :=
  fun s howed hcontent _ => h.exists_moved hts h' s howed fun heq => by
    rw [hcontent] at heq
    cases heq

theorem blankLine (h : Lines kw sure owed false b us rest) :
    Lines kw sure owed true ('\n' :: b) ((if owed.isEmpty then [.blankLine] else []) ++ us) rest := by
  intro s howed hcontent hblank
  have hread : Lexeme.read '\n' (b ++ rest) = ⟨.newline, ['\n'], b ++ rest⟩ := rfl
  have hmarks : marksBlankLine { s with content := s.content || !Text.isBlank '\n' } = owed.isEmpty := by
    rw [← howed]
    exact marksBlankLine_eq (by rw [hcontent]; rfl) (hblank rfl)
  have htake : take kw { s with content := s.content || !Text.isBlank '\n' }
      ⟨.newline, ['\n'], b ++ rest⟩ =
      { s with
        content := false
        tokens := (if owed.isEmpty then [⟨.blankLine, "", ⟨s.position.line, 1, 0⟩⟩] else []) ++ s.tokens } := by
    simp only [take, endLine, hmarks]
    cases owed <;> rfl
  obtain ⟨s₂, hmoved, hcontent₂⟩ := h (s.step kw '\n' ⟨.newline, ['\n'], b ++ rest⟩)
    (by rw [step, htake]; exact howed) (by rw [step, htake]) (by rintro ⟨⟩)
  obtain ⟨found, htokens, hfound⟩ := hmoved.tokens
  refine ⟨s₂, ⟨?_, ?_, ?_, (if owed.isEmpty then [.blankLine] else []) ++ found, ?_, ?_⟩, hcontent₂⟩
  · rw [List.cons_append, Scan.run]
    simp only [hread]
    exact hmoved.run
  · rw [hmoved.owed, step, htake]
  · rw [hmoved.faults, step, htake]
  · rw [htokens, step, htake]
    cases owed <;> simp [Token.bare, Token.blankLine]
  · refine .append ?_ hfound
    cases owed with
    | nil => exact .single rfl
    | cons _ _ => exact .nil

end Lines

theorem Spells.lines {p : Bool} {a b c rest : List Char} {ts us vs : List Token}
    (ha : Spells kw sure owed a ts ('\n' :: (b ++ (c ++ rest)))) (hts : ts ≠ [])
    (hb : Lines kw sure owed p b us (c ++ rest)) (hc : Spells kw sure owed c vs rest) (hvs : vs ≠ []) :
    Spells kw sure owed (a ++ '\n' :: (b ++ c)) (ts ++ (us ++ vs)) rest := by
  intro s howed hs
  obtain ⟨s₁, hmoved₁, hcontent₁⟩ := ha.exists_moved hts hb s howed hs
  obtain ⟨s₂, hmoved₂, hcontent₂, hs₂⟩ := hc s₁ (hmoved₁.owed.trans howed) fun heq => by
    rw [hcontent₁] at heq
    cases heq
  have hmoved := hmoved₁.trans hmoved₂
  rw [List.append_assoc, List.append_assoc, List.cons_append] at hmoved
  refine ⟨s₂, hmoved, ?_, hs₂⟩
  rw [hcontent₂]
  cases vs with
  | nil => exact absurd rfl hvs
  | cons _ _ => simp

end Scan

end Trellis
