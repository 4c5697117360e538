import Trellis.Token.Lexeme

/-!
# The forms of lexemes

What a lexeme is depends on what follows it: a word goes on as long as there are letters, a point behind a number may
belong to it, and a comment between marks goes as far as to the first closing mark. `Lexeme.Reads` lists the forms of
lexemes, each with the condition on what is behind it. Every lexeme that is read has one of these forms (`reads_read`),
and what has one of them is read so, unless it is a fault (`Reads.read_eq`).
-/

namespace Trellis

variable {c : Char}

namespace Text

def blanks : List Char :=
  [9, 10, 11, 12, 13, 32, 0x85, 0xA0, 0x1680, 0x2000, 0x2001, 0x2002, 0x2003, 0x2004, 0x2005, 0x2006,
    0x2007, 0x2008, 0x2009, 0x200A, 0x2028, 0x2029, 0x202F, 0x205F, 0x3000].map Char.ofNat

theorem mem_blanks (h : isBlank c = true) : c ∈ blanks := by
  have hc : c = Char.ofNat c.toNat := (Char.ofNat_toNat c).symm
  simp only [isBlank, Bool.or_eq_true, Bool.and_eq_true, decide_eq_true_eq, beq_iff_eq] at h
  have hn : c.toNat ∈ [9, 10, 11, 12, 13, 32, 0x85, 0xA0, 0x1680, 0x2000, 0x2001, 0x2002, 0x2003, 0x2004,
      0x2005, 0x2006, 0x2007, 0x2008, 0x2009, 0x200A, 0x2028, 0x2029, 0x202F, 0x205F, 0x3000] := by
    simp only [List.mem_cons, List.not_mem_nil]
    omega
  rw [hc]
  exact List.mem_map_of_mem hn

theorem isBlank_of_startsWord (h : startsWord c = true) : isBlank c = false := by
  cases hblank : isBlank c with
  | false => rfl
  | true =>
    have hall : blanks.all (fun c => !startsWord c) = true := by decide +kernel
    have hc := List.all_eq_true.mp hall c (mem_blanks hblank)
    rw [h] at hc
    cases hc

theorem mem_digits (h : c.isDigit = true) : c ∈ "0123456789".toList := by
  simp only [Char.isDigit, Bool.and_eq_true, decide_eq_true_eq, ge_iff_le, UInt32.le_iff_toNat_le] at h
  have hc : c = Char.ofNat c.toNat := (Char.ofNat_toNat c).symm
  have hn : c.toNat ∈ [48, 49, 50, 51, 52, 53, 54, 55, 56, 57] := by
    have hlow : 48 ≤ c.toNat := h.1
    have hhigh : c.toNat ≤ 57 := h.2
    simp only [List.mem_cons, List.not_mem_nil]
    omega
  rw [hc]
  exact List.mem_map_of_mem (f := Char.ofNat) hn

theorem digits_plain : ∀ c ∈ "0123456789".toList, continuesWord c = true ∧ startsWord c = false ∧
    isBlank c = false ∧ Symbol.single? c = none ∧ Symbol.pair? c = none ∧ c ≠ '#' ∧ c ≠ '\n' ∧
    c ≠ '\x22' ∧ c ≠ '\x27' := by
  have hall : "0123456789".toList.all (fun c => continuesWord c && !startsWord c && !isBlank c &&
      (Symbol.single? c).isNone && (Symbol.pair? c).isNone && c != '#' && c != '\n' && c != '\x22' &&
      c != '\x27') = true := by
    decide +kernel
  intro c hc
  have hplain := List.all_eq_true.mp hall c hc
  simp only [Bool.and_eq_true, Bool.not_eq_true', Option.isNone_iff_eq_none, bne_iff_ne] at hplain
  obtain ⟨⟨⟨⟨⟨⟨⟨⟨hword, hstarts⟩, hblank⟩, hsingle⟩, hpair⟩, hhash⟩, hnewline⟩, hdouble⟩, hquote⟩ := hplain
  exact ⟨hword, hstarts, hblank, hsingle, hpair, hhash, hnewline, hdouble, hquote⟩

theorem isDigit_of_startsWord (h : startsWord c = true) : c.isDigit = false := by
  cases hc : c.isDigit with
  | false => rfl
  | true =>
    rw [(digits_plain c (mem_digits hc)).2.1] at h
    cases h

end Text

namespace Symbol

theorem startsWord_of_single? {s : Symbol} (h : single? c = some s) : Text.startsWord c = false := by
  unfold single? at h
  split at h <;> first | rfl | cases h

theorem startsWord_of_pair? {x : Char × Symbol × Symbol} (h : pair? c = some x) : Text.startsWord c = false := by
  unfold pair? at h
  split at h <;> first | rfl | cases h

end Symbol

namespace Lexeme

theorem takeWhile_append_head {p : Char → Bool} {a rest : List Char} (ha : a.all p = true)
    (hrest : rest.head?.all (fun c => !p c) = true) : (a ++ rest).takeWhile p = a := by
  induction a with
  | nil =>
    cases rest with
    | nil => rfl
    | cons c rest =>
      have hc : p c = false := by simpa using hrest
      rw [List.nil_append, List.takeWhile_cons, hc]
      rfl
  | cons c a ih =>
    rw [List.all_cons, Bool.and_eq_true] at ha
    rw [List.cons_append, List.takeWhile_cons, ha.1, if_pos rfl, ih ha.2]

theorem dropWhile_append_head {p : Char → Bool} {a rest : List Char} (ha : a.all p = true)
    (hrest : rest.head?.all (fun c => !p c) = true) : (a ++ rest).dropWhile p = rest := by
  have h := List.takeWhile_append_dropWhile (p := p) (l := a ++ rest)
  rw [takeWhile_append_head ha hrest] at h
  exact List.append_cancel_left h

theorem exists_span (p : Char → Bool) (cs : List Char) :
    ∃ a rest, cs = a ++ rest ∧ a.all p = true ∧ rest.head?.all (fun c => !p c) = true := by
  refine ⟨_, _, (List.takeWhile_append_dropWhile (p := p)).symm, List.all_takeWhile, ?_⟩
  have := List.head?_dropWhile_not (p := p) (l := cs)
  cases h : (cs.dropWhile p).head? with
  | none => rfl
  | some c => simpa [h] using this

variable {rest : List Char} {quote : Char}

theorem readPair_short {c second : Char} {long short : Symbol} (h : rest.head? ≠ some second) :
    readPair c second long short rest = ⟨.symbol short, [c], rest⟩ := by
  unfold readPair
  cases rest with
  | nil => rfl
  | cons d behind =>
    have hd : (d == second) = false := beq_eq_false_iff_ne.mpr fun heq => h (congrArg some heq)
    simp only [hd]
    rfl

theorem all_of_notMem {text : List Char} (hquote : quote ∉ text) (hline : '\n' ∉ text) :
    text.all (fun c => c != quote && c != '\n') = true := by
  rw [List.all_eq_true]
  intro c hc
  rw [Bool.and_eq_true, bne_iff_ne, bne_iff_ne]
  exact ⟨fun heq => hquote (heq ▸ hc), fun heq => hline (heq ▸ hc)⟩

theorem readText_quoted {text : List Char} (hquote : quote ∉ text) (hline : '\n' ∉ text) :
    readText quote (text ++ quote :: rest) = ⟨.text text, quote :: (text ++ [quote]), rest⟩ := by
  have hall := all_of_notMem hquote hline
  have hhead : (quote :: rest).head?.all (fun c => !(c != quote && c != '\n')) = true := by
    simp
  unfold readText
  simp only [takeWhile_append_head hall hhead, dropWhile_append_head hall hhead, beq_self_eq_true, if_true]

theorem exists_commentBody (cs : List Char) :
    (∃ body behind, cs = body ++ '*' :: '#' :: behind ∧
      ∀ rest, commentBody (body ++ '*' :: '#' :: rest) = (body ++ ['*', '#'], some rest)) ∨
      commentBody cs = (cs, none) ∧ ¬ ['*', '#'] <:+: cs := by
  induction cs with
  | nil => exact .inr ⟨rfl, by simp⟩
  | cons c cs ih =>
    by_cases mark : ∃ behind, c = '*' ∧ cs = '#' :: behind
    · obtain ⟨behind, rfl, rfl⟩ := mark
      exact .inl ⟨[], behind, rfl, fun rest => by simp [commentBody]⟩
    · have step (rest : List Char) (h : rest.head? = cs.head?) :
          commentBody (c :: rest) = (c :: (commentBody rest).1, (commentBody rest).2) := by
        rw [commentBody.eq_3]
        rintro behind rfl rfl
        cases cs with
        | nil => cases h
        | cons d cs =>
          cases h
          exact mark ⟨cs, rfl, rfl⟩
      obtain ⟨body, behind, rfl, found⟩ | ⟨none, apart⟩ := ih
      · refine .inl ⟨c :: body, behind, rfl, fun rest => ?_⟩
        rw [List.cons_append, step _ (by cases body <;> rfl), found]
        rfl
      · refine .inr ⟨by rw [step cs rfl, none], fun infix' => ?_⟩
        obtain starts | inside := List.infix_cons_iff.mp infix'
        · obtain ⟨behind, h⟩ := starts
          cases h
          exact mark ⟨behind, rfl, rfl⟩
        · exact apart inside

def IsFraction (cs : List Char) : Prop :=
  cs = [] ∨ ∃ d ds, cs = '.' :: d :: ds ∧ d.isDigit = true ∧ ds.all Char.isDigit = true

/-- **What a number ends at**: no digit follows, and no point with a digit behind it, unless there was one. -/
def NumberEnds (fraction behind : List Char) : Prop :=
  behind.head?.all (fun c => !c.isDigit) = true ∧
    (fraction = [] → ∀ d rest, behind = '.' :: d :: rest → d.isDigit = false)

theorem places_fraction {fraction behind : List Char} (h : IsFraction fraction) (ends : NumberEnds fraction behind) :
    places (fraction ++ behind) = (fraction, behind) := by
  obtain rfl | ⟨d, ds, rfl, hd, hds⟩ := h
  · unfold places
    split
    · rename_i d rest heq
      exact if_neg (by simp [ends.2 rfl d rest heq])
    · rfl
  · simp [places, hd, takeWhile_append_head hds ends.1, dropWhile_append_head hds ends.1]

def ofDigits (number : List Char) : List Char → Lexeme
  | [] => ⟨.number, number, []⟩
  | s :: rest =>
    if Text.startsWord s then
      ⟨.fault (.badSuffix (String.ofList number) s), number ++ (s :: rest).takeWhile Text.continuesWord,
        (s :: rest).dropWhile Text.continuesWord⟩
    else ⟨.number, number, s :: rest⟩

theorem readNumber_digits (c : Char) {whole fraction behind : List Char} (hwhole : whole.all Char.isDigit = true)
    (hfraction : IsFraction fraction) (ends : NumberEnds fraction behind) :
    readNumber c (whole ++ (fraction ++ behind)) = ofDigits (c :: (whole ++ fraction)) behind := by
  have point : (fraction ++ behind).head?.all (fun c => !c.isDigit) = true := by
    obtain rfl | ⟨d, ds, rfl, -⟩ := hfraction
    · exact ends.1
    · rfl
  rw [readNumber, takeWhile_append_head hwhole point, dropWhile_append_head hwhole point, places_fraction hfraction ends]
  cases behind <;> rfl

theorem exists_digits (cs : List Char) : ∃ whole fraction behind, cs = whole ++ (fraction ++ behind) ∧
    whole.all Char.isDigit = true ∧ IsFraction fraction ∧ NumberEnds fraction behind := by
  obtain ⟨whole, rest, rfl, hwhole, hrest⟩ := exists_span Char.isDigit cs
  by_cases point : ∃ d more, rest = '.' :: d :: more ∧ d.isDigit = true
  · obtain ⟨d, more, rfl, hd⟩ := point
    obtain ⟨ds, behind, rfl, hds, hbehind⟩ := exists_span Char.isDigit more
    exact ⟨whole, '.' :: d :: ds, behind, rfl, hwhole, .inr ⟨d, ds, rfl, hd, hds⟩, hbehind, nofun⟩
  · refine ⟨whole, [], rest, rfl, hwhole, .inl rfl, hrest, fun _ d more heq => ?_⟩
    exact Bool.eq_false_iff.mpr fun hd => point ⟨d, more, heq, hd⟩

def wordEnds (rest : List Char) : Bool :=
  rest.head?.all fun c => !Text.continuesWord c

def lineEnds (rest : List Char) : Bool :=
  rest.head?.all (· == '\n')

/-- A character that no lexeme starts with. -/
structure StartsNothing (c : Char) : Prop where
  single : Symbol.single? c = none
  pair : Symbol.pair? c = none
  noMark : c ≠ '#'
  noBlank : Text.isBlank c = false
  noQuote : c ≠ '\x22' ∧ c ≠ '\x27'
  noDigit : c.isDigit = false
  noLetter : Text.startsWord c = false

inductive Reads : Char → List Char → Lexeme → Prop where
  | single {c s behind} (h : Symbol.single? c = some s) :
      Reads c behind ⟨.symbol s, [c], behind⟩
  | long {c second long short behind}
      (h : Symbol.pair? c = some (second, long, short)) :
      Reads c (second :: behind) ⟨.symbol long, [c, second], behind⟩
  | short {c second long short behind}
      (h : Symbol.pair? c = some (second, long, short)) (ends : behind.head? ≠ some second) :
      Reads c behind ⟨.symbol short, [c], behind⟩
  | marked {body behind}
      (h : ∀ rest, commentBody (body ++ '*' :: '#' :: rest) = (body ++ ['*', '#'], some rest)) :
      Reads '#' ('*' :: (body ++ '*' :: '#' :: behind)) ⟨.comment, '#' :: '*' :: (body ++ ['*', '#']), behind⟩
  | line {body behind} (noFeed : '\n' ∉ body) (noMark : body.head? ≠ some '*')
      (ends : lineEnds behind = true) : Reads '#' (body ++ behind) ⟨.comment, '#' :: body, behind⟩
  | openComment {body} (h : ¬ ['*', '#'] <:+: body) :
      Reads '#' ('*' :: body) ⟨.fault .unterminatedComment, '#' :: '*' :: body, []⟩
  | newline {behind} : Reads '\n' behind ⟨.newline, ['\n'], behind⟩
  | blank {c behind} (h : Text.isBlank c = true) (noFeed : c ≠ '\n') :
      Reads c behind ⟨.blank, [c], behind⟩
  | text {quote body behind} (hquote : quote = '\x22' ∨ quote = '\x27') (noQuote : quote ∉ body)
      (noFeed : '\n' ∉ body) :
      Reads quote (body ++ quote :: behind) ⟨.text body, quote :: (body ++ [quote]), behind⟩
  | openText {quote body behind} (hquote : quote = '\x22' ∨ quote = '\x27')
      (noQuote : quote ∉ body) (noFeed : '\n' ∉ body) (ends : lineEnds behind = true) :
      Reads quote (body ++ behind) ⟨.fault .unterminatedText, quote :: body, behind⟩
  | number {c whole fraction behind} (hc : c.isDigit = true) (hwhole : whole.all Char.isDigit = true)
      (hfraction : IsFraction fraction) (ends : NumberEnds fraction behind)
      (noWord : behind.head?.all (fun c => !Text.startsWord c) = true) :
      Reads c (whole ++ (fraction ++ behind)) ⟨.number, c :: (whole ++ fraction), behind⟩
  | badSuffix {c suffix whole fraction tail behind} (hc : c.isDigit = true)
      (hwhole : whole.all Char.isDigit = true) (hfraction : IsFraction fraction) (hword : Text.startsWord suffix = true)
      (htail : tail.all Text.continuesWord = true) (ends : wordEnds behind = true) :
      Reads c (whole ++ (fraction ++ suffix :: (tail ++ behind)))
        ⟨.fault (.badSuffix (String.ofList (c :: (whole ++ fraction))) suffix),
          c :: (whole ++ fraction) ++ suffix :: tail, behind⟩
  | word {c tail behind} (h : Text.startsWord c = true) (htail : tail.all Text.continuesWord = true)
      (ends : wordEnds behind = true) : Reads c (tail ++ behind) ⟨.word, c :: tail, behind⟩
  | stray {c behind} (h : StartsNothing c) : Reads c behind ⟨.fault (.stray c), [c], behind⟩

theorem reads_readPair {c second : Char} {long short : Symbol} (h : Symbol.pair? c = some (second, long, short))
    (rest : List Char) : Reads c rest (readPair c second long short rest) := by
  unfold readPair
  split
  · split
    · rename_i same
      rw [beq_iff_eq.mp same]
      exact .long h
    · rename_i differs
      exact .short h fun heq => differs (beq_iff_eq.mpr (Option.some.inj heq))
  · exact .short h nofun

theorem reads_readComment (rest : List Char) : Reads '#' rest (readComment rest) := by
  unfold readComment
  split
  · rename_i inner
    obtain ⟨body, behind, rfl, found⟩ | ⟨none, apart⟩ := exists_commentBody inner
    · rw [found]
      exact .marked found
    · rw [none]
      exact .openComment apart
  · rename_i noMark
    obtain ⟨body, behind, rfl, hbody, ends⟩ := exists_span (· != '\n') rest
    rw [takeWhile_append_head hbody ends, dropWhile_append_head hbody ends]
    refine .line (fun feed => ?_) (fun heq => ?_) (by simpa [lineEnds, bne] using ends)
    · cases List.all_eq_true.mp hbody _ feed
    · obtain ⟨more, rfl⟩ := List.head?_eq_some_iff.mp heq
      exact noMark _ rfl

theorem reads_readText (hquote : quote = '\x22' ∨ quote = '\x27') (rest : List Char) :
    Reads quote rest (readText quote rest) := by
  obtain ⟨body, behind, rfl, hbody, ends⟩ := exists_span (fun c => c != quote && c != '\n') rest
  have plain (c : Char) (hc : c ∈ body) : c ≠ quote ∧ c ≠ '\n' := by simpa using List.all_eq_true.mp hbody c hc
  have noQuote : quote ∉ body := fun h => (plain _ h).1 rfl
  have noFeed : '\n' ∉ body := fun h => (plain _ h).2 rfl
  rw [readText, takeWhile_append_head hbody ends, dropWhile_append_head hbody ends]
  cases behind with
  | nil => exact .openText hquote noQuote noFeed rfl
  | cons c behind =>
    dsimp only
    split
    · rename_i same
      rw [beq_iff_eq.mp same]
      exact .text hquote noQuote noFeed
    · exact .openText hquote noQuote noFeed (by simp_all [lineEnds])

theorem reads_readNumber (hc : c.isDigit = true) (rest : List Char) : Reads c rest (readNumber c rest) := by
  obtain ⟨whole, fraction, behind, rfl, hwhole, hfraction, ends⟩ := exists_digits rest
  rw [readNumber_digits c hwhole hfraction ends]
  cases behind with
  | nil => exact .number hc hwhole hfraction ends rfl
  | cons s behind =>
    rw [ofDigits]
    split
    · rename_i hs
      obtain ⟨tail, rest, rfl, htail, hrest⟩ := exists_span Text.continuesWord behind
      have hall : (s :: tail).all Text.continuesWord = true := by simp [Text.continuesWord_of_startsWord hs, htail]
      rw [← List.cons_append, takeWhile_append_head hall hrest, dropWhile_append_head hall hrest]
      exact .badSuffix hc hwhole hfraction hs htail hrest
    · exact .number hc hwhole hfraction ends (by simp_all)

theorem reads_read (c : Char) (rest : List Char) : Reads c rest (read c rest) := by
  unfold read
  split
  · rename_i h
    exact .single h
  · split
    · rename_i h
      exact reads_readPair h rest
    · split
      · rename_i h
        exact h ▸ reads_readComment rest
      · split
        · rename_i h
          rw [beq_iff_eq.mp h]
          exact .newline
        · split
          · rename_i noFeed h
            exact .blank h fun heq => noFeed (beq_iff_eq.mpr heq)
          · split
            · rename_i h
              exact reads_readText (by simpa using h) rest
            · split
              · rename_i h
                exact reads_readNumber h rest
              · split
                · rename_i h
                  obtain ⟨tail, behind, rfl, htail, ends⟩ := exists_span Text.continuesWord rest
                  rw [takeWhile_append_head htail ends, dropWhile_append_head htail ends]
                  exact .word h htail ends
                · exact .stray (by constructor <;> simp_all)

theorem Reads.text_eq {rest : List Char} {x : Lexeme} (h : Reads c rest x) : x.text = c :: x.text.tail := by
  cases h <;> rfl

theorem text_append_rest (c : Char) (rest : List Char) : (read c rest).text ++ (read c rest).rest = c :: rest := by
  have h := reads_read c rest
  generalize read c rest = x at h ⊢
  cases h <;> simp

theorem text_ne_nil (c : Char) (rest : List Char) : (read c rest).text ≠ [] :=
  (reads_read c rest).text_eq ▸ List.cons_ne_nil _ _

theorem read_hash (rest : List Char) : read '#' rest = readComment rest := rfl

theorem read_digit (hc : c.isDigit = true) (rest : List Char) : read c rest = readNumber c rest := by
  obtain ⟨-, -, hblank, hsingle, hpair, hhash, hnewline, hdouble, hquote⟩ := Text.digits_plain c (Text.mem_digits hc)
  simp only [read, hsingle, hpair, hhash, hnewline, hblank, hdouble, hquote, hc, beq_iff_eq, Bool.or_eq_true, or_self,
    Bool.false_eq_true, if_false, if_true]

theorem Reads.read_eq {rest : List Char} {x : Lexeme} (h : Reads c rest x) : read c rest = x := by
  cases h with
  | single h => simp only [read, h]
  | long h =>
    unfold Symbol.pair? at h
    split at h <;> cases h <;> rfl
  | short h ends =>
    unfold Symbol.pair? at h
    split at h <;> cases h <;> exact readPair_short ends
  | marked h => rw [read_hash, readComment, h]
  | @line body behind noFeed noMark ends =>
    have hbody : body.all (· != '\n') = true := List.all_eq_true.mpr fun c hc => bne_iff_ne.mpr fun heq => noFeed (heq ▸ hc)
    have hends : behind.head?.all (fun c => !(c != '\n')) = true := by simpa [lineEnds, bne] using ends
    rw [read_hash, readComment, takeWhile_append_head hbody hends, dropWhile_append_head hbody hends]
    rintro inner heq
    cases body with
    | nil => simp_all [lineEnds]
    | cons d body =>
      cases heq
      exact noMark rfl
  | newline => rfl
  | blank h noFeed =>
    have hall : Text.blanks.all (fun c => (Symbol.single? c).isNone && (Symbol.pair? c).isNone && c != '#') = true := by
      decide +kernel
    have plain := List.all_eq_true.mp hall _ (Text.mem_blanks h)
    simp_all [read]
  | text hquote noQuote noFeed =>
    rw [← readText_quoted noQuote noFeed]
    obtain rfl | rfl := hquote <;> rfl
  | @number c whole fraction behind hc hwhole hfraction ends noWord =>
    rw [read_digit hc, readNumber_digits c hwhole hfraction ends]
    cases behind with
    | nil => rfl
    | cons s behind => simp_all [ofDigits]
  | @word c tail behind h htail ends =>
    have hsingle : Symbol.single? c = none := Option.eq_none_iff_forall_not_mem.mpr fun s hs => by
      simp [Symbol.startsWord_of_single? hs] at h
    have hpair : Symbol.pair? c = none := Option.eq_none_iff_forall_not_mem.mpr fun s hs => by
      simp [Symbol.startsWord_of_pair? hs] at h
    have hne (d : Char) (hd : Text.startsWord d = false) : c ≠ d := by
      rintro rfl
      rw [h] at hd
      cases hd
    simp only [read, hsingle, hpair, hne '#' rfl, hne '\n' rfl, Text.isBlank_of_startsWord h, hne '\x22' rfl, hne '\x27' rfl,
      Text.isDigit_of_startsWord h, h, beq_iff_eq, Bool.or_eq_true, or_self, Bool.false_eq_true, if_false, if_true,
      takeWhile_append_head htail ends, dropWhile_append_head htail ends]
  | @openComment body apart =>
    obtain ⟨front, behind, rfl, -⟩ | ⟨none, -⟩ := exists_commentBody body
    · exact absurd ⟨front, behind, by simp⟩ apart
    · rw [read_hash, readComment, none]
  | @openText c body behind hquote noQuote noFeed ends =>
    have hall := all_of_notMem noQuote noFeed
    have hhead : behind.head?.all (fun d => !(d != c && d != '\n')) = true := by
      cases behind <;> simp_all [lineEnds]
    have hread : readText c (body ++ behind) = ⟨.fault .unterminatedText, c :: body, behind⟩ := by
      rw [readText, takeWhile_append_head hall hhead, dropWhile_append_head hall hhead]
      cases behind with
      | nil => rfl
      | cons d behind => obtain rfl | rfl := hquote <;> simp_all [lineEnds]
    obtain rfl | rfl := hquote <;> exact hread
  | @badSuffix c suffix whole fraction tail behind hc hwhole hfraction hword htail ends =>
    have point : suffix ≠ '.' := by
      rintro rfl
      cases hword
    have numberEnds : NumberEnds fraction (suffix :: (tail ++ behind)) :=
      ⟨by simp [Text.isDigit_of_startsWord hword], fun _ _ _ heq => absurd (List.cons.inj heq).1 point⟩
    have all : (suffix :: tail).all Text.continuesWord = true := by simp [Text.continuesWord_of_startsWord hword, htail]
    rw [read_digit hc, readNumber_digits c hwhole hfraction numberEnds, ofDigits, if_pos hword,
      show suffix :: (tail ++ behind) = suffix :: tail ++ behind from rfl, takeWhile_append_head all ends,
      dropWhile_append_head all ends]
  | @stray c _ h =>
    have noFeed : c ≠ '\n' := by
      rintro rfl
      cases h.noBlank
    simp [read, h.single, h.pair, h.noMark, noFeed, h.noBlank, h.noQuote, h.noDigit, h.noLetter]

end Lexeme

end Trellis
