import Trellis.Proofs.Grammar.WellFormed
import Trellis.Proofs.Layout.Plain
import Trellis.Proofs.Token.Spelling

/-!
# The pieces of a layout spell their tokens

The layout of a tree is a text, and its tokens were given without that text. This module has the pieces that layouts
are put together of, and shows that each of them is read as its tokens.

Behind an expression no letter may follow and no digit, and no point with a digit behind it. A layout only puts there
what `Lexeme.operandEnds` allows. Blank lines are tokens outside of brackets only, so which of them are kept is said
by the brackets that are open (`Blanks.ofOwed`).
-/

namespace Trellis

open Scan (Spells Lines)

def Blanks.ofOwed (owed : List Symbol) : Blanks :=
  if owed.isEmpty then .outside else .none

theorem Blanks.within_ofOwed (closer : Symbol) (owed : List Symbol) :
    (Blanks.ofOwed owed).within = Blanks.ofOwed (closer :: owed) := by
  cases owed <;> rfl

def Layout.Spaced (l : Layout) : Prop :=
  ∀ c ∈ l.indent.toList, c = ' '

/-! ## What may follow -/

namespace Lexeme

/-- **What may follow an operand**: no character of a word, and no point in front of a digit. -/
def operandEnds : List Char → Bool
  | [] => true
  | c :: behind => !Text.continuesWord c && (c != '.' || behind.head?.all fun d => !d.isDigit)

theorem operandEnds_cons {c : Char} (hc : Text.continuesWord c = false) (hdot : c ≠ '.')
    (rest : List Char) : operandEnds (c :: rest) = true := by
  rw [operandEnds, hc, bne_iff_ne.mpr hdot]
  rfl

variable {rest : List Char}

theorem wordEnds_of_operandEnds (h : operandEnds rest = true) : wordEnds rest = true := by
  cases rest with
  | nil => rfl
  | cons c behind =>
    rw [operandEnds, Bool.and_eq_true] at h
    exact h.1

theorem operandEnds_of_endLine (h : rest.head?.all (· == '\n') = true) : operandEnds rest = true := by
  cases rest with
  | nil => rfl
  | cons c behind =>
    obtain rfl : c = '\n' := beq_iff_eq.mp h
    exact operandEnds_cons (c := '\n') rfl (by decide) behind

theorem operandEnds_dot {word : String} (h : Layout.isBareKey word = true) (rest : List Char) :
    operandEnds ('.' :: (word.toList ++ rest)) = true := by
  obtain ⟨c, cs, hchars, hstarts, _⟩ := Layout.exists_of_isBareKey h
  rw [hchars]
  simp only [operandEnds, List.cons_append, List.head?_cons, Option.all_some,
    Text.isDigit_of_startsWord hstarts]
  rfl

/-! ## Numbers -/

theorem numberEnds_of_operandEnds (h : operandEnds rest = true) (fraction : List Char) :
    NumberEnds fraction rest ∧ rest.head?.all (fun c => !Text.startsWord c) = true := by
  cases rest with
  | nil => exact ⟨⟨rfl, nofun⟩, rfl⟩
  | cons c behind =>
    rw [operandEnds, Bool.and_eq_true, Bool.not_eq_true'] at h
    have apart {p : Char → Bool} (hp : p c = true → Text.continuesWord c = true) : (!p c) = true := by
      cases hc : p c with
      | false => rfl
      | true => simp [hp hc] at h
    refine ⟨⟨apart fun hc => (Text.digits_plain c (Text.mem_digits hc)).1, ?_⟩, apart Text.continuesWord_of_startsWord⟩
    rintro - d rest ⟨⟩
    simpa using h.2

theorem read_decimal {text rest : List Char} (h : Number.isDecimal text = true)
    (hrest : operandEnds rest = true) :
    ∃ c cs, text = c :: cs ∧ read c (cs ++ rest) = ⟨.number, c :: cs, rest⟩ := by
  obtain ⟨digits, fraction, rfl, hdigits, hfraction⟩ := exists_span Char.isDigit text
  rw [Number.isDecimal, takeWhile_append_head hdigits hfraction, dropWhile_append_head hdigits hfraction] at h
  cases digits with
  | nil => cases h
  | cons c whole =>
    rw [List.all_cons, Bool.and_eq_true] at hdigits
    have isFraction : IsFraction fraction := by
      cases fraction with
      | nil => exact .inl rfl
      | cons point places =>
        cases places with
        | nil => simp at h
        | cons d ds =>
          obtain ⟨rfl, hd, hds⟩ : point = '.' ∧ d.isDigit = true ∧ ds.all Char.isDigit = true := by simpa using h
          exact .inr ⟨d, ds, rfl, hd, hds⟩
    obtain ⟨ends, noWord⟩ := numberEnds_of_operandEnds hrest fraction
    refine ⟨c, whole ++ fraction, rfl, ?_⟩
    rw [List.append_assoc]
    exact (Reads.number hdigits.1 hdigits.2 isFraction ends noWord).read_eq

end Lexeme

namespace Number

open Lexeme (takeWhile_append_head dropWhile_append_head)

theorem isDecimal_joinPoint {before after : List Char} (hbefore : before.all Char.isDigit = true) (hne : before ≠ [])
    (hafter : after.all Char.isDigit = true) : isDecimal (joinPoint before after) = true := by
  unfold joinPoint
  cases after with
  | nil =>
    have htake : (before ++ []).takeWhile Char.isDigit = before := takeWhile_append_head hbefore rfl
    have hdrop : (before ++ []).dropWhile Char.isDigit = [] := dropWhile_append_head hbefore rfl
    rw [List.append_nil] at htake hdrop
    simp [isDecimal, htake, hdrop, hne]
  | cons d ds =>
    have hpoint : ('.' :: d :: ds).head?.all (fun c => !c.isDigit) = true := rfl
    simp only [isDecimal, List.isEmpty_cons, Bool.false_eq_true, if_false, takeWhile_append_head hbefore hpoint,
      dropWhile_append_head hbefore hpoint, hafter]
    simp [hne]

theorem isDecimal_magnitudeText (b : Binary) : isDecimal (magnitudeText b).toList = true := by
  have hdigits : ∀ c ∈ Decimal.natDigits b.shortest.digits, c.isDigit = true := fun c hc =>
    Nat.isDigit_of_mem_toDigits (by decide) (by decide) hc
  have hne : Decimal.natDigits b.shortest.digits ≠ [] := Nat.toDigits_ne_nil
  rw [magnitudeText, String.toList_ofList]
  unfold Decimal.positional
  cases b.shortest.exponent with
  | ofNat e => exact isDecimal_joinPoint (by simpa using hdigits) (by simp [hne]) rfl
  | negSucc e =>
    dsimp only
    split
    · refine isDecimal_joinPoint ?_ ?_ ?_
      · exact List.all_eq_true.mpr fun c hc => hdigits c (List.mem_of_mem_take hc)
      · simp only [ne_eq, List.take_eq_nil_iff, hne, or_false]
        omega
      · exact List.all_eq_true.mpr fun c hc => hdigits c (List.mem_of_mem_drop hc)
    · exact isDecimal_joinPoint rfl (List.cons_ne_nil _ _) (by simpa using hdigits)

end Number

/-! ## Tokens and lists of them -/

namespace Scan.Spells

variable {kw : KeywordTable} {sure : Bool} {owed : List Symbol} {a b rest : List Char} {ts us : List Token}

theorem spaced (h : Spells kw sure owed a ts rest) : Spells kw sure owed (' ' :: a) ts rest :=
  Spells.blank.append h

theorem keyword_spaced (k : Keyword) (h : Spells kw sure owed a ts rest) :
    Spells kw sure owed (k.text.toList ++ ' ' :: a) (.ofKeyword k :: ts) rest :=
  (Spells.keyword k rfl).append h.spaced

theorem name {word : String} (h : IsName kw word) (hrest : Lexeme.wordEnds rest = true) :
    Spells kw sure owed word.toList [.ofName word] rest := by
  have htoken : Token.ofWord kw word = .ofName word := by rw [Token.ofWord, h.2]
  rw [← htoken]
  exact .word h.1 hrest

theorem decimal {text : List Char} (h : Number.isDecimal text = true) (hrest : Lexeme.operandEnds rest = true) :
    Spells kw sure owed text [⟨.number ((Number.read? (String.ofList text)).getD 0), String.ofList text, {}⟩] rest := by
  obtain ⟨c, cs, rfl, hread⟩ := Lexeme.read_decimal h hrest
  exact .of_lexeme hread rfl nofun rfl

theorem number {x : Float} (h : sure = true → Number.rereads x = true) (hrest : Lexeme.operandEnds rest = true) :
    Spells kw sure owed (Number.text "inf" x).toList [.ofNumber x] rest := by
  cases sure with
  | true =>
    have h := h rfl
    rw [Number.rereads, Bool.and_eq_true, decide_eq_true_eq] at h
    have found : Spells kw true owed (Number.text "inf" x).toList _ rest := decimal h.1 hrest
    rwa [String.ofList_toList, h.2] at found
  | false =>
    have named (word : String) (h : Layout.isBareKey word = true) :
        Spells kw false owed word.toList [.ofWord kw word] rest := .word h (Lexeme.wordEnds_of_operandEnds hrest)
    unfold Number.text
    split
    · exact (named "NaN" (by decide +kernel)).found ⟨rfl, Token.comments_ofWord kw _⟩ ⟨rfl, rfl⟩ (by rintro ⟨⟩)
    · split
      · rename_i b _
        have digits : Spells kw false owed _ _ rest := decimal (Number.isDecimal_magnitudeText b) hrest
        split
        · rw [String.toList_append]
          exact ((Spells.symbol .minus trivial rfl rfl).append digits).found ⟨rfl, rfl⟩ ⟨rfl, rfl⟩ (by rintro ⟨⟩)
        · rw [String.empty_append]
          exact digits.found ⟨rfl, rfl⟩ ⟨rfl, rfl⟩ (by rintro ⟨⟩)
      · split
        · rw [String.toList_append]
          exact ((Spells.symbol .minus trivial rfl rfl).append (named _ rfl)).found ⟨rfl, Token.comments_ofWord kw _⟩ ⟨rfl, rfl⟩ (by rintro ⟨⟩)
        · exact (named "inf" (by decide +kernel)).found ⟨rfl, Token.comments_ofWord kw _⟩ ⟨rfl, rfl⟩ (by rintro ⟨⟩)

theorem literal {value : Literal} (hvalue : value.WellFormed)
    (hplain : sure = true → (ExprForm.literal value).isPlain = true) (hrest : Lexeme.operandEnds rest = true) :
    Spells kw sure owed (Layout.literal value).toList [value.token] rest := by
  have hends := Lexeme.wordEnds_of_operandEnds hrest
  cases value with
  | number x => exact number hplain hrest
  | text s => exact .quoted hvalue.1
  | bool b =>
    cases b with
    | true => exact keyword .trueKw hends
    | false => exact keyword .falseKw hends
  | nil => exact keyword .nilKw hends
  | nan => exact keyword .nanKw hends

theorem key {key : String} (h : Layout.isBareKey key = true ∨ IsQuotable key.toList)
    (hrest : Lexeme.wordEnds rest = true) :
    Spells kw sure owed (if Layout.isBareKey key then key else Layout.quoted key).toList [.ofKey kw key]
      rest := by
  unfold Token.ofKey
  cases hkey : Layout.isBareKey key with
  | true => exact .word hkey hrest
  | false => exact .quoted (h.resolve_left (by simp [hkey]))

theorem listed {α : Type} {text : α → String} {tokens : α → List Token} {items : List α}
    (h : ∀ x ∈ items, ∀ rest, Lexeme.operandEnds rest = true →
      Spells kw sure owed (text x).toList (tokens x) rest)
    (hrest : Lexeme.operandEnds rest = true) :
    Spells kw sure owed (", ".intercalate (items.map text)).toList (Token.listed (items.map tokens))
      rest := by
  induction items with
  | nil => exact .nil
  | cons x others ih =>
    have hothers := ih fun y hy => h y (.tail _ hy)
    cases others with
    | nil =>
      have hx := h x (.head _) rest hrest
      simpa [Token.listed] using hx
    | cons y others =>
      have hx := h x (.head _) (',' :: ' ' ::
        ((", ".intercalate ((y :: others).map text)).toList ++ rest)) rfl
      have hcomma : Spells kw sure owed Symbol.comma.text.toList [.ofSymbol .comma]
        (' ' :: (", ".intercalate ((y :: others).map text)).toList ++ rest) :=
        .symbol .comma trivial rfl rfl
      have htext : (", ".intercalate ((x :: y :: others).map text)).toList = (text x).toList ++
          (Symbol.comma.text.toList ++ ' ' :: (", ".intercalate ((y :: others).map text)).toList) := by
        rw [List.map_cons, List.map_cons, String.intercalate_cons_cons, String.toList_append,
          String.toList_append, List.append_assoc]
        rfl
      rw [htext]
      exact hx.append (hcomma.append hothers.spaced)

theorem params {params : List Ident} (h : ∀ i ∈ params, IsName kw i.name) :
    Spells kw sure owed ('(' :: ((Layout.paramList params).toList ++ [')']))
      (.ofSymbol .leftParen :: (Ident.tokensOf params ++ [.ofSymbol .rightParen])) rest := by
  refine .bracketed .leftParen rfl
    (.listed (fun i hi behind hbehind => ?_) rfl)
  exact name (h i hi) (Lexeme.wordEnds_of_operandEnds hbehind)

end Scan.Spells

/-! ## Trees whose texts spell their tokens -/

def ExprForm.Spelled (l : Layout) (kw : KeywordTable) (sure : Bool) (form : ExprForm) : Prop :=
  ∀ depth owed rest, Lexeme.operandEnds rest = true →
    Spells kw sure owed (l.exprForm depth form).toList (form.tokens kw (.ofOwed owed)) rest

def Block.Spelled (l : Layout) (kw : KeywordTable) (sure : Bool) (b : Block) : Prop :=
  ∀ depth owed rest, ∃ p,
    Lines kw sure owed p (l.block depth b).toList (b.tokens kw (.ofOwed owed)) rest

section

variable {l : Layout} {kw : KeywordTable} {sure : Bool} {owed : List Symbol} {rest : List Char} {depth : Nat}

theorem Layout.expr_eq (l : Layout) (depth : Nat) (e : Expr) : l.expr depth e = l.exprForm depth e.form := by
  cases e
  rfl

theorem Layout.operand_eq (l : Layout) (depth least : Nat) (e : Expr) :
    l.operand depth least e = Layout.guarded e.form least (l.exprForm depth e.form) := by
  cases e
  rfl

theorem Layout.exprs_eq (l : Layout) (depth : Nat) (es : List Expr) : l.exprs depth es = es.map (l.expr depth) :=
  eq_map_of_cons rfl (fun _ _ => rfl) es

theorem ExprForm.Spelled.expr {e : Expr} (h : e.form.Spelled l kw sure) (depth : Nat)
    (hrest : Lexeme.operandEnds rest = true) :
    Spells kw sure owed (l.expr depth e).toList (e.tokens kw (.ofOwed owed)) rest := by
  rw [Layout.expr_eq, Expr.tokens_eq]
  exact h depth owed rest hrest

theorem ExprForm.Spelled.operand {e : Expr} {least : Nat} (h : e.form.Spelled l kw sure)
    (hrest : Lexeme.operandEnds rest = true) :
    Spells kw sure owed (l.operand depth least e).toList (e.operandTokens kw (.ofOwed owed) least)
      rest := by
  rw [Layout.operand_eq, Layout.guarded, Expr.operandTokens_eq, Token.guarded, Expr.tokens_eq]
  by_cases hweak : Layout.strength e.form < least
  · rw [if_pos hweak, decide_eq_true hweak, if_pos rfl, Blanks.under, if_pos rfl,
      Blanks.within_ofOwed .rightParen, String.toList_append, String.toList_append, List.append_assoc]
    exact .bracketed .leftParen rfl (h _ _ _ rfl)
  · rw [if_neg hweak, decide_eq_false hweak, if_neg Bool.false_ne_true, Blanks.under, if_neg Bool.false_ne_true]
    exact h _ _ _ hrest

theorem ExprForm.Spelled.bracketed (opener : Symbol) {closer : Symbol} {es : List Expr}
    (hopens : opener.closer? = some closer) (h : ∀ e ∈ es, e.form.Spelled l kw sure) :
    Spells kw sure owed (opener.text.toList ++ ((", ".intercalate (l.exprs depth es)).toList ++ closer.text.toList))
      (.ofSymbol opener ::
        (Token.listed (Expr.tokensOf kw (Blanks.ofOwed owed).within es) ++ [.ofSymbol closer])) rest := by
  rw [Blanks.within_ofOwed closer, Layout.exprs_eq, Expr.tokensOf_eq]
  refine .bracketed opener hopens (.listed ?_ ?_)
  · exact fun e he _ hbehind => (h e he).expr depth hbehind
  · cases opener <;> cases hopens <;> rfl

theorem ExprForm.Spelled.binary {left right : Expr} {first second : Nat} {symbol : Symbol}
    (hleft : left.form.Spelled l kw sure) (hright : right.form.Spelled l kw sure)
    (hends : ∀ rest, symbol.Ends (' ' :: rest)) (hopens : symbol.closer? = none)
    (hcloses : symbol.isCloser = false) (hrest : Lexeme.operandEnds rest = true) :
    Spells kw sure owed ((l.operand depth first left).toList ++
        ' ' :: (symbol.text.toList ++ ' ' :: (l.operand depth second right).toList))
      (left.operandTokens kw (.ofOwed owed) first ++
        .ofSymbol symbol :: right.operandTokens kw (.ofOwed owed) second) rest :=
  (hleft.operand rfl).append
    ((Spells.symbol symbol (hends _) hopens hcloses).append (hright.operand hrest).spaced).spaced

/-! ## Blocks -/

theorem Layout.Spaced.pad (hl : l.Spaced) (depth : Nat) : ∀ c ∈ (l.pad depth).toList, c = ' ' := by
  intro c hc
  rw [Layout.pad, String.toList_join, List.mem_flatMap] at hc
  obtain ⟨step, hstep, hc⟩ := hc
  rw [List.eq_of_mem_replicate hstep] at hc
  exact hl c hc

theorem Scan.Spells.padded {cs : List Char} {ts : List Token} (hl : l.Spaced)
    (h : Spells kw sure owed cs ts rest) (depth : Nat) :
    Spells kw sure owed ((l.pad depth).toList ++ cs) ts rest := by
  have hpad := hl.pad depth
  generalize (l.pad depth).toList = pad at hpad
  induction pad with
  | nil => exact h
  | cons c pad ih =>
    obtain ⟨rfl, hothers⟩ := List.forall_mem_cons.mp hpad
    exact (ih hothers).spaced

theorem Scan.Spells.closing (hl : l.Spaced) (depth : Nat)
    (hrest : Lexeme.wordEnds rest = true) :
    Spells kw sure owed ((l.pad depth).toList ++ "end".toList) [.ofKeyword .endKw] rest :=
  (Spells.keyword .endKw hrest).padded hl depth

theorem Scan.Spells.block {b : Block} {head foot : List Char} {ts us : List Token}
    (hhead : ∀ behind, Spells kw sure owed head ts (':' :: behind)) (hb : b.Spelled l kw sure) (depth : Nat)
    (hfoot : Spells kw sure owed foot us rest) (hus : us ≠ []) :
    Spells kw sure owed (head ++ ':' :: '\n' :: ((l.block depth b).toList ++ foot))
      (ts ++ .ofSymbol .colon :: (b.tokens kw (.ofOwed owed) ++ us)) rest := by
  have hcolon : ∀ behind, Spells kw sure owed [':'] [.ofSymbol .colon] behind := fun _ =>
    Spells.symbol .colon trivial rfl rfl
  obtain ⟨p, hlines⟩ := hb depth owed (foot ++ rest)
  have hspells := Spells.lines ((hhead _).append (hcolon _)) (by simp) hlines hfoot hus
  simpa using hspells

end

end Trellis
