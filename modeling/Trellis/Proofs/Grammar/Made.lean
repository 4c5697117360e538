import Trellis.Proofs.Grammar.Placed
import Trellis.Proofs.Layout.Statements

/-!
# What the grammar makes: names and blocks

When a production is done, the tree it made is well-formed. To know that two statements may stand next to each other,
one has to know where the first one stopped and what the second one started with. So more is shown.

- The tree is well-formed.
- The token behind is none that goes on with an expression of this level. Two points are the exception: a
  range is not looked at again for another pair of points behind it.
- Unless the tokens start with a parenthesis, they start with the lead of the tree.

`Expr.Made` and `Expr.MadePrimary` say this for expressions and `Stmt.Made` for statements. The rules that
productions go back to are assumed to make such trees (`Rules.Makes`).
-/

namespace Trellis

open Token (skip next weightOf Source)

/-! ## Taking tokens -/

variable {t : Token} {d : Dialect} {ts : List Token}

theorem Token.skip_of_peek (h : t.bare = Token.peek ts) (hne : t.terminal ≠ .endOfFile) :
    ∃ rest, skip ts = t.bare :: rest := by
  rw [Token.peek] at h
  cases hskip : skip ts with
  | nil =>
    rw [hskip] at h
    exact absurd (Token.terminal_of_bare h) hne
  | cons u rest =>
    rw [hskip] at h
    exact ⟨rest, by rw [h]; rfl⟩

theorem Tells.take {ts rest : List Token} (h : skip ts = t :: rest) (hend : t.isEnd = false) :
    Tells d Parse.advance ts fun rest' u => rest' = rest ∧ u.bare = t := by
  refine Tells.advance.imp fun rest' u _ hu => ?_
  have hne : next ts ≠ .endOfFile := by
    rw [Token.next_eq_of_skip h]
    rw [Token.isEnd_eq, beq_eq_false_iff_ne] at hend
    exact hend
  have hskip := hu.skip hne
  rw [h] at hskip
  injection hskip with ht hrest
  exact ⟨hrest.symm, ht.symm⟩

theorem Tells.taking {β : Type} {ts rest : List Token} {f : Token → Parse β} {Q : List Token → β → Prop}
    (h : skip ts = t :: rest) (hend : t.isEnd = false)
    (hf : ∀ u : Token, rest <:+ ts → u.bare = t → Tells d (f u) rest Q) : Tells d (Parse.advance >>= f) ts Q := by
  refine .bind (.take h hend) ?_
  rintro _ u hrest ⟨rfl, hu⟩
  exact hf u hrest hu

theorem Token.length_lt_of_taken {ts mid rest : List Token} (h : skip ts = t :: mid) (hrest : rest <:+ mid) :
    rest.length < ts.length :=
  Nat.lt_of_le_of_lt hrest.length_le (Token.length_lt_of_skip h)

/-! ## What is made -/

structure Ident.Made (d : Dialect) (ts rest : List Token) (i : Ident) : Prop where
  isName : IsName d.keywords i.name
  shorter : rest.length < ts.length

structure Expr.MadePrimary (d : Dialect) (ts rest : List Token) (e : Expr) : Prop where
  wellFormed : e.WellFormed d
  lead : next ts ≠ .symbol .leftParen → next ts = e.lead ∧ Layout.strength e.form = 6
  shorter : rest.length < ts.length

structure Expr.Made (d : Dialect) (level : Nat) (ts rest : List Token) (e : Expr) : Prop where
  wellFormed : e.WellFormed d
  stops : next rest ≠ .symbol .dotDot → (next rest).bond < level
  lead : next ts ≠ .symbol .leftParen → next ts = e.lead ∧
    (level = 6 → Layout.strength e.form = 6) ∧
      (next rest ≠ .symbol .dotDot → (next rest).bond < Layout.strength e.form)
  shorter : rest.length < ts.length

structure Stmt.Made (d : Dialect) (ts rest : List Token) (s : Stmt) : Prop where
  wellFormed : s.WellFormed d
  lead : s.form.isTrivia = false → next ts = .symbol .leftParen ∨ next ts = s.form.lead
  trivia : s.form.isTrivia = true → next ts = next rest
  blank : s.form.isBlankLine = true → ∃ t, ts = t :: rest ∧ t.isBlankLine = true
  /-- A statement that follows may follow it in a layout as well. -/
  links : ∀ form : StmtForm, form.isTrivia = false →
    next rest = .symbol .leftParen ∨ next rest = form.lead → s.allows form.lead = true
  shorter : rest.length < ts.length

structure Stmt.MadeBranch (d : Dialect) (ts rest : List Token) (s : Stmt) : Prop where
  isBranch : s.form.isBranch = true
  wellFormed : s.WellFormed d
  shorter : rest.length < ts.length

structure Rules.Makes (d : Dialect) (r : Rules) : Prop where
  expression : ∀ ts, Source d.keywords ts → Tells d r.expression ts (Expr.Made d 1 ts)
  comparison : ∀ ts, Source d.keywords ts → Tells d r.comparison ts (Expr.Made d 2 ts)
  equality : ∀ ts, Source d.keywords ts → Tells d r.equality ts (Expr.Made d 3 ts)
  sum : ∀ ts, Source d.keywords ts → Tells d r.sum ts (Expr.Made d 4 ts)
  operand : ∀ ts, Source d.keywords ts → Tells d r.operand ts (Expr.Made d 6 ts)
  statement : ∀ ts, Source d.keywords ts → Tells d r.statement ts (Stmt.Made d ts)
  branch : ∀ ts, Source d.keywords ts → next ts = .keyword .ifKw →
    Tells d r.branch ts (Stmt.MadeBranch d ts)
  /-- They are rules of the grammar, so slots are read again. -/
  ofDepth : ∃ depth, r = .ofDepth depth

/-! ## Names -/

section

variable {d : Dialect} {ts : List Token}

theorem Tells.ident {what : String} (hts : Source d.keywords ts) :
    Tells d (Parse.ident what) ts (Ident.Made d ts) := by
  refine .bind_pure Parse.tells_expect fun rest t _ ht => ?_
  have hsound : t.Sound d.keywords := Token.sound_bare.mp (hts.sound _ (ht.mem nofun))
  have hkind : t.kind = .name := by
    have := ht.terminal
    obtain ⟨kind, lexeme, span⟩ := t
    cases kind <;> first | rfl | cases this
  unfold Token.Sound at hsound
  rw [hkind] at hsound
  exact ⟨hsound, ht.shorter nofun⟩

def Token.isWord (t : Token) : Bool :=
  t.terminal == .name || t.kind.isKeyword

theorem Token.isBareKey_of_isWord {keywords : KeywordTable} (hsound : t.Sound keywords) (hword : t.isWord = true) :
    Layout.isBareKey t.lexeme = true := by
  obtain ⟨kind, lexeme, span⟩ := t
  cases kind with
  | name => exact hsound.1
  | keyword _ => exact hsound.1
  | _ => cases hword

theorem Tells.propertyName :
    Tells d Parse.propertyName ts fun rest i =>
      ∃ t, skip ts = t :: rest ∧ t.isWord = true ∧ i.name = t.lexeme := by
  refine .peek fun u hu => ?_
  cases hword : u.isWord with
  | true =>
    rw [Token.isWord] at hword
    rw [hword]
    have hne : u.terminal ≠ .endOfFile := by
      obtain ⟨kind, lexeme, span⟩ := u
      cases kind with
      | endOfFile => cases hword
      | _ => exact nofun
    obtain ⟨rest, hskip⟩ := Token.skip_of_peek hu hne
    refine .bind_pure (.take hskip (Token.isEnd_of_terminal rfl hne)) ?_
    rintro mid t _ ⟨rfl, ht⟩
    exact ⟨_, hskip, hword, Token.lexeme_of_bare (t := u.bare) ht⟩
  | false =>
    rw [Token.isWord] at hword
    rw [hword]
    exact .failExpected

theorem Tells.params (hts : Source d.keywords ts) :
    Tells d Parse.params ts fun _ ps => ∀ i ∈ ps, IsName d.keywords i.name := by
  refine .bind .accept fun mid found hmid hfound => ?_
  rcases hfound with ⟨rfl, rfl, -⟩ | ⟨t, rfl, -, -⟩
  · exact Tells.pure nofun
  · have hname : ∀ ts', ts' <:+ mid →
        Tells d (Parse.ident "parameter name") ts' fun rest i => Ident.Made d ts' rest i :=
      fun ts' hts' => Tells.ident (hts.suffix (hts'.trans hmid))
    refine (Tells.items _ hname).imp ?_
    rintro rest ps _ ⟨closing, close, hitems, -⟩
    exact hitems.forall_mem fun _ _ _ hmade => hmade.isName

end

/-! ## Blocks -/

def Stmt.MadeStep (d : Dialect) (terminators : List Terminal) (ts : List Token) (s : Stmt)
    (rest : List Token) : Prop :=
  Token.stops terminators ts = false ∧ s.Made d ts rest

abbrev Stmt.MadeChain (d : Dialect) (terminators : List Terminal) (ts : List Token) (body : List Stmt)
    (rest : List Token) : Prop :=
  Chain (Stmt.MadeStep d terminators) (fun ts' => Token.stops terminators ts' = true) ts body rest

namespace Stmt.MadeChain

variable {d : Dialect} {terminators : List Terminal} {ts rest : List Token} {body : List Stmt}

theorem allows {s : Stmt} {before : List Token} (hs : s.Made d before ts)
    (h : MadeChain d terminators ts body rest) : s.allows (Stmt.leadOf body) = true := by
  have hstart : Stmt.leadOf body = .endOfFile ∨ ∃ form : StmtForm, form.isTrivia = false ∧
      Stmt.leadOf body = form.lead ∧ (next ts = .symbol .leftParen ∨ next ts = form.lead) := by
    clear hs
    induction h with
    | nil _ => exact .inl rfl
    | @cons ts mid rest a items step _ _ _ ih =>
      rw [Stmt.leadOf]
      cases htrivia : a.form.isTrivia with
      | true => exact step.2.trivia htrivia ▸ ih
      | false => exact .inr ⟨a.form, htrivia, rfl, step.2.lead htrivia⟩
  rcases hstart with hend | ⟨form, htrivia, hlead, hnext⟩
  · rw [hend]
    exact s.allows_of_closes rfl
  · rw [hlead]
    exact hs.links form htrivia hnext

theorem startsBlank_eq_false (happart : Token.apart true ts = true)
    (h : MadeChain d terminators ts body rest) : Stmt.startsBlank body = false := by
  cases h with
  | nil _ => rfl
  | @cons _ _ _ s _ step _ _ _ =>
    rw [Stmt.startsBlank]
    cases hblank : s.form.isBlankLine with
    | false => rfl
    | true =>
      obtain ⟨t, rfl, ht⟩ := step.2.blank hblank
      rw [Token.apart, ht] at happart
      cases happart

theorem wellFormedOf (hts : Source d.keywords ts) (h : MadeChain d terminators ts body rest) :
    Stmt.WellFormedOf d body := by
  induction h with
  | nil _ => trivial
  | cons step _ suffix tail ih =>
    refine ⟨step.2.wellFormed, allows step.2 tail, fun hblank => ?_, ih (hts.suffix suffix)⟩
    obtain ⟨t, rfl, ht⟩ := step.2.blank hblank
    have happart := hts.apart
    rw [Token.apart, ht, Bool.false_and, Bool.not_false, Bool.true_and] at happart
    exact startsBlank_eq_false happart tail

end Stmt.MadeChain

theorem Rules.Makes.blockUntil {r : Rules} (h : r.Makes d) (hts : Source d.keywords ts)
    (terminators : List Terminal) : Tells d (Parse.blockUntil r terminators) ts fun _ b => b.WellFormed d := by
  refine .bind .freshId ?_
  rintro _ _ _ rfl
  refine .read fun _ => .bind_pure (.chain (Stmt.MadeStep d terminators)
    (fun ts' => Token.stops terminators ts' = true) fun mid read hmid => ?_) fun rest reversed _ hchain =>
      Block.wellFormed_iff.mpr (Stmt.MadeChain.wellFormedOf hts hchain)
  refine .front fun u hu => ?_
  have hstops : (u.isEnd || terminators.contains u.terminal) = Token.stops terminators mid := by
    rw [Token.isEnd_eq, Token.terminal_of_bare hu, Token.stops, Token.head]
  rw [hstops]
  cases hstop : Token.stops terminators mid with
  | true => exact .pure (.inl ⟨rfl, rfl, rfl⟩)
  | false =>
    exact .bind_pure (h.statement mid (hts.suffix hmid)) fun rest s _ hs =>
      .inr ⟨s, rfl, ⟨hstop, hs⟩, hs.shorter⟩

theorem Rules.Makes.blockToEnd {r : Rules} (h : r.Makes d) (hts : Source d.keywords ts) (what : String) :
    Tells d (Parse.blockToEnd r what) ts fun _ b => b.WellFormed d :=
  .bind (h.blockUntil hts _) fun _ _ _ hb => .bind_pure Parse.tells_expect fun _ _ _ _ => hb

end Trellis
