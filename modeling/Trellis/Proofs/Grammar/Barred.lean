import Trellis.Proofs.Grammar.Placed

/-!
# Readings that are barred

No production takes an ampersand. So a reading with strict matching does not get past one: it stops in front of it or
fails in view of it, and never comes to the end of the tokens. Its fault does not name the end then, unless it arose
in a slot of a template, which has an end of its own (`Parser.namesEnd_readProgram`).
-/

namespace Trellis

/-- **A token that is not taken for the end** where a message names it. If it is a text, neither is anything in its
slots: no slot runs off its own end, read as a script of its own. -/
structure Token.IsClosed (kw : KeywordTable) (t : Token) : Prop where
  named : ∃ c, t.describe.toList.getLast? = some c ∧ c ≠ 'e'
  slot : ∀ {raw : String} {segments : List Template.Segment} {source : String} {offset : Nat} {fault : Fault}
      {q : Parser},
    t.kind = .text raw → Template.split raw = .ok segments → .slot source offset ∈ segments →
      (Parser.ofScript kw .strict source).readExpression = .failed fault q → fault.cause.namesEnd = false

variable {kw : KeywordTable}

theorem Token.IsClosed.isEnd {t : Token} (h : t.IsClosed kw) : t.isEnd = false := by
  obtain ⟨c, hlast, hc⟩ := h.named
  obtain ⟨kind, lexeme, span⟩ := t
  cases kind with
  | endOfFile =>
    rw [show describe _ = "end of file" from rfl, show "end of file".toList.getLast? = some 'e' by decide] at hlast
    exact absurd (Option.some.inj hlast).symm hc
  | _ => rfl

/-- **An ampersand bars the way**, and none of the tokens as far as this one is taken for the end. -/
inductive Token.Barred (kw : KeywordTable) : List Token → Prop
  | here {bar : Token} {rest : List Token} (hbar : bar.terminal = .symbol .ampersand) (h : bar.IsClosed kw) :
      Barred kw (bar :: rest)
  | behind {t : Token} {ts : List Token} (h : t.IsClosed kw) (hts : Barred kw ts) : Barred kw (t :: ts)

theorem Token.Barred.tail {t : Token} {ts : List Token} (h : Barred kw (t :: ts))
    (ht : t.terminal ≠ .symbol .ampersand) : Barred kw ts := by
  cases h with
  | here hbar => exact absurd hbar ht
  | behind _ hts => exact hts

theorem Token.Barred.skip {ts : List Token} (h : Barred kw ts) :
    ∃ t rest, Token.skip ts = t :: rest ∧ t.IsClosed kw ∧ Barred kw (t :: rest) := by
  induction h with
  | @here bar rest hbar h =>
    have htrivia : bar.isTrivia = false := by
      rw [Token.isTrivia_eq, hbar]
      rfl
    exact ⟨bar, rest, Token.skip_cons_of_not_trivia htrivia rest, h, .here hbar h⟩
  | @behind t ts h hts ih =>
    cases htrivia : t.isTrivia with
    | true =>
      rw [Token.skip_cons_of_trivia htrivia]
      exact ih
    | false => exact ⟨t, ts, Token.skip_cons_of_not_trivia htrivia ts, h, .behind h hts⟩

structure Parser.Barred (kw : KeywordTable) (p : Parser) : Prop where
  tokens : Token.Barred kw p.tokens
  keywords : p.keywords = kw
  matching : p.matching = .strict
  log : p.log = {}

/-- **It is watched that the way is barred.** -/
def Parse.Watch.barred (kw : KeywordTable) : Watch (.same (Token.IsClosed kw)) where
  holds := Parser.Barred kw
  fails fault q := (q.log.surface fault).cause.namesEnd = false
  token h := by
    obtain ⟨t, rest, hskip, ht, -⟩ := h.tokens.skip
    rw [Parser.peek_of_skip hskip]
    exact ht
  bars := true
  advance h hpeek hread := by
    obtain ⟨t, rest, hskip, ht, hts⟩ := h.tokens.skip
    rw [Parser.peek_of_skip hskip] at hpeek
    rw [advance_of_not_isEnd hskip ht.isEnd] at hread
    cases hread
    exact { h with tokens := hts.tail (hpeek rfl) }
  strict h _ := by rw [h.matching]; rfl
  freshId h := { h with }
  pastTrivia h htrivia := by
    have htokens := h.tokens
    rw [tokens_of_trivia htrivia] at htokens
    refine { h with tokens := htokens.tail fun hbar => ?_ }
    rw [Token.isTrivia_eq, hbar] at htrivia
    cases htrivia
  fail {p q cause} span h hq hnames := by
    have hlog : q.log = {} := by
      obtain rfl | ⟨-, hlog⟩ := hq
      · exact h.log
      · exact hlog.trans h.log
    rw [FaultLog.surface_record, hlog]
    obtain hcause | ⟨t, front, ht, heq⟩ := hnames
    · exact hcause
    · obtain ⟨c, hlast, hc⟩ := ht.named
      exact Cause.namesEnd_of_append heq hlast hc

abbrev Parse.Pace.barred (kw : KeywordTable) : Pace (.same (Token.IsClosed kw)) :=
  .watched (.barred kw) (fun _ => rfl) fun _ => rfl

theorem Parse.Pace.level_barred (kw : KeywordTable) : (barred kw).Level :=
  level_watched _ _ .same _

theorem Rules.keeps_barred (kw : KeywordTable) (depth : Nat) :
    (ofDepth depth).Keeps (.barred kw) (ofDepth depth) ∧ ∀ m light,
      Parse.Keeps (.barred kw) m light .fresh Eq (fun _ => .passed) (ofDepth depth).statement
        (ofDepth depth).statement := by
  refine keeps_ofDepth (c := fun _ : Unit => Parse.Pace.barred kw) (fun _ => Parse.Pace.level_barred kw)
    (fun _ => trivial) ?_ depth ()
  rintro depth - - m t raw segments source offset _ ht rfl hkind hsplit hslot k _ p - ⟨rfl, hp⟩ hs
  cases hfaults : (scan p.keywords source).faults with
  | cons f others =>
    rw [Parse.slot_of_fault hfaults]
    exact .inr ((Parse.Watch.barred kw).fail _ hp (.inl rfl) (.inl (Cause.namesEnd_scan _)))
  | nil =>
    -- the slot is read as a script of its own, apart from the places
    have hplaced : (Parse.slotParser p (Parse.slotTokens p.keywords t.span source offset)).Placed
        (.ofScript kw .strict source) := by
      refine ⟨hp.keywords.symm, hp.matching.symm, ?_, id⟩
      rw [← hp.keywords]
      simp only [Parser.ofScript, Parse.slotParser, Parser.ofTokens, Parse.slotTokens, List.map_map]
      rfl
    have hread := Parse.whole_placed hplaced depth
    rw [Parse.slot_of_scanned hfaults]
    generalize Parse.whole (ofDepth depth).expression _ = o at hread ⊢
    cases o with
    | done e q => exact .inl ⟨e, _, e, _, rfl, rfl, rfl, ⟨rfl, { hp with }⟩, by rintro ⟨⟩, hs⟩
    | failed fault q =>
      obtain ⟨_, _, _, _, ⟨⟩, -⟩ | ⟨fault', q', hread', hcause⟩ := hread
      have hfailed : (Parser.ofScript kw .strict source).readExpression =
          .failed (q'.log.surface fault') { q' with log := {} } := by
        unfold Parser.readExpression
        rw [Parse.wholeExpression_eq, Parse.withOwnLog]
        exact hread' ▸ rfl
      refine .inr ?_
      show ((p.log.record _).surface _).cause.namesEnd = false
      rw [FaultLog.surface_record, hp.log]
      show (q.log.surface fault).cause.namesEnd = false
      rw [← hcause]
      exact ht.slot hkind hsplit hslot hfailed
    | exhausted => exact .inr trivial

/-- **The fault of a barred script does not name the end.** -/
theorem Parser.namesEnd_readProgram {p q : Parser} {fault : Fault} (hp : Token.Barred kw p.tokens)
    (keywords : p.keywords = kw) (strict : p.matching = .strict) (h : p.readProgram = .failed fault q) :
    fault.cause.namesEnd = false := by
  have hread := Parse.Keeps.program (Parse.Pace.level_barred kw)
    (fun m => (Rules.keeps_barred kw (p.weight + 1)).2 m false)
    false { p with log := {} } _ (by rintro (h | h) <;> cases h) ⟨rfl, hp, keywords, strict, rfl⟩ (Nat.le_refl _)
  rw [Parse.readProgram_eq, Parse.withOwnLog] at h
  cases hprogram : Parse.program p.rules { p with log := {} } with
  | done program u => rw [hprogram] at h; cases h
  | failed f u =>
    rw [hprogram] at h
    rw [show Parse.program (Rules.ofDepth (p.weight + 1)) _ = _ from hprogram] at hread
    cases h
    obtain ⟨_, _, _, _, ⟨⟩, -⟩ | hstopped := hread
    exact hstopped
  | exhausted => rw [hprogram] at h; cases h

end Trellis
