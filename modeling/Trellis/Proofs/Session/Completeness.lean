import Trellis.Proofs.Grammar.Barred
import Trellis.Proofs.Token.Origin
import Trellis.Proofs.Token.Spacing
import Trellis.Proofs.Token.Spelling
import Trellis.Proofs.Run.Beside
import Trellis.Session

/-!
# Inputs that are held back

A session holds an input back as long as reading it fails at the end of file. An input can be finished then, whatever it
is: behind a new line, and behind the end of a comment that is open, an ampersand bars the way to the end
(`Session.exists_isComplete`). But the script in a slot of a text has an end of its own, which is not that of the input. If
the slot runs off that end, the input is held back although the text is closed, and nothing that is put behind it is ever
read (`Session.FailsInSlot.isComplete`): reading fails in the first statement.
-/

namespace Trellis

/-! ## Inputs that can be finished -/

theorem Lexeme.commentBody_closed {body : List Char} (apart : ¬ ['*', '#'] <:+: body) (rest : List Char) :
    commentBody (body ++ ['\n'] ++ '*' :: '#' :: rest) = (body ++ ['\n'] ++ ['*', '#'], some rest) := by
  induction body with
  | nil => rfl
  | cons c body ih =>
    rw [List.cons_append, List.cons_append, commentBody.eq_3,
      ih fun inside => apart (inside.trans (List.suffix_cons _ _).isInfix)]
    · rfl
    · rintro behind rfl heq
      cases body with
      | nil => cases heq
      | cons d body =>
        cases heq
        exact apart ⟨[], body, rfl⟩

namespace Scan

variable {kw : KeywordTable} {source done left : List Char} {s : Scan}

/-- **A comment that is not closed goes to the end of the script.** -/
theorem Reaches.exists_open (h : Reaches kw source s done left) (isOpen : ¬ s.IsClosed) : left = [] ∧
    ∃ s₀ done₀ body, Reaches kw source s₀ done₀ ('#' :: '*' :: body) ∧ s₀.IsClosed ∧ s.tokens = s₀.tokens ∧
      ¬ ['*', '#'] <:+: body := by
  induction h with
  | start => exact absurd (List.forall_mem_nil _) isOpen
  | @step s done c rest h ih =>
    by_cases closed : s.IsClosed
    · have steps := steps_step kw s c rest
      have reads := Lexeme.reads_read c rest
      have hkind : (Lexeme.read c rest).kind = .fault .unterminatedComment := by
        by_contra proper
        refine isOpen fun f hf => ?_
        generalize s.step kw c (Lexeme.read c rest) = s' at steps hf
        cases steps with
        | token hkind settles =>
          cases settles with
          | unmatched =>
            obtain rfl | hf := List.mem_cons.mp hf
            · rintro ⟨⟩
            · exact closed f hf
          | _ => exact closed f hf
        | fault hkind =>
          obtain rfl | hf := List.mem_cons.mp hf
          · exact fun heq => proper (heq ▸ hkind)
          · exact closed f hf
        | _ => exact closed f hf
      obtain ⟨tokens, -⟩ := steps.exists_fault hkind
      generalize Lexeme.read c rest = x at reads hkind tokens ⊢
      cases reads with
      | openComment apart => exact ⟨rfl, s, done, _, h, closed, tokens, apart⟩
      | _ => cases hkind
    · cases (ih closed).1

theorem Steps.isClosed_trivia {s' : Scan} {x : Lexeme} (h : s.Steps kw x s') (closed : s.IsClosed)
    (hx : x.kind = .newline ∨ x.kind = .comment) :
    s'.IsClosed ∧ ∀ t ∈ s'.tokens, t ∈ s.tokens ∨ t.isTrivia = true := by
  obtain ⟨xkind, text, rest⟩ := x
  cases h with
  | token hkind settles =>
    obtain rfl | rfl := hx <;> cases hkind
    cases settles
    exact ⟨closed, List.forall_mem_cons.mpr ⟨.inr rfl, fun t => .inl⟩⟩
  | mark => exact ⟨closed, List.forall_mem_cons.mpr ⟨.inr rfl, fun t => .inl⟩⟩
  | line => exact ⟨closed, fun t => .inl⟩
  | blank hkind => obtain rfl | rfl := hx <;> cases hkind
  | fault hkind => obtain rfl | rfl := hx <;> cases hkind

/-- **Every script can be closed**: behind something that is put at its end, scanning goes on with the tokens it had found and
with comments and blank lines, and no comment is open. -/
theorem exists_isClosed (kw : KeywordTable) (text behind : List Char) : ∃ (tail : List Char) (s : Scan),
    run kw {} (text ++ (tail ++ behind)) = s.run kw behind ∧ s.IsClosed ∧
      ∀ t ∈ s.tokens, t ∈ (run kw {} text).tokens ∨ t.isTrivia = true := by
  have reaches := reaches_run kw text
  by_cases closed : (run kw {} text).IsClosed
  · exact ⟨['\n'], _, (reaches.spaced closed .ended).step.run_eq,
      (steps_step kw _ '\n' behind).isClosed_trivia closed (.inl rfl)⟩
  · obtain ⟨-, s, done, body, reaches, closed, tokens, apart⟩ := reaches.exists_open closed
    have read : Lexeme.Reads '#' _ ⟨.comment, _, behind⟩ := .marked (Lexeme.commentBody_closed apart)
    have spaced : Text.Spaced ('#' :: '*' :: body) ('#' :: '*' :: (body ++ '\n' :: '*' :: '#' :: behind)) := by
      simpa using Text.Spaced.ended.append ('#' :: '*' :: body)
    have next := (reaches.spaced closed spaced).step.run_eq
    have trivia := (steps_step kw s '#' _).isClosed_trivia closed (.inr (congrArg Lexeme.kind read.read_eq))
    rw [List.append_assoc, List.singleton_append] at read trivia
    rw [read.read_eq] at next trivia
    rw [tokens, reaches.source_eq]
    exact ⟨['\n', '*', '#'], _, by simpa using next, trivia⟩

/-- **No token that is found is taken for the end** where a message names it. -/
theorem Reaches.exists_describe (h : Reaches kw source s done left) {t : Token} (ht : t ∈ s.tokens) :
    ∃ c, t.describe.toList.getLast? = some c ∧ c ≠ 'e' := by
  have isEnd := h.isEnd t ht
  have isRead := h.isRead t ht
  obtain ⟨kind, lexeme, span⟩ := t
  cases kind with
  | text raw =>
    obtain ⟨⟨⟩⟩ | ⟨_, c, rest, -, hkind, hlexeme, -⟩ := isRead
    obtain ⟨quote, hquote, quoted⟩ := Lexeme.quoted_of_tokenKind? (Lexeme.neat_read c rest) hkind
    refine ⟨quote, ?_, by obtain rfl | rfl := hquote <;> decide⟩
    rw [show Token.describe _ = "string " ++ lexeme from rfl, String.toList_append, hlexeme, quoted, ← List.cons_append,
      ← List.append_assoc, List.getLast?_concat]
  | endOfFile => cases isEnd
  | _ =>
    refine ⟨'\x27', ?_, by decide⟩
    rw [show Token.describe _ = "'" ++ lexeme ++ "'" from rfl, String.toList_append]
    exact List.getLast?_concat

end Scan

/-- **A slot of a text runs off its own end**, read as a script of its own. -/
def Token.RunsOff (kw : KeywordTable) (t : Token) : Prop :=
  ∃ (raw : String) (segments : List Template.Segment) (source : String) (offset : Nat) (fault : Fault) (q : Parser),
    t.kind = .text raw ∧ Template.split raw = .ok segments ∧ .slot source offset ∈ segments ∧
      (Parser.ofScript kw .strict source).readExpression = .failed fault q ∧ fault.isUnfinished = true

theorem Token.Barred.append {kw : KeywordTable} {ts us : List Token} (hts : ∀ t ∈ ts, t.IsClosed kw) (hus : Barred kw us) :
    Barred kw (ts ++ us) := by
  induction ts with
  | nil => exact hus
  | cons t ts ih =>
    rw [List.forall_mem_cons] at hts
    exact .behind hts.1 (ih hts.2)

namespace Session

/-- **An input can be finished** if no slot of its texts runs off its own end. An ampersand finishes it, behind a new line
and behind the end of the comment that is open: no script gets past one. -/
theorem exists_isComplete {kw : KeywordTable} {text : String}
    (h : ∀ t ∈ (scan kw text).tokens, ¬ t.RunsOff kw) : ∃ t, isComplete kw (text ++ t) = true := by
  obtain ⟨tail, s, run, closed, tokens⟩ := Scan.exists_isClosed kw text.toList ['&']
  obtain ⟨s', tokens', faults', run'⟩ : ∃ s' : Scan, s'.tokens = ⟨.symbol .ampersand, "&", s.position.span 1⟩ :: s.tokens ∧
      s'.faults = s.faults ∧ s.run kw ['&'] = s' := by
    rw [Scan.run]
    exact ⟨s.step kw '&' ⟨.symbol .ampersand, ['&'], []⟩, rfl, rfl, Scan.run.eq_1 ..⟩
  rw [run'] at run
  have reaches := run ▸ Scan.reaches_run kw (text.toList ++ (tail ++ ['&']))
  have isClosed (t : Token) (ht : t ∈ s'.tokens) : t.IsClosed kw := by
    refine ⟨reaches.exists_describe ht, fun hkind hsplit hslot hread => Bool.eq_false_iff.mpr fun ends => ?_⟩
    rw [tokens'] at ht
    obtain rfl | ht := List.mem_cons.mp ht
    · cases hkind
    obtain ht | ht := tokens t ht
    · exact h t (List.mem_reverse.mpr (.tail _ ht)) ⟨_, _, _, _, _, _, hkind, hsplit, hslot, hread, ends⟩
    · rw [Token.isTrivia, hkind] at ht
      cases ht
  have barred : Token.Barred kw s'.finish.tokens := by
    show Token.Barred kw (_ :: s'.tokens).reverse
    rw [tokens'] at isClosed ⊢
    rw [List.reverse_cons, List.reverse_cons, List.append_assoc]
    exact .append (fun t ht => isClosed t (.tail _ (List.mem_reverse.mp ht))) (.here rfl (isClosed _ (.head _)))
  have faults : s'.finish.faults.any (·.fault == .unterminatedComment) = false := by
    rw [Scan.IsClosed, ← faults'] at closed
    simpa [Scan.finish] using closed
  refine ⟨.ofList (tail ++ ['&']), ?_⟩
  unfold isComplete
  dsimp only
  rw [scan, String.toList_append, String.toList_ofList, run, faults]
  split
  · contradiction
  · split
    · next hread => rw [Bool.not_eq_true']; exact Parser.namesEnd_readProgram barred rfl rfl hread
    · rfl

theorem exists_isComplete_sum : isComplete .default "1 +" = false ∧ ∃ t, isComplete .default ("1 +" ++ t) = true := by
  have texts : ∀ t ∈ (scan .default "1 +").tokens, t.terminal ≠ .text := by decide +kernel
  refine ⟨by decide +kernel, exists_isComplete ?_⟩
  rintro t ht ⟨raw, _, _, _, _, _, hkind, -⟩
  exact texts t ht (congrArg TokenKind.terminal hkind)

end Session

/-! ## Inputs that cannot -/

namespace Scan

/-- The token of a text that stands at the start of a script. -/
def opening (raw : String) : Token :=
  ⟨.text raw, Layout.quoted raw, ⟨1, 1, (Layout.quoted raw).length⟩⟩

theorem tokens_scan_quoted (kw : KeywordTable) {raw : String} (h : IsQuotable raw.toList) (t : String) :
    ∃ more, (scan kw (Layout.quoted raw ++ t)).tokens = opening raw :: more := by
  obtain ⟨c, cs, hchars, hread⟩ : ∃ c cs, (Layout.quoted raw).toList = c :: cs ∧
    Lexeme.read c (cs ++ t.toList) = ⟨.text raw.toList, c :: cs, t.toList⟩ := Lexeme.read_quoted h
  obtain ⟨owed, faults, -, hrun⟩ := exists_token kw {} hread rfl
  have hchars' : (Layout.quoted raw ++ t).toList = c :: (cs ++ t.toList) := by
    rw [String.toList_append, hchars, List.cons_append]
  rw [← hchars, String.ofList_toList, String.ofList_toList, String.length_toList] at hrun
  obtain ⟨later, found⟩ := (suffix_run kw _ t.toList).1
  unfold scan Scan.finish
  dsimp only
  rw [hchars', hrun, ← found, List.reverse_cons, List.reverse_append]
  exact ⟨_, rfl⟩

end Scan

namespace Parse

variable {α β : Type} {r : Rules} {p q : Parser} {f : Fault}

theorem bind_failed {x : Parse α} {g : α → Parse β} (h : x p = .failed f q) : (x >>= g) p = .failed f q := by
  rw [Action.bind_apply, h]

theorem rounds_failed {round : α → Parse (Round α β)} {a : α} (h : round a p = .failed f q) :
    rounds round a p = .failed f q := by
  unfold rounds repeatRound
  exact bind_failed h

/-- **An expression fails as the primary expression does that it starts with.** -/
theorem expression_failed (h : primary r p = .failed f q) : expression r p = .failed f q := by
  have operand : operand r p = .failed f q := bind_failed h
  have range : range r p = .failed f q := bind_failed operand
  have sum : sum r p = .failed f q := bind_failed range
  have equality : equality r p = .failed f q := bind_failed sum
  have comparison : comparison r p = .failed f q := bind_failed equality
  exact bind_failed comparison

theorem slot_failed {text : Span} {source : String} {offset : Nat} (scanned : (scan p.keywords source).faults = [])
    (read : wholeExpression r.expression (slotParser p (slotTokens p.keywords text source offset)) = .failed f q) :
    slot r text source offset p = .failed f { p with nextId := q.nextId, log := p.log.record f } := by
  unfold slotTokens at read
  unfold slot
  simp only [scanned, read]
  rfl

theorem template_failed {raw source : String} {span : Span} {offset : Nat} {others : List Template.Segment}
    (split : Template.split raw = .ok (.slot source offset :: others)) (h : slot r span source offset p = .failed f q) :
    template r raw span p = .failed f q := by
  unfold template
  simp only [split]
  exact bind_failed (bind_failed h)

theorem statement_failed {raw lexeme : String} {span : Span} {more : List Token} (isTemplate : Template.isTemplate raw = true)
    (h : template r raw span { p with tokens := more, lastSpan := span } = .failed f q) :
    statement r { p with tokens := ⟨.text raw, lexeme, span⟩ :: more } = .failed f q := by
  have start : primary r { p with tokens := ⟨.text raw, lexeme, span⟩ :: more } = .failed f q := by
    show (if Template.isTemplate raw then (do let _ ← advance; template r raw span) else _ : Parse Expr) _ = _
    rw [if_pos isTemplate]
    exact h
  have statement : expressionStatement r { p with tokens := ⟨.text raw, lexeme, span⟩ :: more } = .failed f q :=
    (bind_failed (expression_failed start) :)
  exact statement

/-- **Reading a program fails as its first statement does.** -/
theorem readProgram_failed (front : p.front.isEnd = false)
    (h : Rules.tied.statement { p with log := {}, nextId := p.nextId + 1 } = .failed f q) :
    ∃ q', p.readProgram = .failed (q.log.surface f) q' := by
  have program : program .tied { p with log := {} } = .failed f q := by
    refine bind_failed (p := { p with log := {}, nextId := p.nextId + 1 }) (rounds_failed ?_)
    show (if p.front.isEnd then _ else _ : Parse _) _ = _
    rw [if_neg (by simp [front])]
    exact bind_failed h
  rw [Parser.readProgram_tied, withOwnLog, program]
  exact ⟨_, rfl⟩

end Parse

namespace Session

open Parse (slotParser slotTokens)
open Scan (opening)

/-- **A text starts with a slot that cannot be read** where the text stands at the start of an input: the script of the
slot can be scanned, and reading its expression fails. -/
structure FailsInSlot (kw : KeywordTable) (raw : String) (fault : Fault) : Prop where
  quotable : IsQuotable raw.toList
  isTemplate : Template.isTemplate raw = true
  slot : ∃ (source : String) (offset : Nat) (others : List Template.Segment) (q : Parser),
    Template.split raw = .ok (.slot source offset :: others) ∧ (scan kw source).faults = [] ∧
      (slotParser { keywords := kw, nextId := 1 } (slotTokens kw (opening raw).span source offset)).readExpression =
        .failed fault q

variable {kw : KeywordTable} {raw : String} {fault : Fault}

theorem FailsInSlot.readProgram (h : FailsInSlot kw raw fault) (more : List Token) :
    ∃ q, { Parser.ofTokens (opening raw :: more) with keywords := kw }.readProgram = .failed fault q := by
  obtain ⟨source, offset, others, u, split, scanned, failed⟩ := h.slot
  unfold Parser.ofTokens
  generalize Option.getD _ _ = endSpan
  -- the parser comes to the slot behind the identity of the program and the token of the text
  have slot := Parse.slot_failed (r := .tied) (p := ⟨more, endSpan, kw, .strict, {}, 1, (opening raw).span⟩) scanned failed
  have statement : Parse.statement .tied ⟨opening raw :: more, endSpan, kw, .strict, {}, 1, {}⟩ = _ :=
    Parse.statement_failed (p := ⟨[], endSpan, kw, .strict, {}, 1, {}⟩) h.isTemplate (Parse.template_failed split slot)
  rw [← Rules.tied_statement] at statement
  exact Parse.readProgram_failed (p := ⟨opening raw :: more, endSpan, kw, .strict, {}, 0, {}⟩) rfl statement

/-- **What is behind the text does not matter**, unless it is a comment that does not end. -/
theorem FailsInSlot.isComplete (h : FailsInSlot kw raw fault) (t : String) :
    Session.isComplete kw (Layout.quoted raw ++ t) =
      (!(scan kw (Layout.quoted raw ++ t)).faults.any (·.fault == .unterminatedComment) && !fault.isUnfinished) := by
  obtain ⟨more, tokens⟩ := Scan.tokens_scan_quoted kw h.quotable t
  obtain ⟨q, failed⟩ := h.readProgram more
  unfold Session.isComplete
  dsimp only
  rw [tokens, failed]
  split <;> simp_all

/-- A text with a sum that misses its second operand. -/
def openSum : String := "\x7b\x7b 1 + \x7d\x7d"

theorem failsInSlot_openSum : ∃ fault, FailsInSlot .default openSum fault ∧ fault.isUnfinished = true := by
  have read : (slotParser { keywords := .default, nextId := 1 }
      (slotTokens .default (opening openSum).span " 1 + " 2)).readExpression.failedWith
      (fun fault _ => fault.isUnfinished) = true := by decide +kernel
  obtain ⟨fault, q, failed, unfinished⟩ := Outcome.of_failedWith read
  exact ⟨fault, ⟨⟨by decide, by decide⟩, by decide +kernel, " 1 + ", 2, [], q, by cbv, by decide +kernel, failed⟩,
    unfinished⟩

/-- **A session gets stuck.** A closed text with an open sum in its slot is not complete, and no text behind it makes it
so. -/
theorem stuck_on_openSum : Layout.quoted openSum = "\"\x7b\x7b 1 + \x7d\x7d\"" ∧
    ∀ t, isComplete .default (Layout.quoted openSum ++ t) = false := by
  obtain ⟨fault, fails, unfinished⟩ := failsInSlot_openSum
  refine ⟨by decide +kernel, fun t => ?_⟩
  rw [fails.isComplete, unfinished, Bool.not_true, Bool.and_false]

end Session

end Trellis
