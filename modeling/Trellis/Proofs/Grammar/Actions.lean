import Trellis.Proofs.Grammar.Productions
import Trellis.Proofs.Script.Template

/-!
# What actions do

The actions that productions are made of, in the form in which proofs use them. The next token of the grammar is
the first one behind comments and blank lines, and taking it leaves what is behind it. A slot of a template is read
by a parser of its own, which only gives back the identities it has used.
-/

namespace Trellis

open Token (weightOf)

def MatchMode.limit : MatchMode → Nat
  | strict => 0
  | lenient limit => limit

theorem Parse.expect_eq (t : Terminal) (what : String) (p : Parser) :
    Parse.expect t what p = Parse.seek t what p.matching.limit p := by
  show (match p.matching with
    | .strict => do if ← Parse.sees t then Parse.advance else Parse.failExpected what
    | .lenient limit => Parse.seek t what limit : Parse Token) p = _
  cases p.matching <;> rfl

theorem FaultLog.surface_record (log : FaultLog) (f : Fault) : (log.record f).surface f = log.surface f := by
  rw [surface, innermost?_record, surface]
  cases log.innermost? <;> rfl

namespace Parser

variable {p : Parser}

theorem weight_eq (p : Parser) : p.weight = weightOf p.tokens := rfl

theorem peek_eq (p : Parser) : p.peek = (Token.skip p.tokens).head?.getD p.endMark := by
  rw [peek, Token.find?_not_trivia]

theorem peekSecond_eq (p : Parser) : p.peekSecond = (Token.skip (Token.skip p.tokens).tail).head?.getD p.endMark := by
  have hskip : p.tokens.dropWhile (·.isTrivia) = Token.skip p.tokens := rfl
  rw [peekSecond, hskip]
  cases Token.skip p.tokens with
  | nil => rfl
  | cons t rest => exact congrArg (·.getD p.endMark) (Token.find?_not_trivia rest)

theorem peek_of_skip {t : Token} {rest : List Token} (h : Token.skip p.tokens = t :: rest) : p.peek = t := by
  rw [peek_eq, h]
  rfl

theorem weight_peek (h : p.peek.isEnd = false) : p.peek.weight ≤ p.weight := by
  cases hskip : Token.skip p.tokens with
  | nil =>
    rw [peek_eq, hskip] at h
    cases h
  | cons t rest =>
    have hle := Token.weightOf_le_of_suffix (Token.skip_suffix p.tokens)
    rw [hskip, Token.weightOf_cons] at hle
    rw [peek_of_skip hskip]
    exact Nat.le_of_add_right_le hle

end Parser

variable {source : String}

namespace Parse

section

variable {p : Parser} {t : Token} {rest : List Token}

theorem advance_of_nil (h : Token.skip p.tokens = []) :
    advance p = .done p.endMark { p with tokens := [], lastSpan := p.endSpan } := by
  unfold advance
  rw [show p.tokens.dropWhile (·.isTrivia) = [] from h]

theorem advance_of_isEnd (h : Token.skip p.tokens = t :: rest) (hend : t.isEnd = true) :
    advance p = .done p.endMark { p with tokens := t :: rest, lastSpan := p.endSpan } := by
  unfold advance
  rw [show p.tokens.dropWhile (·.isTrivia) = t :: rest from h]
  simp only [hend, if_true]

theorem advance_of_not_isEnd (h : Token.skip p.tokens = t :: rest) (hend : t.isEnd = false) :
    advance p = .done t { p with tokens := rest, lastSpan := t.span } := by
  unfold advance
  rw [show p.tokens.dropWhile (·.isTrivia) = t :: rest from h]
  simp only [hend, Bool.false_eq_true, if_false]

/-- **Taking a token**: it is the next one of the grammar, unless that marks the end, and what was in front of it
is skipped. -/
theorem exists_advance (p : Parser) :
    ∃ t q ts, advance p = .done t q ∧ p.tokens = ts ++ q.tokens ∧ (∀ u ∈ ts, u.isEnd = false) ∧ q.log = p.log ∧
      t.terminal = p.peek.terminal ∧ (t.isEnd = false → t = p.peek ∧ t ∈ ts) := by
  have hskip : p.tokens = p.tokens.takeWhile (·.isTrivia) ++ Token.skip p.tokens :=
    List.takeWhile_append_dropWhile.symm
  have hnoEnd : ∀ t ∈ p.tokens.takeWhile (·.isTrivia), t.isEnd = false := by
    intro t ht
    have htrivia := List.all_eq_true.mp List.all_takeWhile t ht
    obtain ⟨kind, lexeme, span⟩ := t
    cases kind with
    | endOfFile => cases htrivia
    | _ => rfl
  rw [Parser.peek_eq]
  cases hrest : Token.skip p.tokens with
  | nil =>
    rw [hrest] at hskip
    exact ⟨_, _, _, advance_of_nil hrest, hskip, hnoEnd, rfl, rfl, nofun⟩
  | cons t others =>
    rw [hrest] at hskip
    cases hend : t.isEnd with
    | true =>
      refine ⟨_, _, _, advance_of_isEnd hrest hend, hskip, hnoEnd, rfl, ?_, nofun⟩
      rw [Token.isEnd_eq, beq_iff_eq] at hend
      exact hend.symm
    | false =>
      refine ⟨t, _, _ ++ [t], advance_of_not_isEnd hrest hend, by rw [hskip, List.append_assoc]; rfl, ?_, rfl, rfl,
        fun _ => ⟨rfl, List.mem_append_right _ (.head _)⟩⟩
      exact List.forall_mem_append.mpr ⟨hnoEnd, List.forall_mem_singleton.mpr hend⟩

end

variable {p q : Parser}

theorem of_advance {t : Token} (h : advance p = .done t q) :
    t.terminal = p.peek.terminal ∧ t.describe = p.peek.describe := by
  obtain ⟨_, _, _, hread, -, -, -, hterminal, hpeek⟩ := exists_advance p
  cases h.symm.trans hread
  refine ⟨hterminal, ?_⟩
  cases hend : t.isEnd with
  | true =>
    have describe_end {u : Token} (hu : u.isEnd = true) : u.describe = "end of file" := by
      obtain ⟨kind, lexeme, span⟩ := u
      cases kind <;> first | rfl | cases hu
    rw [describe_end hend, describe_end (by rw [Token.isEnd_eq, ← hterminal, ← Token.isEnd_eq, hend])]
  | false => rw [(hpeek hend).1]

theorem log_advance {t : Token} (h : advance p = .done t q) : q.log = p.log := by
  obtain ⟨_, _, _, hread, -, -, hlog, -⟩ := exists_advance p
  cases h.symm.trans hread
  exact hlog

/-! ## Whole readings -/

/-- Read with a log of faults that starts empty. If it fails, the fault is the one that the log shows. -/
def withOwnLog {α : Type} (x : Parse α) : Parse α := fun p =>
  match x { p with log := {} } with
  | .done a q => .done a q
  | .failed fault q => .failed (q.log.surface fault) { q with log := {} }
  | .exhausted => .exhausted

def whole (x : Parse Expr) : Parse Expr := do
  let e ← x
  let _ ← expect .endOfFile "end of expression"
  return e

theorem wholeExpression_eq (x : Parse Expr) : wholeExpression x = withOwnLog (whole x) := by
  funext p
  unfold wholeExpression withOwnLog whole
  simp only
  generalize (x >>= _) _ = o
  cases o <;> rfl

theorem readProgram_eq (p : Parser) : Parser.readProgram p = withOwnLog (program p.rules) p := by
  unfold Parser.readProgram withOwnLog
  generalize program p.rules _ = o
  cases o <;> rfl

theorem withOwnLog_done {α : Type} {x : Parse α} {a : α} :
    withOwnLog x p = .done a q ↔ x { p with log := {} } = .done a q := by
  unfold withOwnLog
  cases x { p with log := {} } with
  | done b u => exact Iff.rfl
  | failed fault u => exact ⟨nofun, nofun⟩
  | exhausted => exact ⟨nofun, nofun⟩

def slotTokens (keywords : KeywordTable) (text : Span) (source : String) (offset : Nat) : List Token :=
  (scan keywords source).tokens.map fun t => { t with span := shiftSpan text offset t.span }

def slotOutcome (p : Parser) : Outcome Parser Expr → Outcome Parser Expr
  | .done e q => .done e { p with nextId := q.nextId }
  | .failed fault q => failWith (q.log.surface fault) { p with nextId := q.nextId }
  | .exhausted => .exhausted

theorem slot_of_fault {p : Parser} {f : LocatedScanFault} {others : List LocatedScanFault}
    (h : (scan p.keywords source).faults = f :: others) (r : Rules) (text : Span) (offset : Nat) :
    slot r text source offset p = fail (.scan f.fault) (shiftSpan text offset f.span) p := by
  unfold slot
  simp only [h]

theorem slot_of_scanned {p : Parser} (h : (scan p.keywords source).faults = []) (r : Rules)
    (text : Span) (offset : Nat) :
    slot r text source offset p =
      slotOutcome p (whole r.expression (slotParser p (slotTokens p.keywords text source offset))) := by
  have hlog (tokens : List Token) : ({ slotParser p tokens with log := {} } : Parser) = slotParser p tokens := rfl
  unfold slot slotTokens
  simp only [h]
  rw [wholeExpression_eq, withOwnLog, hlog]
  cases whole r.expression (slotParser p _) <;> rfl

theorem slot_done {r : Rules} {text : Span} {offset : Nat} {e : Expr} :
    slot r text source offset p = .done e q ↔ (scan p.keywords source).faults = [] ∧
      ∃ u, wholeExpression r.expression (slotParser p (slotTokens p.keywords text source offset)) = .done e u ∧
        q = { p with nextId := u.nextId } := by
  unfold slot slotTokens
  simp only
  cases (scan p.keywords source).faults with
  | cons f others => exact ⟨nofun, nofun⟩
  | nil =>
    simp only [true_and]
    cases wholeExpression r.expression (slotParser p _) with
    | done e' u =>
      refine ⟨fun h => ?_, fun ⟨u', h, hq⟩ => ?_⟩
      · cases h
        exact ⟨u, rfl, rfl⟩
      · cases h
        rw [hq]
    | failed fault u => exact ⟨nofun, nofun⟩
    | exhausted => exact ⟨nofun, nofun⟩

theorem weightOf_slotTokens (keywords : KeywordTable) (text : Span) (source : String) (offset : Nat) :
    weightOf (slotTokens keywords text source offset) ≤ source.length + 1 := by
  have hweight := weightOf_scan keywords source
  unfold slotTokens
  generalize (scan keywords source).tokens = ts at hweight ⊢
  have hmap : weightOf (ts.map fun t => { t with span := shiftSpan text offset t.span }) = weightOf ts := by
    clear hweight
    induction ts with
    | nil => rfl
    | cons t ts ih => exact congrArg (t.weight + ·) ih
  rw [hmap]
  exact hweight

end Parse

/-! ## Statements -/

namespace Parse

def blockRound (r : Rules) (terminators : List Terminal) (reversed : List Stmt) :
    Parse (Round (List Stmt) (List Stmt)) := do
  let front ← Action.read Parser.front
  if front.isEnd || terminators.contains front.terminal then return .stop reversed
  return .again ((← r.statement) :: reversed)

theorem blockUntil_eq (r : Rules) (terminators : List Terminal) :
    blockUntil r terminators = (do
      let id ← freshId
      let span ← Action.read (·.lastSpan)
      let reversed ← rounds (blockRound r terminators) []
      return ⟨id, span, reversed.reverse⟩) := rfl

theorem program_eq (r : Rules) :
    program r = (do
      let id ← freshId
      let reversed ← rounds (blockRound r []) []
      return ⟨id, reversed.reverse⟩) := by
  have hround : blockRound r [] = fun reversed => (do
      if (← Action.read Parser.front).isEnd then return .stop reversed
      return .again ((← r.statement) :: reversed)) := by
    funext reversed p
    show (if p.front.isEnd || false then _ else _ : Parse _) p = (if p.front.isEnd then _ else _ : Parse _) p
    rw [Bool.or_false]
  rw [hround]
  rfl

end Parse

def Token.triviaForm (t : Token) : StmtForm :=
  if t.isBlankLine then .blankLine else .comment t.lexeme

namespace Parse

variable {p : Parser}

def pastTrivia (p : Parser) : Parser :=
  { p with tokens := p.tokens.drop 1, nextId := p.nextId + 1 }

theorem statement_eq (r : Rules) (p : Parser) :
    statement r p =
      if p.front.isTrivia then .done ⟨p.nextId, p.front.span, p.front.triviaForm⟩ (pastTrivia p)
      else properStatement r p := by
  have hread : ∀ k : Token → Parse Stmt, (Action.read Parser.front >>= k) p = k p.front p := fun _ => rfl
  rw [statement, hread, Token.isTrivia, Token.triviaForm, Token.isBlankLine]
  cases p.front.kind <;> rfl

theorem statement_of_trivia (h : p.front.isTrivia = true) (r : Rules) :
    statement r p = .done ⟨p.nextId, p.front.span, p.front.triviaForm⟩ (pastTrivia p) := by
  rw [statement_eq, if_pos h]

theorem statement_of_not_trivia (h : p.front.isTrivia = false) (r : Rules) : statement r p = properStatement r p := by
  rw [statement_eq, h]
  rfl

theorem tokens_of_trivia (h : p.front.isTrivia = true) : p.tokens = p.front :: p.tokens.drop 1 := by
  cases htokens : p.tokens with
  | nil =>
    rw [Parser.front, htokens] at h
    cases h
  | cons t rest =>
    rw [Parser.front, htokens]
    rfl

end Parse

/-! ## Scripts -/

def Parser.ofScript (keywords : KeywordTable) (matching : MatchMode) (source : String) : Parser :=
  { Parser.ofTokens (scan keywords source).tokens with keywords, matching }

theorem Parser.readProgram_of_readScript {keywords : KeywordTable} {matching : MatchMode} {program : Program}
    {q : Parser} (h : readScript keywords matching source = .done program q) :
    (Parser.ofScript keywords matching source).readProgram = .done program q := by
  unfold readScript at h
  cases hfault : (scan keywords source).fault? with
  | some fault =>
    simp only [hfault] at h
    cases h
  | none =>
    simp only [hfault] at h
    exact h

end Trellis
