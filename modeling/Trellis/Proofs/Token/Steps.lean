import Trellis.Proofs.Token.Lexemes
import Trellis.Token.Scan

/-!
# What lexemes do to a scan

A lexeme does one of five things to a scan. It adds a token, and then it may open or close a bracket; it ends a line,
with the mark of a blank line or without; it is passed over; or it is a fault (`Scan.Steps`). So what all scans have in
common is proved for these five, and then for all the states that the scan of a script comes by (`Scan.Reaches`).
-/

namespace Trellis

def Token.isBlankLine (t : Token) : Bool :=
  match t.kind with
  | .blankLine => true
  | _ => false

variable {keywords : KeywordTable} {x : Lexeme}

namespace Lexeme

def tokenKind? (keywords : KeywordTable) (x : Lexeme) : Option TokenKind :=
  match x.kind with
  | .symbol s => some (.symbol s)
  | .comment => some .comment
  | .newline => none
  | .blank => none
  | .text value => some (.text (String.ofList value))
  | .number => some (.number ((Number.read? (String.ofList x.text)).getD 0))
  | .word =>
    match keywords.find? (String.ofList x.text) with
    | some k => some (.keyword k)
    | none => some .name
  | .fault _ => none

theorem symbol_of_tokenKind? {s : Symbol} (h : x.tokenKind? keywords = some (.symbol s)) : x.kind = .symbol s := by
  unfold tokenKind? at h
  repeat' split at h
  all_goals cases h
  assumption

theorem isMark_of_tokenKind? {kind : TokenKind} (h : x.tokenKind? keywords = some kind) (text : String)
    (span : Span) : (Token.mk kind text span).isBlankLine = false ∧ (Token.mk kind text span).isEnd = false := by
  unfold tokenKind? at h
  repeat' split at h
  all_goals cases h
  all_goals exact ⟨rfl, rfl⟩

theorem Reads.isBlank_of_tokenKind? {c : Char} {rest : List Char} (h : Reads c rest x) {kind : TokenKind}
    (hkind : x.tokenKind? keywords = some kind) : Text.isBlank c = false := by
  cases h with
  | single h => unfold Symbol.single? at h; split at h <;> first | rfl | cases h
  | long h => unfold Symbol.pair? at h; split at h <;> first | rfl | cases h
  | short h => unfold Symbol.pair? at h; split at h <;> first | rfl | cases h
  | marked => rfl
  | line => rfl
  | text hquote => obtain rfl | rfl := hquote <;> rfl
  | number hc => exact (Text.digits_plain _ (Text.mem_digits hc)).2.2.1
  | word h => exact Text.isBlank_of_startsWord h
  | _ => cases hkind

end Lexeme

namespace Scan

/-- **What a token does to the brackets**: the closing ones that are owed then, and the faults. -/
inductive Settles (s : Scan) (x : Lexeme) : TokenKind → List Symbol → List LocatedScanFault → Prop where
  | opens {symbol closer} (h : symbol.closer? = some closer) :
      Settles s x (.symbol symbol) (closer :: s.owed) s.faults
  | closes {symbol owed} (h : symbol.isCloser = true) (owes : s.owed = symbol :: owed) :
      Settles s x (.symbol symbol) owed s.faults
  | unmatched {symbol} (h : symbol.isCloser = true) (owes : s.owed.head? ≠ some symbol) :
      Settles s x (.symbol symbol) s.owed
        (⟨.unmatched (x.text.headD ' '), s.position.span x.text.length⟩ :: s.faults)
  | keeps {kind}
      (h : ∀ symbol, kind = .symbol symbol → symbol.closer? = none ∧ symbol.isCloser = false) :
      Settles s x kind s.owed s.faults

inductive Steps (keywords : KeywordTable) (s : Scan) (x : Lexeme) : Scan → Prop where
  | token {kind owed faults}
      (hkind : x.tokenKind? keywords = some kind) (settles : s.Settles x kind owed faults) :
      Steps keywords s x ⟨s.position.after x.text, true, owed,
        ⟨kind, String.ofList x.text, s.position.span x.text.length⟩ :: s.tokens, faults⟩
  | mark (hkind : x.kind = .newline) (text : x.text = ['\n']) (marks : s.marksBlankLine = true) :
      Steps keywords s x ⟨s.position.after x.text, false, s.owed,
        ⟨.blankLine, "", ⟨s.position.line, 1, 0⟩⟩ :: s.tokens, s.faults⟩
  | line (hkind : x.kind = .newline) (text : x.text = ['\n']) (marks : s.marksBlankLine = false) :
      Steps keywords s x ⟨s.position.after x.text, false, s.owed, s.tokens, s.faults⟩
  | blank {c} (hkind : x.kind = .blank) (text : x.text = [c]) (hblank : Text.isBlank c = true) (noFeed : c ≠ '\n') :
      Steps keywords s x ⟨s.position.after x.text, s.content, s.owed, s.tokens, s.faults⟩
  | fault {content fault} (hkind : x.kind = .fault fault) :
      Steps keywords s x ⟨s.position.after x.text, content, s.owed, s.tokens,
        ⟨fault, faultSpan s.position (s.position.after x.text) fault x.text.length⟩ :: s.faults⟩

theorem Settles.suffix_faults {s : Scan} {kind : TokenKind} {owed : List Symbol} {faults : List LocatedScanFault}
    (h : s.Settles x kind owed faults) : s.faults <:+ faults := by
  cases h with
  | unmatched => exact List.suffix_cons _ _
  | _ => exact List.suffix_rfl

theorem Steps.suffix {s s' : Scan} (h : s.Steps keywords x s') : s.tokens <:+ s'.tokens ∧ s.faults <:+ s'.faults := by
  cases h with
  | token _ settles => exact ⟨List.suffix_cons _ _, settles.suffix_faults⟩
  | mark => exact ⟨List.suffix_cons _ _, List.suffix_rfl⟩
  | fault => exact ⟨List.suffix_rfl, List.suffix_cons _ _⟩
  | _ => exact ⟨List.suffix_rfl, List.suffix_rfl⟩

theorem Steps.exists_fault {s s' : Scan} (h : s.Steps keywords x s') {f : ScanFault} (hf : x.kind = .fault f) :
    s'.tokens = s.tokens ∧ ∃ span, s'.faults = ⟨f, span⟩ :: s.faults := by
  cases h with
  | token hkind =>
    rw [Lexeme.tokenKind?, hf] at hkind
    cases hkind
  | fault hkind =>
    cases hkind.symm.trans hf
    exact ⟨rfl, _, rfl⟩
  | _ hkind => cases hkind.symm.trans hf

theorem exists_bracket (s : Scan) (x : Lexeme) (symbol : Symbol) (content : Bool) :
    ∃ owed faults, s.Settles x (.symbol symbol) owed faults ∧
      bracket { s with content := content } symbol (x.text.headD ' ') (s.position.span x.text.length) =
        ⟨s.position, content, owed, s.tokens, faults⟩ := by
  unfold bracket
  split
  · rename_i h
    exact ⟨_, _, .opens h, rfl⟩
  · rename_i noOpener
    split
    · rename_i h
      split
      · rename_i owes
        split
        · rename_i same
          exact ⟨_, _, .closes h (beq_iff_eq.mp same ▸ owes), rfl⟩
        · rename_i differs
          exact ⟨_, _, .unmatched h (by simpa [show s.owed = _ from owes] using differs), rfl⟩
      · rename_i owes
        exact ⟨_, _, .unmatched h (by simp [show s.owed = _ from owes]), rfl⟩
    · rename_i noCloser
      refine ⟨_, _, .keeps fun symbol heq => ?_, rfl⟩
      cases heq
      exact ⟨noOpener, Bool.eq_false_iff.mpr noCloser⟩

theorem steps_step (keywords : KeywordTable) (s : Scan) (c : Char) (rest : List Char) :
    s.Steps keywords (Lexeme.read c rest) (s.step keywords c (Lexeme.read c rest)) := by
  have reads := Lexeme.reads_read c rest
  generalize Lexeme.read c rest = x at reads ⊢
  have content {kind : TokenKind} (hkind : x.tokenKind? keywords = some kind) :
      (s.content || !Text.isBlank c) = true := by
    rw [reads.isBlank_of_tokenKind? hkind]
    exact Bool.or_true _
  have plain (kind : TokenKind) (hkind : x.tokenKind? keywords = some kind) (h : ∀ symbol, kind ≠ .symbol symbol)
      (step : s.step keywords c x = ⟨s.position.after x.text, s.content || !Text.isBlank c, s.owed,
        ⟨kind, String.ofList x.text, s.position.span x.text.length⟩ :: s.tokens, s.faults⟩) :
      s.Steps keywords x (s.step keywords c x) := by
    rw [step, content hkind]
    exact .token hkind (.keeps fun symbol heq => absurd heq (h symbol))
  cases hx : x.kind with
  | symbol symbol =>
    have hkind : x.tokenKind? keywords = some (.symbol symbol) := by rw [Lexeme.tokenKind?, hx]
    obtain ⟨owed, faults, settles, hbracket⟩ := exists_bracket s x symbol (s.content || !Text.isBlank c)
    simp only [step, take, hx, hbracket, addToken]
    rw [content hkind]
    exact .token hkind settles
  | comment => exact plain .comment (by rw [Lexeme.tokenKind?, hx]) nofun (by simp only [step, take, hx, addToken])
  | newline =>
    obtain ⟨rfl, text⟩ : c = '\n' ∧ x.text = ['\n'] := by cases reads <;> cases hx; exact ⟨rfl, rfl⟩
    have noted : (s.content || !Text.isBlank '\n') = s.content := Bool.or_false _
    simp only [step, take, hx, endLine, noted]
    split
    · rename_i marks
      exact .mark hx text marks
    · rename_i marks
      exact .line hx text (Bool.eq_false_iff.mpr marks)
  | blank =>
    obtain ⟨text, hblank, noFeed⟩ : x.text = [c] ∧ Text.isBlank c = true ∧ c ≠ '\n' := by
      cases reads <;> cases hx
      rename_i hblank noFeed
      exact ⟨rfl, hblank, noFeed⟩
    simp only [step, take, hx, hblank, Bool.not_true, Bool.or_false]
    exact .blank hx text hblank noFeed
  | text value => exact plain (.text _) (by rw [Lexeme.tokenKind?, hx]) nofun (by simp only [step, take, hx, addToken])
  | number => exact plain (.number _) (by rw [Lexeme.tokenKind?, hx]) nofun (by simp only [step, take, hx, addToken])
  | word =>
    cases find : keywords.find? (String.ofList x.text) with
    | some k =>
      exact plain (.keyword k) (by simp only [Lexeme.tokenKind?, hx, find]) nofun
        (by simp only [step, take, hx, find, addToken])
    | none =>
      exact plain .name (by simp only [Lexeme.tokenKind?, hx, find]) nofun
        (by simp only [step, take, hx, find, addToken])
  | fault fault =>
    simp only [step, take, hx, addFault]
    exact .fault hx

/-- **The states that the scan of a script comes by**, with the characters that were read and those that are left. -/
inductive Reaches (keywords : KeywordTable) (source : List Char) : Scan → List Char → List Char → Prop where
  | start : Reaches keywords source {} [] source
  | step {s done c rest} (h : Reaches keywords source s done (c :: rest)) :
      Reaches keywords source (s.step keywords c (Lexeme.read c rest)) (done ++ (Lexeme.read c rest).text)
        (Lexeme.read c rest).rest

variable {keywords : KeywordTable} {source done left : List Char} {s : Scan}

theorem Reaches.source_eq (h : Reaches keywords source s done left) : source = done ++ left := by
  induction h with
  | start => rfl
  | step h ih => rw [List.append_assoc, Lexeme.text_append_rest, ih]

theorem Reaches.position_eq (h : Reaches keywords source s done left) : s.position = ({} : Position).after done := by
  induction h with
  | start => rfl
  | step h ih =>
    rw [Position.after_append, ← ih]
    rfl

theorem Reaches.run (h : Reaches keywords source s done left) :
    Reaches keywords source (s.run keywords left) source [] := by
  fun_induction Scan.run keywords s left generalizing done with
  | case1 s =>
    have hsource := h.source_eq
    rw [List.append_nil] at hsource
    exact hsource ▸ h
  | case2 s c rest lexeme =>
    rename_i ih
    exact ih h.step

theorem Reaches.run_eq (h : Reaches keywords source s done left) :
    Scan.run keywords {} source = s.run keywords left := by
  induction h with
  | start => rfl
  | step h ih => rw [ih, Scan.run]

/-- **Scanning goes on**: what was found so far stays. -/
theorem suffix_run (keywords : KeywordTable) (s : Scan) (cs : List Char) :
    s.tokens <:+ (s.run keywords cs).tokens ∧ s.faults <:+ (s.run keywords cs).faults := by
  fun_induction Scan.run keywords s cs with
  | case1 s => exact ⟨List.suffix_rfl, List.suffix_rfl⟩
  | case2 s c rest lexeme ih =>
    have step := (steps_step keywords s c rest).suffix
    exact ⟨step.1.trans ih.1, step.2.trans ih.2⟩

theorem Reaches.isEnd (h : Reaches keywords source s done left) : ∀ t ∈ s.tokens, t.isEnd = false := by
  induction h with
  | start => exact List.forall_mem_nil _
  | @step s _ c rest h ih =>
    generalize hstep : s.step keywords c (Lexeme.read c rest) = s'
    cases hstep ▸ steps_step keywords s c rest with
    | token hkind => exact List.forall_mem_cons.mpr ⟨(Lexeme.isMark_of_tokenKind? hkind _ _).2, ih⟩
    | mark => exact List.forall_mem_cons.mpr ⟨rfl, ih⟩
    | _ => exact ih

theorem reaches_run (keywords : KeywordTable) (source : List Char) :
    Reaches keywords source (run keywords {} source) source [] :=
  Reaches.start.run

end Scan

end Trellis
