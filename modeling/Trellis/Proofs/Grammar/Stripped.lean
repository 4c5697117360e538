import Trellis.Proofs.Grammar.Serves
import Trellis.Proofs.Run.Beside

/-!
# Taking out comments and blank lines

Taking out all comments and blank lines leaves no gaps, and a list that has none behind `expose` serves for what
is left of it. So the law that comments and blank lines do not matter holds in both directions up to these
gaps (`readsFor_stripped`), and it fails at one of them (`not_readsFor_commentedExpose`).
-/

namespace Trellis

/-! ## Taking out comments and blank lines -/

variable {mark : Token}

namespace Token

def stripped (ts : List Token) : List Token :=
  ts.filter fun t => !t.isTrivia

/-- **The tokens of the grammar and the gaps behind `expose`**: comments and blank lines are taken out unless
they stand directly behind that keyword. -/
def trimmed : List Token → List Token
  | [] => []
  | t :: ts =>
    if t.isTrivia then trimmed ts
    else t :: ((if t.isExpose then ts.takeWhile isTrivia else []) ++ trimmed ts)

def exposesDirectly : List Token → Bool
  | [] => true
  | t :: ts => !(t.isExpose && startsTrivia ts) && exposesDirectly ts

variable {ts : List Token}

theorem gist_append_of_trivia {trivia : List Token} (h : ∀ t ∈ trivia, t.isTrivia = true) (ts : List Token) :
    gist (trivia ++ ts) = gist ts := by
  induction trivia with
  | nil => rfl
  | cons t trivia ih =>
    rw [List.cons_append, gist_cons_of_trivia (h t (.head _)), ih fun t ht => h t (.tail _ ht)]

theorem startsTrivia_trimmed (ts : List Token) : startsTrivia (trimmed ts) = false := by
  induction ts with
  | nil => rfl
  | cons t ts ih =>
    rw [trimmed]
    cases ht : t.isTrivia with
    | true => exact ih
    | false => exact ht

theorem isTrivia_takeWhile : ∀ t ∈ ts.takeWhile isTrivia, t.isTrivia = true :=
  fun t ht => List.all_eq_true.mp List.all_takeWhile t ht

theorem startsTrivia_gap (t : Token) (ts : List Token) :
    startsTrivia ((if t.isExpose then ts.takeWhile isTrivia else []) ++ trimmed ts) =
      (t.isExpose && startsTrivia ts) := by
  cases t.isExpose with
  | false => exact startsTrivia_trimmed ts
  | true =>
    cases ts with
    | nil => rfl
    | cons u ts =>
      cases hu : u.isTrivia with
      | true => simp [startsTrivia, hu]
      | false =>
        have hnone := startsTrivia_trimmed (u :: ts)
        simpa [List.takeWhile_cons, hu, startsTrivia] using hnone

theorem serves_trimmed (ts : List Token) : Serves ts (trimmed ts) ∧ Serves (trimmed ts) ts := by
  induction ts with
  | nil => exact ⟨.refl [], .refl []⟩
  | cons t ts ih =>
    rw [trimmed]
    cases ht : t.isTrivia with
    | true =>
      rw [if_pos rfl, Serves, Serves, gist_cons_of_trivia ht]
      exact ih
    | false =>
      have hgap : ∀ u ∈ if t.isExpose then ts.takeWhile isTrivia else [], u.isTrivia = true := by
        cases t.isExpose with
        | true => exact isTrivia_takeWhile
        | false => exact List.forall_mem_nil _
      rw [if_neg Bool.false_ne_true, Serves, Serves, gist_cons_of_not_trivia ht, gist_cons_of_not_trivia ht,
        gist_append_of_trivia hgap, startsTrivia_gap]
      refine ⟨.cons ⟨rfl, fun hexpose hstarts => ?_⟩ ih.1, .cons ⟨rfl, fun hexpose hstarts => ?_⟩ ih.2⟩
      · exact (Bool.and_eq_true_iff.mp hstarts).2
      · exact Bool.and_eq_true_iff.mpr ⟨hexpose, hstarts⟩

theorem stripped_cons_of_trivia {t : Token} (h : t.isTrivia = true) (ts : List Token) :
    stripped (t :: ts) = stripped ts := by
  rw [stripped, List.filter_cons_of_neg (by simp [h]), stripped]

theorem stripped_cons_of_not_trivia {t : Token} (h : t.isTrivia = false) (ts : List Token) :
    stripped (t :: ts) = t :: stripped ts := by
  rw [stripped, List.filter_cons_of_pos (by simp [h]), stripped]

theorem startsTrivia_stripped (ts : List Token) : startsTrivia (stripped ts) = false := by
  induction ts with
  | nil => rfl
  | cons t ts ih =>
    cases ht : t.isTrivia with
    | true => rw [stripped_cons_of_trivia ht, ih]
    | false => rw [stripped_cons_of_not_trivia ht, startsTrivia, ht]

theorem serves_stripped (ts : List Token) : Serves ts (stripped ts) := by
  induction ts with
  | nil => exact .refl []
  | cons t ts ih =>
    cases ht : t.isTrivia with
    | true =>
      rw [stripped_cons_of_trivia ht, Serves, gist_cons_of_trivia ht]
      exact ih
    | false =>
      rw [stripped_cons_of_not_trivia ht, Serves, gist_cons_of_not_trivia ht, gist_cons_of_not_trivia ht,
        startsTrivia_stripped]
      exact .cons ⟨rfl, fun _ hstarts => absurd hstarts Bool.false_ne_true⟩ ih

theorem trimmed_eq_stripped (h : exposesDirectly ts = true) : trimmed ts = stripped ts := by
  induction ts with
  | nil => rfl
  | cons t ts ih =>
    rw [exposesDirectly, Bool.and_eq_true] at h
    cases ht : t.isTrivia with
    | true => rw [trimmed, if_pos ht, ih h.2, stripped_cons_of_trivia ht]
    | false =>
      have hgap : (if t.isExpose then ts.takeWhile isTrivia else []) = [] := by
        cases hexpose : t.isExpose with
        | false => rfl
        | true =>
          cases ts with
          | nil => rfl
          | cons u ts =>
            have hu : u.isTrivia = false := by simpa [hexpose, startsTrivia] using h.1
            simp [hu]
      rw [trimmed, ht, if_neg Bool.false_ne_true, hgap, ih h.2, stripped_cons_of_not_trivia ht, List.nil_append]

theorem trimmed_append (hmark : mark.isTrivia = false) (ts : List Token) :
    trimmed (ts ++ [mark]) = trimmed ts ++ [mark] := by
  have htake : ∀ ts : List Token, (ts ++ [mark]).takeWhile isTrivia = ts.takeWhile isTrivia := by
    intro ts
    induction ts with
    | nil => simp [hmark]
    | cons t ts ih => rw [List.cons_append, List.takeWhile_cons, List.takeWhile_cons, ih]
  induction ts with
  | nil =>
    simp only [List.nil_append, trimmed, hmark, List.takeWhile_nil, ite_self, Bool.false_eq_true, if_false]
  | cons t ts ih =>
    rw [List.cons_append, trimmed, trimmed, htake, ih]
    cases t.isTrivia with
    | true => rfl
    | false => simp

theorem stripped_append (hmark : mark.isTrivia = false) (ts : List Token) :
    stripped (ts ++ [mark]) = stripped ts ++ [mark] := by
  rw [stripped, List.filter_append, List.filter_cons_of_pos (by simp [hmark]), stripped]
  rfl

end Token

/-- **Whatever program the first parser reads, the second one reads as well**, comments, blank lines and
identities aside. -/
def Parser.ReadsFor (p p' : Parser) : Prop :=
  ∀ program q, p.readProgram = .done program q →
    ∃ program' q', p'.readProgram = .done program' q' ∧ program'.core id = program.core id

theorem Parser.Serves.readsFor {p p' : Parser} (h : p.Serves p') : p.ReadsFor p' := by
  intro program q hdone
  rw [Parse.readProgram_eq, Parse.withOwnLog_done] at hdone
  have hlog : Parser.Serves { p with log := {} } { p' with log := {} } := { h with }
  obtain ⟨program', q', hdone', hcore⟩ := Parse.Serves.program (Rules.serves_ofDepth _) hlog hdone
  rw [← Parse.withOwnLog_done, ← Parser.readProgram_tied] at hdone'
  exact ⟨program', q', hdone', hcore⟩

def Parser.ofMarked (keywords : KeywordTable) (matching : MatchMode) (mark : Token) (ts : List Token) : Parser :=
  { Parser.ofTokens (ts ++ [mark]) with keywords, matching }

theorem Parser.serves_ofMarked {keywords : KeywordTable} {matching : MatchMode} {ts ts' : List Token}
    (h : Token.Serves (ts ++ [mark]) (ts' ++ [mark])) :
    (ofMarked keywords matching mark ts).Serves (ofMarked keywords matching mark ts') := by
  refine ⟨h, ?_, rfl, rfl, rfl⟩
  show (((ts' ++ [mark]).getLast?).map (·.span)).getD {} = (((ts ++ [mark]).getLast?).map (·.span)).getD {}
  rw [List.getLast?_concat, List.getLast?_concat]

/-- **Comments and blank lines do not change what a program means, except directly behind `expose`.** For all
tokens, spellings of keywords and modes of matching:

- The tokens are read exactly if they are when all comments and blank lines are taken out that do not stand
  directly behind `expose`, and then as the same program.
- What is read is also read when all of them are taken out.
- If none stands directly behind `expose`, the converse holds as well. -/
theorem readsFor_stripped (keywords : KeywordTable) (matching : MatchMode) (mark : Token)
    (hmark : mark.isEnd = true) (ts : List Token) :
    let parser := Parser.ofMarked keywords matching mark
    ((parser ts).ReadsFor (parser (Token.trimmed ts)) ∧ (parser (Token.trimmed ts)).ReadsFor (parser ts)) ∧
      (parser ts).ReadsFor (parser (Token.stripped ts)) ∧
      (Token.exposesDirectly ts = true → (parser (Token.stripped ts)).ReadsFor (parser ts)) := by
  have hproper : mark.isTrivia = false := by
    obtain ⟨kind, lexeme, span⟩ := mark
    cases kind with
    | endOfFile => rfl
    | _ => cases hmark
  have htrimmed := Token.serves_trimmed (ts ++ [mark])
  rw [Token.trimmed_append hproper] at htrimmed
  have hstripped := Token.serves_stripped (ts ++ [mark])
  rw [Token.stripped_append hproper] at hstripped
  refine ⟨⟨?_, ?_⟩, ?_, fun hdirect => ?_⟩
  · exact (Parser.serves_ofMarked htrimmed.1).readsFor
  · exact (Parser.serves_ofMarked htrimmed.2).readsFor
  · exact (Parser.serves_ofMarked hstripped).readsFor
  · rw [← Token.trimmed_eq_stripped hdirect]
    exact (Parser.serves_ofMarked htrimmed.2).readsFor

def commentedCall : List Token :=
  [.ofName "f", .ofSymbol .leftParen, .ofName "x", .ofSymbol .comma, .ofComment "# why", .ofName "y",
    .ofSymbol .rightParen]

/-- The call is read, and without the comment it is read as the same program, and the other way round. -/
theorem readsFor_stripped_call :
    let parser := Parser.ofMarked .default .strict .endOfFile
    (∃ program q, (parser commentedCall).readProgram = .done program q) ∧
      Token.exposesDirectly commentedCall = true ∧
      (parser commentedCall).ReadsFor (parser (Token.stripped commentedCall)) ∧
      (parser (Token.stripped commentedCall)).ReadsFor (parser commentedCall) := by
  have run : ((Parser.ofMarked .default .strict .endOfFile commentedCall).readProgram).doneWith
      (fun _ => true) = true := by
    decide +kernel
  obtain ⟨program, q, done, -⟩ := Outcome.of_doneWith run
  have law := readsFor_stripped .default .strict .endOfFile rfl commentedCall
  exact ⟨⟨program, q, done⟩, rfl, law.2.1, law.2.2 rfl⟩

def commentedExpose : List Token :=
  [.ofKeyword .exposeKw, .ofComment "# why", .ofKeyword .letKw, .ofName "x", .ofSymbol .assign,
    .ofKeyword .nilKw]

/-- **A comment directly behind `expose` makes reading fail**: without it the declaration is read. -/
theorem not_readsFor_commentedExpose :
    let parser := Parser.ofMarked .default .strict .endOfFile
    ¬ (parser (Token.stripped commentedExpose)).ReadsFor (parser commentedExpose) := by
  intro parser h
  have bare : ((parser (Token.stripped commentedExpose)).readProgram).doneWith (fun _ => true) = true := by
    decide +kernel
  have commented : ((parser commentedExpose).readProgram).doneWith (fun _ => true) = false := by
    decide +kernel
  obtain ⟨program, q, done, -⟩ := Outcome.of_doneWith bare
  obtain ⟨program', q', done', -⟩ := h program q done
  rw [done'] at commented
  cases commented

end Trellis
