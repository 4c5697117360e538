import Trellis.Proofs.Grammar.Ends
import Trellis.Proofs.Grammar.Tally
import Trellis.Proofs.Layout.Comments
import Trellis.Proofs.Layout.RoundTrip
import Trellis.Proofs.Run.Beside

/-!
# Where comments are read

A comment is a statement if a statement is read where it stands, and everywhere else it is skipped. The tree does
not tell where the skipped ones stood. So a reading is broken off: the rules `Rules.upTo n` do what the rules of the
grammar do, but they give up as soon as a comment or a blank line is read as a statement in front of the last `n`
tokens. Giving up tells that a statement is read there. A slot of a template is told from the script around it by
its log: every slot starts with an empty one, and that of the script holds a mark.

A reading leaves a *trail*: the tokens that it took, each with whether it was read as a statement. Reading *tracks*
comments (`Parse.Tracks`) if the comments on its trail are those of the tree that it makes, and if the trail tells
where the reading is broken off. So the comments are a tally of the trees (`Parse.Tally.comments`).
-/

namespace Trellis

/-! ## Reading that is broken off -/

def FaultLog.isMarked (log : FaultLog) : Bool :=
  !log.faults.isEmpty

/-- Is the next token of the script a comment or a blank line, and the first of the last `n` ones? -/
def Parser.stopsAt (n : Nat) (p : Parser) : Bool :=
  p.log.isMarked && p.front.isTrivia && p.tokens.length == n

/-- **The rules of the grammar, broken off** where a comment or a blank line of the script is read as a
statement in front of the last `n` tokens. -/
def Rules.upTo (n : Nat) : Nat → Rules
  | 0 => ofDepth 0
  | depth + 1 =>
    { expression := fun p => Parse.expression (upTo n depth) p
      comparison := fun p => Parse.comparison (upTo n depth) p
      equality := fun p => Parse.equality (upTo n depth) p
      sum := fun p => Parse.sum (upTo n depth) p
      operand := fun p => Parse.operand (upTo n depth) p
      statement := fun p => if p.stopsAt n then .exhausted else Parse.statement (upTo n depth) p
      branch := fun p => Parse.branch (upTo n depth) p }

def FaultLog.marked : FaultLog :=
  ⟨[.reading .openTemplate {}]⟩

/-- **Is a comment or a blank line read as a statement in front of the last `n` tokens?** -/
def Parser.readsTriviaAt (p : Parser) (n : Nat) : Bool :=
  match Parse.program (.upTo n (p.weight + 1)) { p with log := .marked } with
  | .done _ _ => false
  | .failed _ _ => false
  | .exhausted => true

/-! ## Trails -/

/-- **The tokens that a reading took**, each with whether it was read as a statement. -/
abbrev Trail := List (Token × Bool)

namespace Trail

def comments (trail : Trail) : List String :=
  Token.comments ((trail.filter (·.2)).map (·.1))

/-- Was the first of the last `n` tokens read as a statement, where so many tokens are left behind the
trail? -/
def hits (n left : Nat) : Trail → Bool
  | [] => false
  | (_, read) :: rest => (read && n == rest.length + 1 + left) || hits n left rest

variable {trail other : Trail} {n left : Nat}

theorem comments_append (trail other : Trail) : comments (trail ++ other) = comments trail ++ comments other := by
  rw [comments, List.filter_append, List.map_append, Token.comments_append, comments, comments]

theorem hits_append (n left : Nat) (trail other : Trail) :
    hits n left (trail ++ other) = (hits n (other.length + left) trail || hits n left other) := by
  induction trail with
  | nil => rfl
  | cons step trail ih =>
    rw [List.cons_append, hits, hits, ih, List.length_append, Bool.or_assoc]
    congr 3
    omega

def skipped (ts : List Token) : Trail :=
  ts.map fun t => (t, false)

theorem map_skipped (ts : List Token) : (skipped ts).map Prod.fst = ts := by
  rw [skipped, List.map_map]
  exact List.map_id ts

theorem comments_skipped (ts : List Token) : comments (skipped ts) = [] := by
  induction ts with
  | nil => rfl
  | cons t ts ih => exact ih

theorem hits_skipped (n left : Nat) (ts : List Token) : hits n left (skipped ts) = false := by
  induction ts with
  | nil => rfl
  | cons t ts ih => exact ih

theorem le_of_hits (h : hits n left trail = true) : left < n ∧ n ≤ trail.length + left := by
  induction trail with
  | nil => cases h
  | cons step trail ih =>
    rw [hits, Bool.or_eq_true, Bool.and_eq_true, beq_iff_eq] at h
    rw [List.length_cons]
    rcases h with ⟨-, rfl⟩ | later
    · omega
    · have := ih later
      omega

end Trail

/-- **The comments among tokens** that stand in front of the last `n` ones for an `n` of the given kind. -/
def Token.commentsAt (kept : Nat → Bool) : List Token → List String
  | [] => []
  | t :: rest =>
    (if t.isComment && kept (rest.length + 1) then [t.lexeme] else []) ++ commentsAt kept rest

namespace Token

theorem commentsAt_congr {kept kept' : Nat → Bool} {ts : List Token}
    (h : ∀ n, n ≤ ts.length → kept n = kept' n) : commentsAt kept ts = commentsAt kept' ts := by
  induction ts with
  | nil => rfl
  | cons t ts ih =>
    rw [commentsAt, commentsAt, h (ts.length + 1) (Nat.le_refl _), ih fun n hn => h n (Nat.le_succ_of_le hn)]

theorem commentsAt_never (ts : List Token) : commentsAt (fun _ => false) ts = [] := by
  induction ts with
  | nil => rfl
  | cons t ts ih => rw [commentsAt, ih, Bool.and_false, if_neg Bool.false_ne_true, List.append_nil]

end Token

theorem Trail.commentsAt_hits (trail : Trail) (rest : List Token) :
    Token.commentsAt (hits · rest.length trail) (trail.map Prod.fst ++ rest) = comments trail := by
  induction trail with
  | nil => exact Token.commentsAt_never rest
  | cons step trail ih =>
    obtain ⟨t, read⟩ := step
    have hlength : (trail.map Prod.fst ++ rest).length = trail.length + rest.length := by
      rw [List.length_append, List.length_map]
    -- a token is told by how many are left at it, and no later step of the trail is at as many
    have hhere : hits (trail.length + rest.length + 1) rest.length ((t, read) :: trail) = read := by
      have hlater : hits (trail.length + rest.length + 1) rest.length trail = false := by
        cases h : hits (trail.length + rest.length + 1) rest.length trail with
        | false => rfl
        | true =>
          have := le_of_hits h
          omega
      rw [hits, hlater, Bool.or_false, beq_iff_eq.mpr (by omega), Bool.and_true]
    have hthere : Token.commentsAt (hits · rest.length ((t, read) :: trail)) (trail.map Prod.fst ++ rest) =
        comments trail := by
      rw [← ih]
      refine Token.commentsAt_congr fun n hn => ?_
      rw [hlength] at hn
      rw [hits, beq_eq_false_iff_ne.mpr (by omega), Bool.and_false, Bool.false_or]
    rw [List.map_cons, List.cons_append, Token.commentsAt, hlength, hhere, hthere]
    cases read with
    | false => rw [Bool.and_false]; rfl
    | true =>
      show _ = Token.comments (t :: (trail.filter (·.2)).map (·.1))
      rw [Bool.and_true, Token.comments, List.filter_cons]
      cases t.isComment <;> rfl

/-! ## Reading that tracks comments -/

/-- **Reading tracks comments**: it leaves a trail such that the result and the comments on the trail are as
they should be, and such that the reading that is broken off comes to the same unless the trail tells that it
stops. The log matters for that only, and is kept. -/
def Parse.Tracks {α : Type} (Q : α → List String → Prop) (x : Parse α) (x' : Nat → Parse α) : Prop :=
  ∀ p a q, x p = .done a q → ∃ trail : Trail, p.tokens = trail.map Prod.fst ++ q.tokens ∧
    Q a trail.comments ∧ ∀ n log, x' n { p with log } =
      if log.isMarked && trail.hits n q.tokens.length then .exhausted else .done a { q with log }

namespace Parse.Tracks

variable {α β : Type} {Q : α → List String → Prop} {R : β → List String → Prop} {held : List String} {x : Parse α}

theorem pure {a : α} (h : Q a []) : Tracks Q (Pure.pure a) fun _ => Pure.pure a := by
  rintro p _ _ ⟨⟩
  refine ⟨[], rfl, h, fun n log => ?_⟩
  rw [Trail.hits, Bool.and_false]
  rfl

theorem bind {x' : Nat → Parse α} {y : α → Parse β} {y' : Nat → α → Parse β} (hx : Tracks Q x x')
    (hy : ∀ a comments, Q a comments → Tracks (fun b more => R b (comments ++ more)) (y a) (y' · a)) :
    Tracks R (x >>= y) fun n => x' n >>= y' n := by
  intro p b u h
  rw [Action.bind_apply] at h
  cases hread : x p with
  | failed fault q => rw [hread] at h; cases h
  | exhausted => rw [hread] at h; cases h
  | done a q =>
    rw [hread] at h
    obtain ⟨trail, htokens, hcomments, hbroken⟩ := hx p a q hread
    obtain ⟨trail', htokens', hcomments', hbroken'⟩ := hy a _ hcomments q b u h
    refine ⟨trail ++ trail', ?_, ?_, fun n log => ?_⟩
    · rw [htokens, htokens', List.map_append, List.append_assoc]
    · rw [Trail.comments_append]
      exact hcomments'
    -- the reading is broken off on the first trail, or passes it and may be broken off on the second
    · have hlength : q.tokens.length = trail'.length + u.tokens.length := by
        rw [htokens', List.length_append, List.length_map]
      show (x' n >>= y' n) { p with log } = _
      rw [Action.bind_apply, hbroken, Trail.hits_append, ← hlength, Bool.and_or_distrib_left]
      cases log.isMarked && trail.hits n q.tokens.length with
      | true => rfl
      | false => exact hbroken' n log

theorem never {x' : Nat → Parse α} (h : ∀ p a q, x p ≠ .done a q) : Tracks Q x x' :=
  fun p a q hread => absurd hread (h p a q)

theorem of_skipped
    (h : ∀ p a q, x p = .done a q → q.tokens <:+ p.tokens ∧ ∀ log, x { p with log } = .done a { q with log }) :
    Tracks (fun _ comments => held ++ comments = held) x fun _ => x := by
  intro p a q hread
  obtain ⟨⟨ts, htokens⟩, hlog⟩ := h p a q hread
  refine ⟨Trail.skipped ts, ?_, Trail.comments_skipped ts ▸ List.append_nil held, fun n log => ?_⟩
  · rw [Trail.map_skipped, htokens]
  · rw [Trail.hits_skipped, Bool.and_false]
    exact hlog log

theorem read {g : Parser → α} (hlog : ∀ p log, g { p with log } = g p) :
    Tracks (fun _ comments => held ++ comments = held) (Action.read g) fun _ => Action.read g := by
  refine of_skipped fun p a q hread => ?_
  cases hread
  refine ⟨List.suffix_rfl, fun log => ?_⟩
  show Outcome.done (g { p with log }) { p with log } = _
  rw [hlog]

theorem advance : Tracks (fun _ comments => held ++ comments = held) Parse.advance fun _ => Parse.advance := by
  refine of_skipped fun p t q hread => ?_
  obtain ⟨_, _, ts, hread', htokens, -⟩ := exists_advance p
  cases hread.symm.trans hread'
  refine ⟨⟨ts, htokens.symm⟩, fun log => ?_⟩
  cases hskip : Token.skip p.tokens with
  | nil =>
    cases (Parse.advance_of_nil hskip).symm.trans hread
    exact Parse.advance_of_nil (p := { p with log }) hskip
  | cons u rest =>
    cases hend : u.isEnd with
    | true =>
      cases (Parse.advance_of_isEnd hskip hend).symm.trans hread
      exact Parse.advance_of_isEnd (p := { p with log }) hskip hend
    | false =>
      cases (Parse.advance_of_not_isEnd hskip hend).symm.trans hread
      exact Parse.advance_of_not_isEnd (p := { p with log }) hskip hend

theorem freshId (held : List String) :
    Tracks (fun _ comments => held ++ comments = held) Parse.freshId fun _ => Parse.freshId := by
  refine of_skipped fun p id q hread => ?_
  cases hread
  exact ⟨List.suffix_rfl, fun log => rfl⟩

theorem slot {Q : Expr → List String → Prop} {r : Rules} {r' : Nat → Rules} {text : Span} {source : String}
    {offset : Nat} (h : Tracks Q (Parse.whole r.expression) fun n => Parse.whole (r' n).expression) :
    Tracks (fun _ comments => comments = []) (Parse.slot r text source offset)
      fun n => Parse.slot (r' n) text source offset := by
  intro p e q hread
  obtain ⟨hfaults, u, hwhole, rfl⟩ := slot_done.mp hread
  rw [wholeExpression_eq, withOwnLog_done] at hwhole
  obtain ⟨_, -, -, hbroken⟩ := h _ e u hwhole
  refine ⟨[], rfl, rfl, fun n log => ?_⟩
  rw [Trail.hits, Bool.and_false, if_neg Bool.false_ne_true]
  refine slot_done.mpr ⟨hfaults, { u with log := {} }, ?_, rfl⟩
  rw [wholeExpression_eq, withOwnLog_done]
  exact hbroken n {}

end Parse.Tracks

/-! ## The productions -/

def Node.comments : Node → List String
  | .expr e => e.comments
  | .block b => b.comments
  | .stmt s => s.comments

theorem Case.commentsOf_eq (cs : List Case) : Case.commentsOf cs = (cs.flatMap Case.parts).flatMap Node.comments := by
  induction cs with
  | nil => rfl
  | cons c rest ih =>
    obtain ⟨span, test, body⟩ := c
    cases test <;> simp [Case.commentsOf, ih, Case.parts, Node.comments]

theorem Continuation.commentsOf_eq (cs : List Continuation) :
    Continuation.commentsOf cs = cs.flatMap fun c => c.body.comments :=
  eq_flatMap_of_cons rfl (fun ⟨_, _, _⟩ _ => rfl) cs

theorem Stmt.commentsOf_eq (body : List Stmt) : Stmt.commentsOf body = body.flatMap Stmt.comments :=
  eq_flatMap_of_cons rfl (fun _ _ => rfl) body

theorem ExprForm.comments_eq {form : ExprForm} (h : form.isTemplate = false) :
    form.comments = form.parts.flatMap Node.comments := by
  cases form with
  | template raw parts => cases h
  | _ => simp [ExprForm.comments, ExprForm.parts, Node.comments, List.flatMap_map, Expr.commentsOf_eq,
      Property.commentsOf_eq, Case.commentsOf_eq, Continuation.commentsOf_eq]

theorem StmtForm.comments_eq {form : StmtForm} (h : form.isTrivia = false) :
    form.comments = form.parts.flatMap Node.comments := by
  cases form with
  | comment text => cases h
  | blankLine => cases h
  | branch condition consequent alternate =>
    obtain _ | _ | _ := alternate <;>
      simp [StmtForm.comments, StmtForm.parts, Alternate.comments, Alternate.parts, Node.comments]
  | give value => cases value <;> simp [StmtForm.comments, StmtForm.parts, Node.comments]
  | _ => simp [StmtForm.comments, StmtForm.parts, Node.comments]

/-- **The comments in a tree are counted**, and the reading that is broken off is run beside the other one. -/
def Parse.Tally.comments : Parse.Tally String where
  Index := Nat
  Gathers held f x x' := Tracks (fun a comments => held ++ comments = f a) x x'
  own _ := []
  node := Node.comments
  slotted _ := []
  node_expr := ExprForm.comments_eq
  node_template span raw parts := by
    refine (List.flatMap_eq_nil_iff.mpr fun part _ => ?_).symm
    cases part <;> rfl
  node_block id span body := Stmt.commentsOf_eq body
  pure same := .pure (by rw [List.append_nil, same])
  bind hx hy := .bind hx fun a comments h => by
    simp only [← List.append_assoc, h]
    exact hy a
  after h held := by
    simp only [List.append_right_inj]
    exact h
  failWith fault := .never fun _ _ _ => by rintro ⟨⟩
  exhaust := .never fun _ _ _ => by rintro ⟨⟩
  read _ := .read
  advance _ := .advance
  freshId := .freshId []
  statementOf := @fun held form span htrivia hparts => by
    refine .bind (.freshId held) fun id comments h => .pure ?_
    rw [List.append_nil, h, ← hparts]
    exact (StmtForm.comments_eq htrivia).symm
  slot _ _ _ h := .slot h

theorem Token.comments_of_isTrivia {t : Token} (h : t.isTrivia = true) : comments [t] = t.triviaForm.comments := by
  obtain ⟨kind, lexeme, span⟩ := t
  cases kind with
  | comment => rfl
  | blankLine => rfl
  | _ => cases h

theorem Parse.Tracks.statement {r : Rules} {r' : Nat → Rules} (h : Parse.Tally.comments.OfRules r r') :
    Parse.Tracks (fun s comments => [] ++ comments = s.comments) (Parse.statement r)
      fun n p => if p.stopsAt n then .exhausted else Parse.statement (r' n) p := by
  intro p s q hread
  cases htrivia : p.front.isTrivia with
  | true =>
    rw [statement_of_trivia htrivia] at hread
    cases hread
    have htokens := tokens_of_trivia htrivia
    refine ⟨[(p.front, true)], htokens, ?_, fun n log => ?_⟩
    · exact Token.comments_of_isTrivia htrivia
    · have hlength : p.tokens.length = (p.tokens.drop 1).length + 1 := by
        rw [htokens]
        rfl
      have hstops : ({ p with log } : Parser).stopsAt n =
          (log.isMarked && Trail.hits n (p.tokens.drop 1).length [(p.front, true)]) := by
        show (log.isMarked && p.front.isTrivia && p.tokens.length == n) = _
        rw [htrivia, Bool.and_true, Trail.hits, Trail.hits, Bool.or_false, Bool.true_and, hlength,
          List.length_nil, Nat.zero_add, Nat.add_comm 1, Bool.beq_comm]
      show (if ({ p with log } : Parser).stopsAt n then _ else _) = _
      rw [hstops, statement_of_trivia (p := { p with log }) htrivia]
      rfl
  | false =>
    rw [statement_of_not_trivia htrivia] at hread
    obtain ⟨trail, htokens, hcomments, hbroken⟩ := Tally.properStatement h p s q hread
    refine ⟨trail, htokens, hcomments, fun n log => ?_⟩
    have hstops : ({ p with log } : Parser).stopsAt n = false := by
      show (log.isMarked && p.front.isTrivia && p.tokens.length == n) = false
      rw [htrivia, Bool.and_false, Bool.false_and]
    show (if ({ p with log } : Parser).stopsAt n then _ else _) = _
    rw [hstops, if_neg Bool.false_ne_true, statement_of_not_trivia (p := { p with log }) htrivia]
    exact hbroken n log

theorem Rules.tracks_ofDepth (depth : Nat) : Parse.Tally.comments.OfRules (ofDepth depth) fun n => upTo n depth := by
  induction depth with
  | zero =>
    exact ⟨Parse.Tally.comments.exhaust, Parse.Tally.comments.exhaust, Parse.Tally.comments.exhaust,
      Parse.Tally.comments.exhaust, Parse.Tally.comments.exhaust, Parse.Tally.comments.exhaust,
      Parse.Tally.comments.exhaust⟩
  | succ depth ih =>
    exact ⟨Parse.Tally.expression ih, Parse.Tally.comparison ih, Parse.Tally.equality ih, Parse.Tally.sum ih,
      Parse.Tally.operand ih, .statement ih, Parse.Tally.branch ih⟩

theorem Parser.comments_readProgram {p q : Parser} {program : Program} (h : p.readProgram = .done program q) :
    program.comments = Token.commentsAt p.readsTriviaAt p.tokens := by
  rw [Parse.readProgram_eq, Parse.withOwnLog_done] at h
  obtain ⟨trail, htokens, hcomments, hbroken⟩ :=
    Parse.Tally.program (Rules.tracks_ofDepth (p.weight + 1)) _ program q h
  have hcomments : trail.comments = program.comments := hcomments.trans (Stmt.commentsOf_eq _).symm
  have hreads : p.readsTriviaAt = (Trail.hits · q.tokens.length trail) := by
    funext n
    rw [Parser.readsTriviaAt]
    have hrun : Parse.program (.upTo n (p.weight + 1)) { p with log := .marked } = _ := hbroken n .marked
    rw [hrun]
    show _ = Trail.hits n q.tokens.length trail
    cases Trail.hits n q.tokens.length trail <;> rfl
  have htokens : p.tokens = trail.map Prod.fst ++ q.tokens := htokens
  rw [hreads, htokens, Trail.commentsAt_hits, hcomments]

/-! ## Comments that a layout keeps -/

section

variable {keywords : KeywordTable} {matching : MatchMode} {source : String} {program : Program} {q : Parser}

theorem Program.comments_of_readScript (h : readScript keywords matching source = .done program q) :
    program.comments = Token.commentsAt (Parser.ofScript keywords matching source).readsTriviaAt
      (scan keywords source).tokens :=
  Parser.comments_readProgram (Parser.readProgram_of_readScript h)

end

/-- **A layout keeps the comments that are read as statements.** For every script that is read, whatever the
mode of matching is, the comments of its layout are, in their order, those comments of the script at which a
statement is read. A comment at which none is read stands inside of a statement, and is skipped. -/
theorem layout_keeps_comments {matching : MatchMode} {source : String} {program : Program} {q : Parser}
    (h : readScript .default matching source = .done program q) :
    Token.comments (scan .default (({} : Layout).program program)).tokens =
      Token.commentsAt (Parser.ofScript .default matching source).readsTriviaAt
        (scan .default source).tokens := by
  have hwf := Program.wellFormed_of_readScript (d := ⟨.default, matching⟩) h
  rw [Program.comments_layout Layout.spaced_default hwf, Program.comments_of_readScript h]

/-- A script with comments between its statements, behind one of them, in a block, and between the arguments
of a call. -/
def commentedScript : String :=
  "# first\nf(x, # lost\ny) # behind\nif x:\n    # inside\nend\n"

/-- The script is read. Its layout keeps the comments that are not between arguments. -/
theorem layout_keeps_comments_script :
    ∃ program q, readScript .default .strict commentedScript = .done program q ∧
      Token.comments (scan .default commentedScript).tokens = ["# first", "# lost", "# behind", "# inside"] ∧
      Token.comments (scan .default (({} : Layout).program program)).tokens =
        ["# first", "# behind", "# inside"] := by
  have run : (readScript .default .strict commentedScript).doneWith (fun _ => true) = true := by
    decide +kernel
  obtain ⟨program, q, done, -⟩ := Outcome.of_doneWith run
  refine ⟨program, q, done, by decide +kernel, ?_⟩
  rw [layout_keeps_comments done]
  decide +kernel

/-- **A layout does not keep every comment**: one between the arguments of a call is lost. -/
theorem not_layout_keeps_all_comments :
    ¬ ∀ source program q, readScript .default .strict source = .done program q →
      Token.comments (scan .default (({} : Layout).program program)).tokens =
        Token.comments (scan .default source).tokens := by
  intro h
  have run : (readScript .default .strict "f(x, # why\ny)\n").doneWith (fun _ => true) = true := by
    decide +kernel
  obtain ⟨program, q, done, -⟩ := Outcome.of_doneWith run
  have hwf := Program.wellFormed_of_readScript (d := ⟨.default, .strict⟩) done
  have kept := h _ program q done
  rw [Program.comments_layout Layout.spaced_default hwf, Program.comments_of_readScript done] at kept
  have lost : Token.commentsAt (Parser.ofScript .default .strict "f(x, # why\ny)\n").readsTriviaAt
      (scan .default "f(x, # why\ny)\n").tokens ≠ Token.comments (scan .default "f(x, # why\ny)\n").tokens := by
    decide +kernel
  exact lost kept

end Trellis
