import Trellis.Proofs.Grammar.Ends

/-!
# What reading does to the tokens

Reading takes tokens from the front and gives none back. A mark of the end is seen and stays, wherever it stands
among the tokens, so it is not among those that were taken, and this goes for a reading that fails as well
(`Parse.Pace.taking`). A statement and an expression take one token at least. Since a slot of a template is shorter
than the text that it is in, reading ends (`reading_ends`).
-/

namespace Trellis

/-- **What is left of tokens** behind some that were taken. A mark of the end is not taken. -/
def Token.LeftOf (ts rest : List Token) : Prop :=
  ∃ taken, ts = taken ++ rest ∧ ∀ t ∈ taken, t.isEnd = false

theorem Token.LeftOf.refl (ts : List Token) : LeftOf ts ts :=
  ⟨[], rfl, List.forall_mem_nil _⟩

theorem Token.LeftOf.trans {ts us vs : List Token} (h : LeftOf ts us) (h' : LeftOf us vs) : LeftOf ts vs := by
  obtain ⟨taken, rfl, hends⟩ := h
  obtain ⟨more, rfl, hmore⟩ := h'
  exact ⟨taken ++ more, (List.append_assoc ..).symm, List.forall_mem_append.mpr ⟨hends, hmore⟩⟩

/-- **A reading ends, with what is left of the tokens.** Where it is done, it took so many of them at least. -/
def Outcome.Takes {α : Type} (least : Nat) (p : Parser) : Outcome Parser α → Prop
  | .done _ q => Token.LeftOf p.tokens q.tokens ∧ q.tokens.length + least ≤ p.tokens.length
  | .failed _ q => Token.LeftOf p.tokens q.tokens
  | .exhausted => False

/-- **It is watched what is left of the tokens** that a reading started with. For a slot of a template there is no
need to know it. -/
def Parse.Watch.taking (start : Option (List Token)) : Watch (.same fun _ => True) where
  holds p := ∀ ts ∈ start, Token.LeftOf ts p.tokens
  fails _ q := ∀ ts ∈ start, Token.LeftOf ts q.tokens
  token _ := trivial
  advance {p q t} hleft _ hread ts hts := by
    obtain ⟨_, _, taken, hread', htokens, hends, -⟩ := exists_advance p
    cases hread.symm.trans hread'
    exact (hleft ts hts).trans ⟨taken, htokens, hends⟩
  freshId h := h
  pastTrivia {p} hleft htrivia ts hts := by
    have hend : p.front.isEnd = false := by
      rw [Token.isTrivia] at htrivia
      rw [Token.isEnd]
      split at htrivia <;> simp_all
    exact (hleft ts hts).trans ⟨[p.front], tokens_of_trivia htrivia, List.forall_mem_singleton.mpr hend⟩
  fail := by
    rintro p q cause span hleft (rfl | ⟨⟨⟩, -⟩) -
    exact hleft

abbrev Parse.Pace.taking (start : Option (List Token)) : Pace (.same fun _ => True) :=
  .watched (.taking start) (fun _ => rfl) fun _ => rfl

theorem Parse.Pace.level_taking (start : Option (List Token)) : (taking start).Level :=
  level_watched _ _ .same _

theorem Parse.takes_of_keeps {n least : Nat} {p : Parser} {α : Type} {s : Stage} {R : α → α → Prop} {b : α → Stage}
    {x : Parse α} (hn : p.weight < n) (hends : ∀ m, Keeps (.equal n) m true s R b x x)
    (htakes : ∀ m, Keeps (.taking (some p.tokens)) m true s R b x x) (hs : s.Within p.tokens.length p p)
    (hb : ∀ a q, (b a).Within p.tokens.length q q → q.tokens.length + least ≤ p.tokens.length) :
    (x p).Takes least p := by
  have hstart : ∀ ts ∈ some p.tokens, Token.LeftOf ts p.tokens := by
    rintro _ ⟨⟩
    exact .refl _
  rcases htakes _ true p p (fun _ => rfl) ⟨rfl, hstart⟩ hs with 
    ⟨a, q, _, _, ho, -, -, ⟨rfl, hleft⟩, -, hwithin⟩ | hstopped
  · rw [ho]
    exact ⟨hleft _ rfl, hb a _ hwithin⟩
  · rcases hends _ true p p (fun _ => rfl) ⟨rfl, Nat.le_of_lt hn, fun _ => hn⟩ hs with
      ⟨a, q, _, _, ho, -⟩ | ⟨fault, q, ho, -⟩
    · rw [ho] at hstopped
      exact hstopped.elim
    · rw [ho] at hstopped ⊢
      exact hstopped _ rfl

namespace Rules

theorem keeps_taking (depth : Nat) (start : Option (List Token)) :
    (ofDepth depth).Keeps (.taking start) (ofDepth depth) ∧ ∀ m light,
      Parse.Keeps (.taking start) m light .fresh Eq (fun _ => .passed) (ofDepth depth).statement
        (ofDepth depth).statement := by
  refine keeps_ofDepth (c := Parse.Pace.taking) Parse.Pace.level_taking
    (fun _ => trivial) ?_ depth start
  rintro r hexpression start m t raw segments source offset _ - rfl - - -
  -- the parser of a slot has tokens of its own, and the tokens of the script stay
  refine .slot (i := .taking none) (fun _ => rfl) (hexpression _) (fun hp => by rw [hp.1]) ?_ ?_ ?_
  · rintro _ p ⟨rfl, -⟩
    exact ⟨rfl, nofun⟩
  · rintro _ p _ q ⟨rfl, h⟩ ⟨rfl, -⟩
    exact ⟨rfl, h⟩
  · rintro _ p o o' ⟨rfl, h⟩ hstopped
    cases o with
    | done e q => exact hstopped
    | failed fault q => exact h
    | exhausted => trivial

structure TakeTokens (r : Rules) (p : Parser) : Prop where
  expression : (Parse.expression r p).Takes 1 p
  comparison : (Parse.comparison r p).Takes 1 p
  equality : (Parse.equality r p).Takes 1 p
  sum : (Parse.sum r p).Takes 1 p
  range : (Parse.range r p).Takes 1 p
  operand : (Parse.operand r p).Takes 1 p
  primary : (Parse.primary r p).Takes 1 p
  statement : (Parse.statement r p).Takes 1 p
  branch : p.sees (.keyword .ifKw) = true → (Parse.branch r p).Takes 1 p
  block (terminators : List Terminal) : (Parse.blockUntil r terminators p).Takes 0 p

theorem takeTokens {p : Parser} {depth : Nat} (h : p.weight < depth) : (ofDepth depth).TakeTokens p := by
  have hends := ends_ofDepth (Nat.le_refl depth)
  have htakes := keeps_taking depth (some p.tokens)
  have hlt {α : Type} (_ : α) (q : Parser) (h : q.tokens.length < p.tokens.length) :
      q.tokens.length + 1 ≤ p.tokens.length := h
  have hexpr {x : Rules → Parse Expr} (hx : ∀ {K : Kinship} {r : Rules},
      Parse.Built K r r true .fresh K.expr (fun _ => .taken) (x r) (x r)) : (x (ofDepth depth) p).Takes 1 p :=
    Parse.takes_of_keeps h (hx.keeps hends.keeps) (hx.keeps htakes.1) (Nat.le_refl _) hlt
  exact
    { expression := hexpr .expression
      comparison := hexpr .comparison
      equality := hexpr .equality
      sum := hexpr .sum
      range := hexpr .range
      operand := hexpr .operand
      primary := hexpr .primary
      statement := Parse.takes_of_keeps h (fun _ => .statement Parse.Pace.level_equal hends.keeps)
        (fun _ => .statement (Parse.Pace.level_taking _) htakes.1) (Nat.le_refl _) hlt
      branch := fun hif => Parse.takes_of_keeps h (Parse.Built.branch.keeps hends.keeps)
        (Parse.Built.branch.keeps htakes.1) ⟨Nat.le_refl _, beq_iff_eq.mp hif⟩ hlt
      block := fun terminators => Parse.takes_of_keeps h
        (fun _ => .blockUntil Parse.Pace.level_equal hends.statement terminators)
        (fun _ => .blockUntil (Parse.Pace.level_taking _) (fun m => htakes.2 m true) terminators) (Nat.le_refl _)
        fun _ _ => id }

end Rules

theorem Parse.takes_withOwnLog {α : Type} {x : Parse α} {least : Nat} {p : Parser}
    (h : (x { p with log := {} }).Takes least { p with log := {} }) : (x.withOwnLog p).Takes least p := by
  unfold withOwnLog
  generalize x { p with log := {} } = o at h ⊢
  cases o with
  | done a q => exact h
  | failed fault q => exact h
  | exhausted => exact h

theorem Parser.takes_readProgram (p : Parser) : (Parser.readProgram p).Takes 0 p := by
  rw [Parse.readProgram_eq]
  have hweight : ({ p with log := {} } : Parser).weight < p.weight + 1 := Nat.lt_succ_self _
  exact Parse.takes_withOwnLog (Parse.takes_of_keeps hweight
    (fun _ => .program Parse.Pace.level_equal (Rules.ends_ofDepth (Nat.le_refl _)).statement)
    (fun _ => .program (Parse.Pace.level_taking _) fun m => (Rules.keeps_taking _ _).2 m true) (Nat.le_refl _)
    fun _ _ => id)

theorem Parser.takes_readExpression (p : Parser) : (Parser.readExpression p).Takes 1 p := by
  have hread : Parser.readExpression p = Parse.withOwnLog (Parse.whole p.rules.expression) p :=
    congrFun (Parse.wholeExpression_eq _) p
  rw [hread]
  have hweight : ({ p with log := {} } : Parser).weight < p.weight + 1 := Nat.lt_succ_self _
  exact Parse.takes_withOwnLog (Parse.takes_of_keeps hweight
    (fun m => .whole ((Rules.ends_ofDepth (Nat.le_refl _)).tier .expression m))
    (fun m => .whole ((Rules.keeps_taking _ _).1.tier .expression m)) (Nat.le_refl _) fun _ _ => id)

/-- **Parsing ends**, whatever the tokens, the keywords and the matching are: a program or an expression is read, or
there is a fault. The productions take tokens from the front, and no mark of the end. Going back to an expression
in a slot of a template, they have a shorter text and less weight before them. -/
theorem reading_ends (p : Parser) :
    (Parser.readProgram p).Takes 0 p ∧ (Parser.readExpression p).Takes 1 p ∧
    (∀ depth, p.weight < depth → (Rules.ofDepth depth).TakeTokens p) ∧
    ∀ (t : Token) (text : String) (segments : List Template.Segment) (source : String) (offset : Nat),
      t.kind = .text text → Template.split text = .ok segments → .slot source offset ∈ segments →
        source.length < text.length ∧
          (Parse.slotParser p (Parse.slotTokens p.keywords t.span source offset)).weight < t.weight := by
  refine ⟨p.takes_readProgram, p.takes_readExpression, fun depth => Rules.takeTokens, ?_⟩
  intro t text segments source offset hkind hsplit hslot
  have hlength := Template.length_slot hsplit hslot
  have hlight : (Parse.slotParser p (Parse.slotTokens p.keywords t.span source offset)).weight ≤ _ :=
    Parse.weightOf_slotTokens p.keywords t.span source offset
  have hweight : t.weight = 1 + text.length := by rw [Token.weight, hkind]
  exact ⟨by omega, by omega⟩

end Trellis
