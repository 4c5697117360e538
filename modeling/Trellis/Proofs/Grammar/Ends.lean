import Trellis.Proofs.Grammar.Pace

/-!
# Reading comes to an end

The rules of the grammar go back to each other to a depth that is given in advance, and a repetition has a bound on
its rounds. Neither bound is ever met: every production takes a token before it goes back to a rule, every round
that asks for another one takes a token, and a slot of a template weighs less than the text that it is in.

So the depth does not matter once it exceeds the weight of the tokens (`Rules.ends_ofDepth`), and the knot can be
tied without any: `Rules.tied` are rules that are the productions that go back to them.
-/

namespace Trellis

def Token.Weighs (n : Nat) (t : Token) : Prop :=
  t.isEnd = false → t.weight ≤ n

theorem Token.weighs_peek {n : Nat} {p : Parser} (h : p.weight ≤ n) : p.peek.Weighs n :=
  fun hend => Nat.le_trans (Parser.weight_peek hend) h

/-- **Two readings that are the same.** The tokens have to weigh no more than the number says, and less than that
where a token was taken before. -/
def Parse.Pace.equal (n : Nat) : Pace (.same (Token.Weighs n)) where
  abreast k p p' := p' = p ∧ p.weight ≤ n ∧ (k = true → p.weight < n)
  stopped o o' := ∃ fault q, o = .failed fault q ∧ o' = .failed fault q
  weaken h := ⟨h.1, h.2.1, nofun⟩
  peek h := .of_eq (by rw [h.1]) fun _ => rfl
  second h := by rw [h.1]
  token h := Token.weighs_peek h.2.1
  advance := by
    rintro k _ p ⟨rfl, hle, hlt⟩ -
    obtain ⟨t, q, ts, hread, htokens, -, -, -, hmem⟩ := exists_advance p
    have hweight : p.weight = Token.weightOf ts + q.weight := by
      rw [Parser.weight_eq, htokens, Token.weightOf_append, Parser.weight_eq]
    refine ⟨t, q, t, q, hread, hread, ⟨rfl, rfl⟩, ⟨rfl, by omega, fun hk => ?_⟩, fun hend =>
      ⟨rfl, by omega, fun _ => ?_⟩⟩
    · have := hlt hk
      omega
    · obtain ⟨u, us, rfl⟩ := List.exists_cons_of_ne_nil (List.ne_nil_of_mem (hmem hend).2)
      have := u.weight_pos
      rw [Token.weightOf_cons] at hweight
      omega
  limit h := by
    rw [h.1]
    exact ⟨Nat.le_refl _, .inl rfl⟩
  freshId := by
    rintro k _ p ⟨rfl, h⟩
    exact ⟨rfl, rfl, h⟩
  fail := by
    rintro k _ p ⟨rfl, -⟩ α cause s _ - rfl
    exact ⟨_, _, rfl, rfl⟩
  bind := by
    rintro α β x x' p p' ⟨fault, q, hread, hread'⟩ y y'
    exact ⟨fault, q, by rw [Action.bind_apply, hread], by rw [Action.bind_apply, hread']⟩
  bounded := .inr fun h => by rw [h.1]

theorem Kinship.Nests.same {T : Token → Prop} : (Kinship.same T).Nests where
  trivia _ h hspan := by cases h; cases hspan; rfl
  block h hspan hbody := by cases h; cases hspan; rw [eq_of_forall₂ id hbody]; rfl
  exposed := by
    rintro i _ span _ s _ rfl rfl rfl -
    rfl
  declares h := by cases h; exact ⟨rfl, rfl⟩

variable {α : Type}

namespace Parse.Pace

variable {n : Nat}

theorem equal.eq {m : Nat} {k : Bool} {R : α → α → Prop} {b : α → Stage} {o o' : Outcome Parser α}
    (h : o.Keeps (.equal n) m k R b o') (hR : ∀ a a', R a a' → a = a') : o' = o := by
  rcases h with ⟨a, q, a', q', ho, ho', ha, ⟨hq, -⟩, -⟩ | ⟨fault, q, ho, ho'⟩
  · rw [ho, ho', hR a a' ha, hq]
  · rw [ho, ho']

theorem equal.succ {s : Stage} {R : α → α → Prop} {b : α → Stage} {x x' : Parse α}
    (h : ∀ m, Keeps (.equal n) m false s R b x x') (hs : s ≠ .taken) (m : Nat) :
    Keeps (.equal (n + 1)) m true s R b x x' := by
  rintro k p p' hk ⟨hp, -, hlt⟩ hwithin
  have hle := Nat.le_of_lt_succ (hlt (hk (.inl rfl)))
  have hdeep {q q' : Parser} {k' : Bool} (hq : (Pace.equal n).abreast false q q') :
      (Pace.equal (n + 1)).abreast k' q q' :=
    ⟨hq.1, Nat.le_succ_of_le hq.2.1, fun _ => Nat.lt_succ_of_le hq.2.1⟩
  rcases h m false p p' (fun h => absurd (h.resolve_left (by rintro ⟨⟩)) hs) ⟨hp, hle, nofun⟩ hwithin with
    ⟨a, q, a', q', hread, hread', ha, hq, -, hbehind⟩ | hstopped
  · exact .inl ⟨a, q, a', q', hread, hread', ha, hdeep hq, fun _ => hdeep hq, hbehind⟩
  · exact .inr hstopped

theorem level_equal : (equal n).Level where
  toNests := .same
  front h := .of_eq (by rw [h.1]) fun _ => rfl
  lastSpan h := congrArg Parser.lastSpan h.1.symm
  pastTrivia := by
    rintro k _ p ⟨rfl, hle, hlt⟩ -
    have hweight := Token.weightOf_le_of_suffix (List.drop_suffix 1 p.tokens)
    rw [← Parser.weight_eq] at hweight
    have hpast : (Parse.pastTrivia p).weight ≤ p.weight := hweight
    exact ⟨rfl, Nat.le_trans hpast hle, fun hk => Nat.lt_of_le_of_lt hpast (hlt hk)⟩

end Parse.Pace

structure Rules.Ends (n : Nat) (r r' : Rules) : Prop where
  tier : ∀ t m, Parse.Keeps (.equal n) m true .fresh Eq (fun _ => .taken) (r.tier t) (r'.tier t)
  statement : ∀ m, Parse.Keeps (.equal n) m true .fresh Eq (fun _ => .passed) r.statement r'.statement
  branch : ∀ m, Parse.Keeps (.equal n) m true (.facing (·.terminal = .keyword .ifKw))
    (fun s s' => s = s' ∧ s.form.isBranch = true) (fun _ => .taken) r.branch r'.branch

namespace Rules

variable {n : Nat} {r r' : Rules}

theorem Ends.keeps (h : r.Ends n r') : r.Keeps (.equal n) r' where
  tier := h.tier
  branch := h.branch
  block _ _ _ := .blockUntil Parse.Pace.level_equal h.statement _
  expose _ := .expose Parse.Pace.level_equal h.statement
  slot m t span' raw segments source offset ht hspan hkind hsplit hslot := by
    cases hspan
    -- the tokens of the slot weigh less than the text, which weighs no more than the rules can take
    have hweight : t.weight = 1 + raw.length := by rw [Token.weight, hkind]
    have hle := ht (by rw [Token.isEnd, hkind])
    have hlength := Template.length_slot hsplit hslot
    refine .slot (i := .equal n) (fun _ => rfl) (h.tier .expression) (fun hp => by rw [hp.1]) ?_ ?_ ?_
    · rintro _ p ⟨rfl, -⟩
      have hlight := Parse.weightOf_slotTokens p.keywords t.span source offset
      have hlt : (Parse.slotParser p (Parse.slotTokens p.keywords t.span source offset)).weight < n :=
        Nat.lt_of_le_of_lt hlight (by omega)
      exact ⟨rfl, Nat.le_of_lt hlt, fun _ => hlt⟩
    · rintro _ p _ q ⟨rfl, h⟩ ⟨rfl, -⟩
      exact ⟨rfl, h⟩
    · rintro _ p o o' ⟨rfl, -⟩ ⟨fault, q, rfl, rfl⟩
      exact ⟨_, _, rfl, rfl⟩

theorem Ends.succ (h : r.Ends n r') :
    Rules.Ends (n + 1)
      ⟨Parse.expression r, Parse.comparison r, Parse.equality r, Parse.sum r, Parse.operand r, Parse.statement r,
        Parse.branch r⟩
      ⟨Parse.expression r', Parse.comparison r', Parse.equality r', Parse.sum r', Parse.operand r',
        Parse.statement r', Parse.branch r'⟩ where
  tier t := by
    have htier := Parse.Pace.equal.succ ((Parse.Built.tier t).keeps h.keeps) nofun
    cases t <;> exact htier
  statement := Parse.Pace.equal.succ (fun _ => .statement Parse.Pace.level_equal h.keeps) nofun
  branch := Parse.Pace.equal.succ (Parse.Built.branch.keeps h.keeps) nofun

theorem ends_ofDepth {n depth : Nat} (hle : n ≤ depth) : Rules.Ends n (.ofDepth n) (.ofDepth depth) := by
  induction n generalizing depth with
  | zero =>
    -- no tokens weigh less than nothing
    have hnever {α : Type} {s : Parse.Stage} {R : α → α → Prop} {b : α → Parse.Stage} {x x' : Parse α} (m : Nat) :
        Parse.Keeps (.equal 0) m true s R b x x' :=
      fun _ _ _ hk hp _ => absurd (hp.2.2 (hk (.inl rfl))) (Nat.not_lt_zero _)
    exact ⟨fun _ => hnever, hnever, hnever⟩
  | succ n ih =>
    cases depth with
    | zero => cases hle
    | succ depth => exact (ih (Nat.le_of_succ_le_succ hle)).succ

def tied : Rules where
  expression p := (ofDepth (p.weight + 1)).expression p
  comparison p := (ofDepth (p.weight + 1)).comparison p
  equality p := (ofDepth (p.weight + 1)).equality p
  sum p := (ofDepth (p.weight + 1)).sum p
  operand p := (ofDepth (p.weight + 1)).operand p
  statement p := (ofDepth (p.weight + 1)).statement p
  branch p := (ofDepth (p.weight + 1)).branch p

theorem ends_of_depth {f : Rules → Parse α} {s : Parse.Stage} {R : α → α → Prop} {b : α → Parse.Stage}
    (h : ∀ {n depth : Nat}, n ≤ depth → ∀ m, Parse.Keeps (.equal n) m true s R b (f (ofDepth n)) (f (ofDepth depth)))
    (hR : ∀ a a', R a a' → a = a') (m : Nat) :
    Parse.Keeps (.equal n) m true s R b (f (ofDepth n)) fun q => f (ofDepth (q.weight + 1)) q := by
  rintro k _ p hk ⟨rfl, hle, hlt⟩ hs
  have hlight := hlt (hk (.inl rfl))
  have hsame := Parse.Pace.equal.eq (h hlight m k p p hk ⟨rfl, Nat.le_succ _, fun _ => Nat.lt_succ_self _⟩ hs) hR
  dsimp only
  rw [← hsame]
  exact h (Nat.le_refl n) m k p p hk ⟨rfl, hle, hlt⟩ hs

theorem ends_tied (n : Nat) : Rules.Ends n (.ofDepth n) .tied where
  tier t := by
    have htier := ends_of_depth (n := n) (f := (·.tier t)) (fun hle => (ends_ofDepth hle).tier t) fun _ _ => id
    cases t <;> exact htier
  statement := ends_of_depth (fun hle => (ends_ofDepth hle).statement) fun _ _ => id
  branch := ends_of_depth (fun hle => (ends_ofDepth hle).branch) fun _ _ h => h.1

/-! The rules are the productions that go back to them. -/

theorem eq_of_keeps {b : α → Parse.Stage} {x x' : Parse α} {p : Parser}
    (h : ∀ m, Parse.Keeps (.equal p.weight) m false .fresh Eq b x x') : x p = x' p :=
  (Parse.Pace.equal.eq (h p.tokens.length false p p (by rintro (h | h) <;> cases h) ⟨rfl, Nat.le_refl _, nofun⟩
    (Nat.le_refl _)) fun _ _ => id).symm

theorem tied_tier (t : Tier) : tied.tier t = Parse.tier tied t := by
  have htier (p : Parser) := eq_of_keeps ((Parse.Built.tier t).keeps (ends_tied p.weight).keeps)
  cases t <;> exact funext htier

theorem tied_statement : tied.statement = Parse.statement tied :=
  funext fun p => (eq_of_keeps fun _ => .statement Parse.Pace.level_equal (ends_tied p.weight).keeps :)

theorem tied_branch {p : Parser} (h : p.peek.terminal = .keyword .ifKw) : tied.branch p = Parse.branch tied p :=
  have hkeeps : Parse.Keeps (.equal p.weight) p.tokens.length false _ _ _ _ _ :=
    Parse.Built.branch.keeps (ends_tied p.weight).keeps _
  (Parse.Pace.equal.eq (hkeeps false p p (by rintro (h | h) <;> cases h) ⟨rfl, Nat.le_refl _, nofun⟩
    ⟨Nat.le_refl _, h⟩) fun _ _ h => h.1).symm

theorem within_of_tied {s : Parse.Stage} {R : α → α → Prop} {b : α → Parse.Stage} {f : Rules → Parse α} {p q : Parser}
    {a : α} {light : Bool} (h : ∀ n m, Parse.Keeps (.equal n) m light s R b (f (ofDepth n)) (f tied))
    (hs : s.Within p.tokens.length p p) (hread : f tied p = .done a q) : ∃ a, (b a).Within p.tokens.length q q := by
  have hkeeps := h (p.weight + 1) _ true p p (fun _ => rfl) ⟨rfl, Nat.le_succ _, fun _ => Nat.lt_succ_self _⟩ hs
  rw [hread] at hkeeps
  rcases hkeeps with ⟨a, _, _, _, -, ho, -, ⟨rfl, -⟩, -, hwithin⟩ | ⟨_, _, -, ho⟩
  · cases ho
    exact ⟨a, hwithin⟩
  · cases ho

theorem length_of_tied_statement {p q : Parser} {s : Stmt} (h : tied.statement p = .done s q) :
    q.tokens.length < p.tokens.length := by
  obtain ⟨_, hwithin⟩ := within_of_tied (f := Rules.statement) (fun n => (ends_tied n).statement) (Nat.le_refl _) h
  exact hwithin

end Rules

theorem Parser.readProgram_tied (p : Parser) : Parser.readProgram p = Parse.withOwnLog (Parse.program .tied) p := by
  rw [Parse.readProgram_eq, Parser.rules, Parse.withOwnLog, Parse.withOwnLog]
  have hread := Parse.Keeps.program Parse.Pace.level_equal (Rules.ends_tied (p.weight + 1)).statement
    true { p with log := {} } _ (fun _ => rfl) ⟨rfl, Nat.le_succ _, fun _ => Nat.lt_succ_self _⟩ (Nat.le_refl _)
  rw [Parse.Pace.equal.eq hread]
  rintro ⟨i, body⟩ ⟨_, _⟩ ⟨rfl, hbody⟩
  exact congrArg (Program.mk i) (eq_of_forall₂ id hbody)

end Trellis
