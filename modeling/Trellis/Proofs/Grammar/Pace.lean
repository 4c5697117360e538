import Trellis.Proofs.Grammar.Actions
import Trellis.Proofs.Grammar.Built

/-!
# Two readings that keep pace

Two actions that are built alike are run side by side, each with a parser of its own. What the parsers have in
common differs from one comparison to the next, and so does what has to hold if the first reading comes to a stop.
A *pace* (`Parse.Pace`) says both, and that the two readings see and take the same tokens. Then all that is built
alike *keeps pace* (`Parse.Built.keeps`): the readings are done with values of a kind and with parsers that are
still abreast, unless they were stopped.

More may be known of the parsers once a token was taken, so they can be abreast in two ways. For the sake of
repetitions it is known how many tokens the second parser has left.
-/

namespace Trellis

/-- What a stage says of two parsers, of which the second had no more than so many tokens before. -/
def Parse.Stage.Within (m : Nat) (p p' : Parser) : Parse.Stage → Prop
  | fresh => p'.tokens.length ≤ m
  | facing Q => p'.tokens.length ≤ m ∧ Q p.peek
  | taken => p'.tokens.length < m
  | passed => p'.tokens.length < m

variable {p p' : Parser}

theorem Parse.Stage.Within.le {m : Nat} {s : Parse.Stage} (h : s.Within m p p') : p'.tokens.length ≤ m := by
  cases s with
  | fresh => exact h
  | facing Q => exact h.1
  | taken => exact Nat.le_of_lt h
  | passed => exact Nat.le_of_lt h

theorem Parse.Stage.Within.mono {l m : Nat} {s : Parse.Stage} (h : s.Within l p p') (hle : l ≤ m) :
    s.Within m p p' := by
  cases s with
  | fresh => exact Nat.le_trans h hle
  | facing Q => exact ⟨Nat.le_trans h.1 hle, h.2⟩
  | taken => exact Nat.lt_of_lt_of_le h hle
  | passed => exact Nat.lt_of_lt_of_le h hle

/-- **How two readings are compared**: which parsers are abreast, before a token was taken and behind it, and what
holds where the readings are stopped. -/
structure Parse.Pace (K : Kinship) where
  abreast : Bool → Parser → Parser → Prop
  stopped : {α : Type} → Outcome Parser α → Outcome Parser α → Prop
  weaken : ∀ {p p' : Parser}, abreast true p p' → abreast false p p'
  peek : ∀ {k : Bool} {p p' : Parser}, abreast k p p' → K.Placed p.peek p'.peek
  second : ∀ {k : Bool} {p p' : Parser}, abreast k p p' → p'.peekSecond.terminal = p.peekSecond.terminal
  token : ∀ {k : Bool} {p p' : Parser}, abreast k p p' → K.token p.peek
  /-- Does an ampersand bar the way? Then it is only taken to be refused, and no token is discarded. -/
  bars : Bool := false
  advance : ∀ {k : Bool} {p p' : Parser}, abreast k p p' →
    (bars = true → p.peek.terminal ≠ .symbol .ampersand) → ∃ t q t' q', Parse.advance p = .done t q ∧
    Parse.advance p' = .done t' q' ∧ K.Placed t t' ∧ abreast k q q' ∧ (t.isEnd = false → abreast true q q')
  refuse : ∀ {k : Bool} {p p' : Parser}, abreast k p p' → bars = true → p.peek.terminal = .symbol .ampersand →
    ∀ {α : Type} {y y' : Token → Parse α} {cause : Cause} {span : Span}, K.Names cause →
      y p.peek = Parse.fail cause span → stopped ((Parse.advance >>= y) p) ((Parse.advance >>= y') p') := by nofun
  strict : ∀ {k : Bool} {p p' : Parser}, abreast k p p' → bars = true → p.matching.limit = 0 := by nofun
  /-- If the second reading may discard more tokens, nothing is asked where the first one fails. -/
  limit : ∀ {k : Bool} {p p' : Parser}, abreast k p p' → p.matching.limit ≤ p'.matching.limit ∧
    (p'.matching.limit = p.matching.limit ∨
      ∀ {α : Type} (fault : Fault) (q : Parser) (o : Outcome Parser α), stopped (.failed fault q) o)
  freshId : ∀ {k : Bool} {p p' : Parser}, abreast k p p' → K.id p.nextId p'.nextId ∧
    abreast k { p with nextId := p.nextId + 1 } { p' with nextId := p'.nextId + 1 }
  fail : ∀ {k : Bool} {p p' : Parser}, abreast k p p' → ∀ {α : Type} {cause : Cause} {s s' : Span}, K.Names cause →
    K.span s s' → stopped (Parse.fail cause s p : Outcome Parser α) (Parse.fail cause s' p')
  bind : ∀ {α β : Type} {x x' : Parse α} {p p' : Parser}, stopped (x p) (x' p') →
    ∀ y y' : α → Parse β, stopped ((x >>= y) p) ((x' >>= y') p')
  /-- If the bound of the first reading matters, it is the one of the second reading. -/
  bounded : (∀ {α : Type} (o : Outcome Parser α), stopped .exhausted o) ∨
    ∀ {k : Bool} {p p' : Parser}, abreast k p p' → p.tokens.length = p'.tokens.length

def Outcome.IsUndone {α : Type} (o : Outcome Parser α) : Prop :=
  ∀ a q, o ≠ .done a q

namespace Outcome.IsUndone

theorem failed {α : Type} {fault : Fault} {q : Parser} : (.failed fault q : Outcome Parser α).IsUndone := by
  rintro _ _ ⟨⟩

theorem exhausted {α : Type} : (.exhausted : Outcome Parser α).IsUndone := by
  rintro _ _ ⟨⟩

theorem bind {α β : Type} {x : Parse α} {p : Parser} (h : (x p).IsUndone) (y : α → Parse β) :
    ((x >>= y) p).IsUndone := by
  intro b u hdone
  obtain ⟨a, q, hread, -⟩ := Action.done_bind hdone
  exact h a q hread

end Outcome.IsUndone

variable {K : Kinship}

def Outcome.Keeps {α : Type} (c : Parse.Pace K) (m : Nat) (k : Bool) (R : α → α → Prop)
    (behind : α → Parse.Stage) (o o' : Outcome Parser α) : Prop :=
  (∃ a q a' q', o = .done a q ∧ o' = .done a' q' ∧ R a a' ∧ c.abreast k q q' ∧
    (behind a = .taken → c.abreast true q q') ∧ (behind a).Within m q q') ∨ c.stopped o o'

/-- **Two actions keep pace**, where the second parser has no more than so many tokens. -/
def Parse.Keeps {α : Type} (c : Pace K) (m : Nat) (light : Bool) (before : Stage) (R : α → α → Prop)
    (behind : α → Stage) (x x' : Parse α) : Prop :=
  ∀ k p p', (light = true ∨ before = .taken → k = true) → c.abreast k p p' → before.Within m p p' →
    (x p).Keeps c m k R behind (x' p')

namespace Parse.Keeps

variable {c : Pace K} {m : Nat} {light : Bool} {s : Stage} {α β : Type} {R : α → α → Prop} {Q : β → β → Prop}
  {b : α → Stage} {d : β → Stage} {P : Token → Prop} {t : Terminal}

theorem pure {a a' : α} (h : R a a') (hb : b a = .fresh ∨ b a = s) :
    Keeps c m light s R b (Pure.pure a) (Pure.pure a') := by
  intro k p p' hk hp hs
  refine .inl ⟨a, p, a', p', rfl, rfl, h, hp, fun htaken => ?_, ?_⟩
  · rcases hb with hb | hb
    · rw [hb] at htaken
      cases htaken
    · exact hk (.inr (hb.symm.trans htaken)) ▸ hp
  · rcases hb with hb | hb <;> rw [hb]
    · exact hs.le
    · exact hs

theorem bind {x x' : Parse α} {y y' : α → Parse β} (hx : Keeps c m light s R b x x')
    (hy : ∀ a a', R a a' → Keeps c m light (b a) Q d (y a) (y' a')) :
    Keeps c m light s Q d (x >>= y) (x' >>= y') := by
  intro k p p' hk hp hs
  rcases hx k p p' hk hp hs with ⟨a, q, a', q', hread, hread', ha, hq, htaken, hwithin⟩ | hstopped
  · rw [Action.bind_apply, Action.bind_apply, hread, hread']
    have hnext (k : Bool) (hk : light = true ∨ b a = .taken → k = true) (hq : c.abreast k q q') :=
      hy a a' ha k q q' hk hq hwithin
    by_cases hb : b a = .taken
    · -- more is known of the parsers now, and some of it may be forgotten behind the second action
      rcases hnext true (fun _ => rfl) (htaken hb) with ⟨e, u, e', u', hread, hread', he, hu, -, hwithin⟩ | hstopped
      · refine .inl ⟨e, u, e', u', hread, hread', he, ?_, fun _ => hu, hwithin⟩
        cases k with
        | true => exact hu
        | false => exact c.weaken hu
      · exact .inr hstopped
    · exact hnext k (fun h => hk (.inl (h.resolve_right hb))) hq
  · exact .inr (c.bind hstopped y y')

theorem imp {x x' : Parse α} {R' : α → α → Prop} (h : Keeps c m light s R b x x')
    (hR : ∀ a a', R a a' → R' a a') : Keeps c m light s R' b x x' := by
  intro k p p' hk hp hs
  rcases h k p p' hk hp hs with ⟨a, q, a', q', hread, hread', ha, hrest⟩ | hstopped
  · exact .inl ⟨a, q, a', q', hread, hread', hR a a' ha, hrest⟩
  · exact .inr hstopped

theorem anew {light' : Bool} {e : α → Stage} {x x' : Parse α} (h : ∀ m, Keeps c m light' .fresh R e x x')
    (hlight : light' = true → light = true ∨ s = .taken)
    (hb : ∀ a, b a = .fresh ∨ b a = e a ∨ b a = .taken ∧ s = .taken) : Keeps c m light s R b x x' := by
  intro k p p' hk hp hs
  have hkeeps := h p'.tokens.length k p p' (fun h => hk (hlight (h.resolve_right (by rintro ⟨⟩)))) hp (Nat.le_refl _)
  rcases hkeeps with ⟨a, q, a', q', hread, hread', ha, hq, htaken, hwithin⟩ | hstopped
  · refine .inl ⟨a, q, a', q', hread, hread', ha, hq, ?_⟩
    rcases hb a with hba | hba | ⟨hba, hbefore⟩ <;> rw [hba]
    · exact ⟨by rintro ⟨⟩, Nat.le_trans hwithin.le hs.le⟩
    · exact ⟨htaken, hwithin.mono hs.le⟩
    · subst hbefore
      exact ⟨fun _ => hk (.inr rfl) ▸ hq, Nat.lt_of_le_of_lt hwithin.le hs⟩
  · exact .inr hstopped

theorem forget {x x' : Parse α} (h : Keeps c m light (.facing P) R b x x') :
    Keeps c m light (.facing P) R (fun _ => .fresh) x x' := by
  intro k p p' hk hp hs
  rcases h k p p' hk hp hs with ⟨a, q, a', q', hread, hread', ha, hq, -, hwithin⟩ | hstopped
  · exact .inl ⟨a, q, a', q', hread, hread', ha, hq, nofun, hwithin.le⟩
  · exact .inr hstopped

theorem back {x x' : Parse α} (h : ∀ m, Keeps c m true .fresh R b x x') (hlight : light = true ∨ s = .taken) :
    Keeps c m light s R b x x' :=
  anew h (fun _ => hlight) fun _ => .inr (.inl rfl)

theorem behind {e : α → Stage} {x x' : Parse α} (h : ∀ m, Keeps c m true .fresh R e x x') :
    Keeps c m light .taken R (fun _ => .taken) x x' :=
  anew h (fun _ => .inr rfl) fun _ => .inr (.inr ⟨rfl, rfl⟩)

theorem fail {cause : Cause} (hcause : K.Names cause) {span span' : Span} (h : K.span span span') :
    Keeps c m light s R b (Parse.fail cause span) (Parse.fail cause span') :=
  fun _ _ _ _ hp _ => .inr (c.fail hp hcause h)

theorem failExpected (what : String) : Keeps c m light s R b (Parse.failExpected what) (Parse.failExpected what) := by
  intro k p p' hk hp hs
  show Outcome.Keeps c m k R b (Parse.fail (.expected what p.peek.describe) p.peek.span p)
    (Parse.fail (.expected what p'.peek.describe) p'.peek.span p')
  have hplaced := c.peek hp
  rw [hplaced.same]
  exact fail (.inr ⟨_, "Expected " ++ what ++ ", got ", c.token hp, rfl⟩) hplaced.spans k p p' hk hp hs

theorem sees {y y' : Bool → Parse β} (hyes : Keeps c m light (.facing (·.terminal = t)) Q d (y true) (y' true))
    (hno : Keeps c m light .fresh Q d (y false) (y' false)) :
    Keeps c m light .fresh Q d (Parse.sees t >>= y) (Parse.sees t >>= y') := by
  intro k p p' hk hp hs
  show (y (p.sees t) p).Keeps c m k Q d (y' (p'.sees t) p')
  have hsees : p'.sees t = p.sees t := by rw [Parser.sees, (c.peek hp).terminal, Parser.sees]
  rw [hsees]
  have hk' (h : light = true ∨ Stage.facing (·.terminal = t) = .taken) : k = true :=
    hk (.inl (h.resolve_right (by rintro ⟨⟩)))
  cases hfound : p.sees t with
  | true => exact hyes k p p' hk' hp ⟨hs, beq_iff_eq.mp hfound⟩
  | false => exact hno k p p' hk hp hs

theorem drop (hP : c.bars = true → ∀ t, P t → t.terminal ≠ .symbol .ampersand) :
    Keeps c m light (.facing P) K.Placed (fun t => .found (!t.isEnd)) Parse.advance Parse.advance := by
  intro k p p' hk hp hs
  obtain ⟨t, q, t', q', hread, hread', hplaced, hq, htaken⟩ := c.advance hp fun h => hP h _ hs.2
  obtain ⟨_, _, ts, hread'', htokens, -, -, -, hmem⟩ := exists_advance p'
  rw [hread'] at hread''
  cases hread''
  have hlength := congrArg List.length htokens
  rw [List.length_append] at hlength
  have hle : p'.tokens.length ≤ m := hs.1
  have hends : t'.isEnd = t.isEnd := by rw [Token.isEnd_eq, hplaced.terminal, Token.isEnd_eq]
  refine .inl ⟨t, q, t', q', hread, hread', hplaced, hq, ?_⟩
  show (Stage.found (!t.isEnd) = .taken → _) ∧ (Stage.found (!t.isEnd)).Within m q q'
  cases hend : t.isEnd with
  | true =>
    refine ⟨by rintro ⟨⟩, ?_⟩
    show q'.tokens.length ≤ m
    omega
  | false =>
    have hpos := List.length_pos_of_mem (hmem (hends.trans hend)).2
    refine ⟨fun _ => htaken hend, ?_⟩
    show q'.tokens.length < m
    omega

theorem advance (hP : ∀ t, P t → t.terminal.isPlain = true) :
    Keeps c m light (.facing P) (K.Tokens P) (fun _ => .taken) Parse.advance Parse.advance := by
  intro k p p' hk hp hs
  have hdrop := drop (fun _ t ht => Terminal.ne_of_isPlain (hP t ht)) k p p' hk hp hs
  rcases hdrop with ⟨t, q, t', q', hread, hread', hplaced, hq, hrest⟩ | hstopped
  · obtain ⟨_, _, ts, hread'', -, -, -, hterminal, hmem⟩ := exists_advance p
    rw [hread] at hread''
    cases hread''
    have hend := Token.isEnd_of_isPlain (hterminal ▸ hP _ hs.2)
    obtain ⟨rfl, -⟩ := hmem hend
    simp only [hend] at hrest
    refine .inl ⟨_, q, t', q', hread, hread', ?_, hq, hrest⟩
    rw [hplaced.same]
    exact ⟨hplaced.spans, c.token hp, hs.2⟩
  · exact .inr hstopped

theorem expect_of {R : Token → Token → Prop} {b : Token → Stage}
    (htake : ∀ m light, Keeps c m light (.facing (·.terminal = t)) R b Parse.advance Parse.advance) (what : String) :
    Keeps c m light s R b (Parse.expect t what) (Parse.expect t what) := by
  have hseek {l l' : Nat} (hstrict : c.bars = true → l = 0) (hle : l ≤ l') (hsame : l' = l ∨
      ∀ {α : Type} (fault : Fault) (q : Parser)
      (o : Outcome Parser α), c.stopped (.failed fault q) o) (light : Bool) (m : Nat) :
      Keeps c m light .fresh R b (Parse.seek t what l) (Parse.seek t what l') := by
    induction l generalizing l' m with
    | zero =>
      rcases hsame with rfl | hfails
      · exact sees (htake m light) (failExpected what)
      · have hstop (y : Parse Token) : Keeps c m light .fresh R b (Parse.failExpected what) y :=
          fun _ _ _ _ _ _ => .inr (hfails _ _ _)
        cases l' with
        | zero => exact sees (htake m light) (hstop _)
        | succ l' => exact sees (htake m light) (hstop _)
    | succ l ih =>
      cases l' with
      | zero => cases hle
      | succ l' =>
        have hopen (h : c.bars = true) : False := nomatch hstrict h
        have hdrop : Keeps c m light .fresh K.Placed (fun t => .found (!t.isEnd)) Parse.advance Parse.advance :=
          fun k p p' hk hp hs => drop (P := fun _ => True) (fun h => (hopen h).elim) k p p'
            (fun h => hk (h.imp_right nofun)) hp ⟨hs, trivial⟩
        refine sees (htake m light) (sees (failExpected what) (bind hdrop fun _ _ _ => ?_))
        exact anew (fun m => ih (fun h => (hopen h).elim) (Nat.le_of_succ_le_succ hle) (hsame.imp_left Nat.succ.inj) m)
          .inl fun _ => .inr (.inl rfl)
  intro k p p' hk hp hs
  rw [Parse.expect_eq, Parse.expect_eq]
  obtain ⟨hle, hsame⟩ := c.limit hp
  exact anew (hseek (c.strict hp) hle hsame light) .inl (fun _ => .inr (.inl rfl)) k p p' hk hp hs

theorem expect (ht : t.isPlain = true) (what : String) :
    Keeps c m light s (K.Tokens (·.terminal = t)) (fun _ => .taken) (Parse.expect t what) (Parse.expect t what) :=
  expect_of (fun _ _ => advance fun _ h => h ▸ ht) what

theorem freshId : Keeps c m light s K.id (fun _ => s) Parse.freshId Parse.freshId := by
  intro k p p' hk hp hs
  obtain ⟨hid, hq⟩ := c.freshId hp
  refine .inl ⟨_, _, _, _, rfl, rfl, hid, hq, fun h => hk (.inr h) ▸ hq, ?_⟩
  cases s <;> exact hs

theorem repeatRound {γ δ : Type} {round round' : α → Parse (Round α β)} {e : Round α β → Stage}
    (he : ∀ a, e (.again a) = .taken ∨ e (.again a) = .passed)
    (h : ∀ m a a', R a a' → Keeps c m light .fresh (Round.Akin R Q) e (round a) (round' a')) (bound : List γ)
    (bound' : List δ) {a a' : α} (ha : R a a') {k : Bool} (hk : light = true → k = true) (hp : c.abreast k p p')
    (hbound : (∀ {k : Bool} {p p' : Parser}, c.abreast k p p' → p.tokens.length = p'.tokens.length) →
      p'.tokens.length < bound.length)
    (hbound' : p'.tokens.length < bound'.length) (hs : p'.tokens.length ≤ m) :
    (Parse.repeatRound round bound a p).Keeps c m k Q (fun _ => .fresh) (Parse.repeatRound round' bound' a' p') := by
  induction bound generalizing bound' a a' p p' with
  | nil =>
    rcases c.bounded with hstops | hlength
    · exact .inr (hstops _)
    · exact absurd (hbound hlength) (Nat.not_lt_zero _)
  | cons _ bound ih =>
    cases bound' with
    | nil => exact absurd hbound' (Nat.not_lt_zero _)
    | cons _ bound' =>
      have hround := h p'.tokens.length a a' ha k p p' (fun h => hk (h.resolve_right (by rintro ⟨⟩))) hp
        (Nat.le_refl _)
      rcases hround with ⟨ended, q, ended', q', hread, hread', hended, hq, -, hwithin⟩ | hstopped
      · rw [Parse.repeatRound, Parse.repeatRound, Action.bind_apply, Action.bind_apply, hread, hread']
        cases hended with
        | again hb =>
          -- the round took a token, so the bounds, which are one less now, are still above what is left
          have hlt : q'.tokens.length < p'.tokens.length := by
            rcases he _ with he | he <;> rw [he] at hwithin <;> exact hwithin
          refine ih bound' hb hq (fun hlength => ?_) ?_ (Nat.le_trans (Nat.le_of_lt hlt) hs)
          · exact Nat.lt_of_lt_of_le hlt (Nat.le_of_lt_succ (hbound hlength))
          · exact Nat.lt_of_lt_of_le hlt (Nat.le_of_lt_succ hbound')
        | stop hb => exact .inl ⟨_, _, _, _, rfl, rfl, hb, hq, by rintro ⟨⟩, Nat.le_trans hwithin.le hs⟩
      · exact .inr (c.bind hstopped _ _)

theorem rounds {round round' : α → Parse (Round α β)} {e : Round α β → Stage}
    (he : ∀ a, e (.again a) = .taken ∨ e (.again a) = .passed)
    (h : ∀ m a a', R a a' → Keeps c m light .fresh (Round.Akin R Q) e (round a) (round' a'))
    {a a' : α} (ha : R a a') :
    Keeps c m light .fresh Q (fun _ => .fresh) (Parse.rounds round a) (Parse.rounds round' a') :=
  fun _ _ _ hk hp hs => repeatRound he h _ _ ha (fun h => hk (.inl h)) hp
    (fun hlength => by rw [← hlength hp]; exact Nat.lt_succ_self _) (Nat.lt_succ_self _) hs

theorem whole {x x' : Parse Expr} {R : Expr → Expr → Prop} (h : Keeps c m light .fresh R (fun _ => .taken) x x') :
    Keeps c m light .fresh R (fun _ => .taken) (Parse.whole x) (Parse.whole x') := by
  have htake (m : Nat) (light : Bool) : Keeps c m light (.facing (·.terminal = .endOfFile))
      K.Placed (fun _ => .fresh) Parse.advance Parse.advance :=
    forget (drop fun _ _ h => h ▸ nofun)
  exact bind h fun _ _ he => bind (behind fun _ => expect_of htake _) fun _ _ _ => pure he (.inr rfl)

theorem slot {i : Pace K} {r r' : Rules} {text text' : Span} {source : String} {offset : Nat}
    (hspan : ∀ s, K.span (shiftSpan text offset s) (shiftSpan text' offset s))
    (hexpression : ∀ m, Keeps i m true .fresh K.expr (fun _ => .taken) r.expression r'.expression)
    (hkeywords : ∀ {p p' : Parser}, c.abreast true p p' → p'.keywords = p.keywords)
    (hinner : ∀ {p p' : Parser}, c.abreast true p p' →
      i.abreast true (slotParser p (slotTokens p.keywords text source offset))
        (slotParser p' (slotTokens p.keywords text' source offset)))
    (houter : ∀ {p p' q q' : Parser}, c.abreast true p p' → i.abreast true q q' →
      c.abreast true { p with nextId := q.nextId } { p' with nextId := q'.nextId })
    (hstopped : ∀ {p p' : Parser} {o o' : Outcome Parser Expr}, c.abreast true p p' → i.stopped o o' →
      c.stopped (slotOutcome p o) (slotOutcome p' o')) :
    Keeps c m true .fresh K.expr (fun _ => .fresh) (Parse.slot r text source offset)
      (Parse.slot r' text' source offset) := by
  intro k p p' hk hp hs
  obtain rfl := hk (.inl rfl)
  cases hfaults : (scan p.keywords source).faults with
  | cons f others =>
    rw [slot_of_fault hfaults, slot_of_fault (by rw [hkeywords hp]; exact hfaults)]
    exact .inr (c.fail hp (.inl (Cause.namesEnd_scan _)) (hspan _))
  | nil =>
    rw [slot_of_scanned hfaults, slot_of_scanned (by rw [hkeywords hp]; exact hfaults), hkeywords hp]
    have hread := whole (hexpression _) true _ _ (fun _ => rfl) (hinner hp) (Nat.le_refl _)
    rcases hread with ⟨e, q, e', q', hread, hread', he, hq, -⟩ | hread
    · rw [hread, hread']
      exact .inl ⟨e, _, e', _, rfl, rfl, he, houter hp hq, by rintro ⟨⟩, hs⟩
    · exact .inr (hstopped hp hread)

end Parse.Keeps

structure Rules.Keeps (c : Parse.Pace K) (r r' : Rules) : Prop where
  tier : ∀ t m, Parse.Keeps c m true .fresh K.expr (fun _ => .taken) (r.tier t) (r'.tier t)
  branch : ∀ m, Parse.Keeps c m true (.facing (·.terminal = .keyword .ifKw))
    (fun s s' => K.stmt s s' ∧ s.form.isBranch = true) (fun _ => .taken) r.branch r'.branch
  slot : ∀ m {t : Token} {span' : Span} {raw : String} {segments : List Template.Segment} {source : String}
    {offset : Nat}, K.token t → K.span t.span span' → t.kind = .text raw → Template.split raw = .ok segments →
      .slot source offset ∈ segments → Parse.Keeps c m true .fresh K.expr (fun _ => .fresh)
        (Parse.slot r t.span source offset) (Parse.slot r' span' source offset)
  block : ∀ m {terminators : List Terminal}, terminators.all (fun t => t != .comment && t != .blankLine) = true →
    Parse.Keeps c m true .fresh K.block (fun _ => .fresh) (Parse.blockUntil r terminators)
      (Parse.blockUntil r' terminators)
  expose : ∀ m, Parse.Keeps c m false (.facing (·.terminal = .keyword .exposeKw)) K.stmt (fun _ => .taken)
    (Parse.expose r) (Parse.expose r')

theorem Parse.Built.keeps {c : Pace K} {r r' : Rules} (hr : r.Keeps c r') {light : Bool} {s : Stage} {α : Type}
    {R : α → α → Prop} {b : α → Stage} {x x' : Parse α} (h : Built K r r' light s R b x x') (m : Nat) :
    Keeps c m light s R b x x' := by
  -- what is known of the next token does not tell that one was taken
  have facing {light : Bool} {P P' : Token → Prop} {k : Bool} (hk : light = true ∨ Stage.facing P = .taken → k = true)
      (h : light = true ∨ Stage.facing P' = .taken) : k = true := hk (.inl (h.resolve_right (by rintro ⟨⟩)))
  induction h generalizing m with
  | pure h hb => exact .pure h hb
  | bind _ _ ihx ihy => exact .bind (ihx m) fun a a' ha => ihy a a' ha m
  | anew _ hlight hb ih => exact .anew ih hlight hb
  | imp _ himp ih => exact (ih m).imp himp
  | face _ hQ ih => exact fun k p p' hk hp hs => ih m k p p' (facing hk) hp ⟨hs.1, hQ _ hs.2⟩
  | rule t h => exact .back (hr.tier t) h
  | ruleBranch h => exact h ▸ hr.branch m
  | look _ ih =>
    intro k p p' hk hp hs
    rw [Action.bind_apply, Action.bind_apply, Action.read_apply, Action.read_apply]
    have hplaced := c.peek hp
    rw [hplaced.same]
    exact ih p.peek _ (c.token hp) hplaced.spans m k p p' (fun h => hk (.inl (h.resolve_right (by rintro ⟨⟩)))) hp ⟨hs, rfl⟩
  | place _ ih =>
    intro k p p' hk hp hs
    rw [Action.bind_apply, Action.bind_apply, Action.read_apply, Action.read_apply]
    exact ih p.peek p'.peek (c.peek hp).spans m k p p' hk hp hs
  | second _ ih =>
    intro k p p' hk hp hs
    rw [Action.bind_apply, Action.bind_apply, Action.read_apply, Action.read_apply]
    exact ih p.peekSecond p'.peekSecond (by rw [c.second hp]) m k p p' hk hp hs
  | sees _ _ _ ihyes ihno => exact .sees (ihyes m) (ihno m)
  | advance hQ => exact .advance hQ
  | oneOf kinds hkinds what _ hfail ih =>
    intro k p p' hk hp hs
    cases hkind : kinds.contains p.peek.terminal with
    | true =>
      have hplain (t : Token) (ht : kinds.contains t.terminal = true) :=
        List.all_eq_true.mp hkinds _ (List.contains_iff_mem.mp ht)
      exact Keeps.bind (.advance hplain) (fun t t' ht => ih t t' ht m) k p p' (fun h => hk (h.imp_right nofun)) hp
        ⟨hs, hkind⟩
    | false =>
      refine .inr ?_
      have hnames {t : Token} (h : t.describe = p.peek.describe) : K.Names (.expected what t.describe) :=
        .inr ⟨_, "Expected " ++ what ++ ", got ", c.token hp, by rw [h]; rfl⟩
      by_cases hbars : c.bars = true ∧ p.peek.terminal = .symbol .ampersand
      · exact c.refuse hp hbars.1 hbars.2 (hnames rfl) (hfail _ hkind).1
      · obtain ⟨t, q, t', q', hread, hread', ⟨hspan, hsame⟩, hq, -⟩ := c.advance hp fun h ht => hbars ⟨h, ht⟩
        obtain ⟨hterminal, hdescribe⟩ := of_advance hread
        rw [Action.bind_apply, Action.bind_apply, hread, hread', hsame]
        dsimp only
        rw [← hterminal] at hkind
        rw [(hfail t hkind).1, (hfail { t with span := t'.span } hkind).2]
        exact c.fail hq (hnames hdescribe) hspan
  | expect ht what => exact .expect ht what
  | failExpected what => exact .failExpected what
  | fail _ hcause h => exact .fail (.inl hcause) h
  | refuse h =>
    intro k p p' hk hp hs
    exact Keeps.fail (.inr ⟨_, "Unexpected token ", c.token hp, by rw [hs.2]; rfl⟩) h k p p' hk hp hs
  | freshId => exact .freshId
  | rounds _ ha ih => exact .rounds (fun _ => .inl rfl) (fun m a a' ha => ih a a' ha m) ha
  | slot ht hspan hkind hsplit hslot => exact .behind fun m => hr.slot m ht hspan hkind hsplit hslot
  | block h hts => exact h ▸ hr.block m hts
  | expose => exact fun k p p' _ hp hs => hr.expose m k p p' (by rintro (h | h) <;> cases h) hp hs

/-! ## Readings with the same comments and blank lines -/

/-- **Statements of a kind make up blocks of a kind**, comments and blank lines included. -/
structure Kinship.Nests (K : Kinship) : Prop where
  trivia : ∀ {i i' : NodeId} {span' : Span} (t : Token), K.id i i' → K.span t.span span' →
    K.stmt ⟨i, t.span, t.triviaForm⟩ ⟨i', span', t.triviaForm⟩
  block : ∀ {i i' : NodeId} {span span' : Span} {body body' : List Stmt}, K.id i i' → K.span span span' →
    List.Forall₂ K.stmt body body' → K.block ⟨i, span, body⟩ ⟨i', span', body'⟩
  exposed : ∀ {i i' : NodeId} {span span' : Span} {s s' : Stmt}, K.id i i' → K.span span span' → K.stmt s s' →
    s.form.declaredName?.isSome = true → K.stmt ⟨i, span, .expose s⟩ ⟨i', span', .expose s'⟩
  declares : ∀ {s s' : Stmt}, K.stmt s s' →
    s'.form.declaredName?.isSome = s.form.declaredName?.isSome ∧ K.span s.span s'.span

/-- **Two readings that also see the same front.** Comments and blank lines are statements for both of them. -/
structure Parse.Pace.Level (c : Pace K) : Prop extends K.Nests where
  front : ∀ {k : Bool} {p p' : Parser}, c.abreast k p p' → K.Placed p.front p'.front
  lastSpan : ∀ {p p' : Parser}, c.abreast true p p' → K.span p.lastSpan p'.lastSpan
  pastTrivia : ∀ {k : Bool} {p p' : Parser}, c.abreast k p p' → p.front.isTrivia = true →
    c.abreast k (Parse.pastTrivia p) (Parse.pastTrivia p')

namespace Parse.Keeps

variable {c : Pace K} (hc : c.Level) {r r' : Rules} {m : Nat} {light : Bool}

include hc

theorem statement (hr : r.Keeps c r') :
    Keeps c m light .fresh K.stmt (fun _ => .passed) (Parse.statement r) (Parse.statement r') := by
  intro k p p' hk hp hs
  have hfront := hc.front hp
  have hsame : p'.front.isTrivia = p.front.isTrivia := by rw [Token.isTrivia, hfront.kind, Token.isTrivia]
  cases htrivia : p.front.isTrivia with
  | true =>
    rw [statement_of_trivia htrivia, statement_of_trivia (hsame.trans htrivia)]
    have hstmt : K.stmt ⟨p.nextId, p.front.span, p.front.triviaForm⟩ ⟨p'.nextId, p'.front.span, p'.front.triviaForm⟩ := by
      rw [hfront.same]
      exact hc.trivia _ (c.freshId hp).1 hfront.spans
    refine .inl ⟨_, _, _, _, rfl, rfl, hstmt, hc.pastTrivia hp htrivia, by rintro ⟨⟩, ?_⟩
    show (p'.tokens.drop 1).length < m
    have hlength := congrArg List.length (tokens_of_trivia (p := p') (hsame.trans htrivia))
    rw [List.length_cons] at hlength
    exact Nat.lt_of_lt_of_le (by rw [hlength]; exact Nat.lt_succ_self _) hs
  | false =>
    rw [statement_of_not_trivia htrivia, statement_of_not_trivia (hsame.trans htrivia)]
    rcases (Built.properStatement.keeps hr m : Keeps c m false _ _ _ _ _) k p p' (by rintro (h | h) <;> cases h) hp hs with
      ⟨s, q, s', q', hread, hread', hstmt, hq, -, hwithin⟩ | hstopped
    · exact .inl ⟨s, q, s', q', hread, hread', hstmt, hq, by rintro ⟨⟩, hwithin⟩
    · exact .inr hstopped

theorem blockRound (h : ∀ m, Keeps c m light .fresh K.stmt (fun _ => .passed) r.statement r'.statement)
    (terminators : List Terminal) {reversed reversed' : List Stmt}
    (hreversed : List.Forall₂ K.stmt reversed reversed') :
    Keeps c m light .fresh (Round.Akin (List.Forall₂ K.stmt) (List.Forall₂ K.stmt))
      (fun | .again _ => .passed | .stop _ => .fresh) (Parse.blockRound r terminators reversed)
      (Parse.blockRound r' terminators reversed') := by
  intro k p p' hk hp hs
  show (ite _ _ _ : Parse _) p |>.Keeps c m k _ _ ((ite _ _ _ : Parse _) p')
  rw [Token.isEnd_eq, Token.isEnd_eq, (hc.front hp).terminal]
  split
  · exact pure (.stop hreversed) (.inl rfl) k p p' hk hp hs
  · exact bind (h m) (fun _ _ hs => pure (.again (.cons hs hreversed)) (.inr rfl)) k p p' hk hp hs

theorem blockUntil (h : ∀ m, Keeps c m true .fresh K.stmt (fun _ => .passed) r.statement r'.statement)
    (terminators : List Terminal) :
    Keeps c m true .fresh K.block (fun _ => .fresh) (Parse.blockUntil r terminators)
      (Parse.blockUntil r' terminators) := by
  rw [blockUntil_eq, blockUntil_eq]
  refine bind freshId fun i i' hi k p p' hk hp hs => ?_
  obtain rfl := hk (.inl rfl)
  rw [Action.bind_apply, Action.bind_apply, Action.read_apply, Action.read_apply]
  refine bind (rounds (fun _ => .inr rfl) (fun m _ _ hs => blockRound hc h terminators hs) .nil)
    (fun _ _ hs => pure (hc.block hi (hc.lastSpan hp) (List.rel_reverse hs)) (.inl rfl)) true p p'
    (fun _ : true = true ∨ Stage.fresh = .taken => rfl) hp hs

theorem program (h : ∀ m, Keeps c m light .fresh K.stmt (fun _ => .passed) r.statement r'.statement) :
    Keeps c m light .fresh (fun p p' => K.id p.id p'.id ∧ List.Forall₂ K.stmt p.body p'.body) (fun _ => .fresh)
      (Parse.program r) (Parse.program r') := by
  rw [program_eq, program_eq]
  exact bind freshId fun _ _ hi => bind (rounds (fun _ => .inr rfl) (fun m _ _ hs => blockRound hc h [] hs) .nil)
    fun _ _ hs => pure ⟨hi, List.rel_reverse hs⟩ (.inl rfl)

theorem expose (h : ∀ m, Keeps c m true .fresh K.stmt (fun _ => .passed) r.statement r'.statement) :
    Keeps c m light (.facing (·.terminal = .keyword .exposeKw)) K.stmt (fun _ => .taken) (Parse.expose r)
      (Parse.expose r') := by
  refine bind (advance fun _ h => h ▸ rfl) fun t t' ht => bind (behind h) fun s s' hs => ?_
  obtain ⟨hdeclares, hspan⟩ := hc.declares hs
  rw [hdeclares]
  cases hdeclared : s.form.declaredName?.isSome with
  | true => exact bind freshId fun _ _ hi => pure (hc.exposed hi ht.spans hs hdeclared) (.inr rfl)
  | false => exact fail (.inl rfl) hspan

end Parse.Keeps

theorem Rules.tier_ofDepth (depth : Nat) (t : Tier) : (ofDepth (depth + 1)).tier t = Parse.tier (ofDepth depth) t := by
  cases t <;> rfl

theorem Rules.keeps_ofDepth {ι : Type} {c : ι → Parse.Pace K} (hc : ∀ i, (c i).Level)
    (hexhausted : ∀ i {α : Type}, (c i).stopped (.exhausted : Outcome Parser α) .exhausted)
    (hslot : ∀ depth, (∀ i m, Parse.Keeps (c i) m true .fresh K.expr (fun _ => .taken) (ofDepth depth).expression
        (ofDepth depth).expression) →
      ∀ i m {t : Token} {raw : String} {segments : List Template.Segment} {source : String} {offset : Nat} {span' : Span},
        K.token t → K.span t.span span' → t.kind = .text raw → Template.split raw = .ok segments →
          .slot source offset ∈ segments → Parse.Keeps (c i) m true .fresh K.expr (fun _ => .fresh)
            (Parse.slot (ofDepth depth) t.span source offset) (Parse.slot (ofDepth depth) span' source offset))
    (depth : Nat) : ∀ i, (ofDepth depth).Keeps (c i) (ofDepth depth) ∧ ∀ m light,
      Parse.Keeps (c i) m light .fresh K.stmt (fun _ => .passed) (ofDepth depth).statement (ofDepth depth).statement := by
  induction depth with
  | zero =>
    have hnever (i : ι) {α : Type} {s : Parse.Stage} {R : α → α → Prop} {b : α → Parse.Stage} (light : Bool) (m : Nat) :
        Parse.Keeps (c i) m light s R b Action.exhaust Action.exhaust := fun _ _ _ _ _ _ => .inr (hexhausted i)
    exact fun i => ⟨⟨fun t => by cases t <;> exact hnever i true, hnever i true,
      fun m _ _ _ _ _ _ => hslot 0 (fun i => hnever i true) i m,
      fun _ _ _ => .blockUntil (hc i) (hnever i true) _, fun _ => .expose (hc i) (hnever i true)⟩,
      fun m light => hnever i light m⟩
  | succ depth ih =>
    have hstatement (i : ι) (m : Nat) (light : Bool) : Parse.Keeps (c i) m light .fresh K.stmt (fun _ => .passed)
        (Parse.statement (ofDepth depth)) (Parse.statement (ofDepth depth)) := .statement (hc i) (ih i).1
    exact fun i => ⟨⟨fun t => tier_ofDepth depth t ▸ (Parse.Built.tier t).keeps (ih i).1,
      Parse.Built.branch.keeps (ih i).1,
      fun m _ _ _ _ _ _ => hslot _ (fun i => Parse.Built.expression.keeps (ih i).1) i m,
      fun _ _ _ => .blockUntil (hc i) (fun m => hstatement i m true) _,
      fun _ => .expose (hc i) fun m => hstatement i m true⟩, hstatement i⟩

/-! ## Readings that are watched -/

/-- **What is watched in a reading**: what is known of the parser all along, and of a fault that stops it. -/
structure Parse.Watch (K : Kinship) where
  holds : Parser → Prop
  fails : Fault → Parser → Prop
  token : ∀ {p : Parser}, holds p → K.token p.peek
  bars : Bool := false
  advance : ∀ {p q : Parser} {t : Token}, holds p → (bars = true → p.peek.terminal ≠ .symbol .ampersand) →
    Parse.advance p = .done t q → holds q
  strict : ∀ {p : Parser}, holds p → bars = true → p.matching.limit = 0 := by nofun
  freshId : ∀ {p : Parser}, holds p → holds { p with nextId := p.nextId + 1 }
  pastTrivia : ∀ {p : Parser}, holds p → p.front.isTrivia = true → holds (Parse.pastTrivia p)
  fail : ∀ {p q : Parser} {cause : Cause} (span : Span), holds p → q = p ∨ bars = true ∧ q.log = p.log →
    K.Names cause → fails (.reading cause span) { q with log := q.log.record (.reading cause span) }

def Outcome.StopsWith {α : Type} (F : Fault → Parser → Prop) : Outcome Parser α → Prop
  | .done _ _ => False
  | .failed fault q => F fault q
  | .exhausted => True

namespace Parse.Pace

variable (w : Watch K) (hspan : ∀ s, K.span s s)

/-- **A reading beside itself**, which is watched. -/
def watched (hid : ∀ i, K.id i i) : Pace K where
  abreast _ p p' := p' = p ∧ w.holds p
  stopped o _ := o.StopsWith w.fails
  weaken h := h
  peek h := .of_eq (by rw [h.1]) hspan
  second h := by rw [h.1]
  token h := w.token h.2
  bars := w.bars
  advance := by
    rintro k _ p ⟨rfl, hp⟩ hpeek
    obtain ⟨t, q, -, hread, -⟩ := exists_advance p
    have hq := w.advance hp hpeek hread
    exact ⟨t, q, t, q, hread, hread, ⟨hspan _, rfl⟩, ⟨rfl, hq⟩, fun _ => ⟨rfl, hq⟩⟩
  refuse := by
    rintro k _ p ⟨rfl, hp⟩ hbars hpeek α y y' cause span hcause hy
    obtain ⟨t, q, _, hread, -, -, hlog, hterminal, htaken⟩ := exists_advance p
    obtain ⟨rfl, -⟩ := htaken (by rw [Token.isEnd_eq, hterminal, hpeek]; rfl)
    rw [Action.bind_apply, hread]
    dsimp only
    rw [hy]
    exact w.fail span hp (.inr ⟨hbars, hlog⟩) hcause
  strict h := w.strict h.2
  limit h := by
    rw [h.1]
    exact ⟨Nat.le_refl _, .inl rfl⟩
  freshId := by
    rintro k _ p ⟨rfl, hp⟩
    exact ⟨hid _, rfl, w.freshId hp⟩
  fail := by
    rintro k _ p ⟨rfl, hp⟩ α cause s s' hcause -
    exact w.fail s hp (.inl rfl) hcause
  bind := by
    intro α β x x' p p' h y y'
    rw [Action.bind_apply]
    cases hread : x p with
    | done a q =>
      rw [hread] at h
      exact h.elim
    | failed fault q =>
      rw [hread] at h
      exact h
    | exhausted => trivial
  bounded := .inl fun _ => trivial

theorem level_watched (hK : K.Nests) (hid : ∀ i, K.id i i) : (watched w hspan hid).Level where
  toNests := hK
  front h := .of_eq (by rw [h.1]) hspan
  lastSpan h := by
    rw [h.1]
    exact hspan _
  pastTrivia := by
    rintro k _ p ⟨rfl, hp⟩ htrivia
    exact ⟨rfl, w.pastTrivia hp htrivia⟩

end Parse.Pace

end Trellis
