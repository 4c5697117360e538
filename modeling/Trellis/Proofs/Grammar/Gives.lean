import Trellis.Proofs.Token.Sound

/-!
# Reading as a relation between tokens

What a production does depends on the bare tokens that are left and on the *dialect*: the spellings of the keywords
and the mode of matching. So a production can be described by what it makes of a list of bare tokens.

`Gives d x ts P rest` says that `x` ends well on the tokens `ts`: it is done, leaves the tokens `rest` and has a
result of which `P` holds. This is how a script is shown to be accepted. `Tells d x ts P` says what is known when `x`
is done on the tokens `ts`: `P` holds of the tokens that are left and of the result. Both have a rule for each way to
put productions together.
-/

namespace Trellis

/-- **How scripts are read**: the spellings of the keywords and the mode of matching. -/
structure Dialect where
  keywords : KeywordTable
  matching : MatchMode

structure Parser.Holds (d : Dialect) (p : Parser) (ts : List Token) : Prop where
  keywords : p.keywords = d.keywords
  matching : p.matching = d.matching
  tokens : p.tokens.map Token.bare = ts

variable {t : Token}

namespace Token

def peek (ts : List Token) : Token :=
  (skip ts).head?.getD endOfFile

theorem terminal_peek (ts : List Token) : (peek ts).terminal = next ts := by
  unfold peek next
  cases skip ts <;> rfl

theorem peek_of_skip {ts rest : List Token} (h : skip ts = t :: rest) : peek ts = t := by
  unfold peek
  rw [h]
  rfl

theorem find?_not_trivia (ts : List Token) : (ts.find? fun t => !t.isTrivia) = (skip ts).head? := by
  induction ts with
  | nil => rfl
  | cons t ts ih =>
    rw [List.find?_cons, skip_cons, ih]
    cases t.isTrivia <;> rfl

theorem skip_map_bare (ts : List Token) : skip (ts.map bare) = (skip ts).map bare := by
  induction ts with
  | nil => rfl
  | cons t ts ih =>
    rw [List.map_cons, skip_cons, skip_cons, bare_isTrivia, ih]
    split <;> rfl

end Token

theorem Token.isEnd_of_terminal {terminal : Terminal} (h : t.terminal = terminal) (hne : terminal ≠ .endOfFile) :
    t.isEnd = false := by
  rw [Token.isEnd_eq, h]
  exact beq_eq_false_iff_ne.mpr hne

namespace Parser.Holds

variable {d : Dialect} {p : Parser} {ts : List Token}

open Token (skip next)

theorem peek (h : p.Holds d ts) : p.peek.bare = Token.peek ts := by
  rw [← h.tokens, Token.peek, Token.skip_map_bare, Parser.peek, Token.find?_not_trivia]
  cases skip p.tokens <;> rfl

theorem next (h : p.Holds d ts) : p.peek.terminal = Token.next ts := by
  rw [← Token.terminal_peek, ← h.peek, Token.bare_terminal]

theorem sees (h : p.Holds d ts) (t : Terminal) : p.sees t = (Token.next ts == t) := by
  rw [Parser.sees, h.next]

theorem front (h : p.Holds d ts) : p.front.bare = ts.head?.getD .endOfFile := by
  rw [← h.tokens, Parser.front]
  cases p.tokens <;> rfl

theorem length (h : p.Holds d ts) : p.tokens.length = ts.length := by
  rw [← h.tokens, List.length_map]

theorem of_eq {q : Parser} (h : p.Holds d ts) (hk : q.keywords = p.keywords)
    (hm : q.matching = p.matching) (ht : q.tokens = p.tokens) : q.Holds d ts :=
  ⟨hk.trans h.keywords, hm.trans h.matching, ht ▸ h.tokens⟩

end Parser.Holds

/-! ## Ending well -/

/-- **Reading ends well**: it is done, leaves the given tokens, and its result is as it should be. -/
def Gives {α : Type} (d : Dialect) (x : Parse α) (ts : List Token) (P : α → Prop) (rest : List Token) : Prop :=
  ∀ p : Parser, p.Holds d ts → ∃ a q, x p = .done a q ∧ q.Holds d rest ∧ P a

namespace Gives

variable {α β : Type} {d : Dialect} {ts mid rest : List Token} {P : α → Prop} {Q : β → Prop} {x : Parse α}

theorem pure {a : α} (h : P a) : Gives d (pure a) ts P ts :=
  fun p hp => ⟨a, p, rfl, hp, h⟩

theorem bind {f : α → Parse β} (hx : Gives d x ts P mid) (hf : ∀ a, P a → Gives d (f a) mid Q rest) :
    Gives d (x >>= f) ts Q rest := by
  intro p hp
  obtain ⟨a, q, hdone, hq, ha⟩ := hx p hp
  obtain ⟨b, r, hb, hr, hQ⟩ := hf a ha q hq
  refine ⟨b, r, ?_, hr, hQ⟩
  rw [Action.bind_apply, hdone]
  exact hb

theorem imp {P' : α → Prop} (h : Gives d x ts P rest) (hP : ∀ a, P a → P' a) : Gives d x ts P' rest := by
  intro p hp
  obtain ⟨a, q, hdone, hq, ha⟩ := h p hp
  exact ⟨a, q, hdone, hq, hP a ha⟩

theorem bind_pure {f : α → β} (hx : Gives d x ts P rest) (hf : ∀ a, P a → Q (f a)) :
    Gives d (x >>= fun a => Pure.pure (f a)) ts Q rest :=
  bind hx fun a ha => pure (hf a ha)

theorem peek {f : Token → Parse β}
    (hf : ∀ t : Token, t.bare = Token.peek ts → Gives d (f t) ts Q rest) :
    Gives d (Action.read Parser.peek >>= f) ts Q rest :=
  fun p hp => hf p.peek hp.peek p hp

theorem front {f : Token → Parse β}
    (hf : ∀ t : Token, t.bare = ts.head?.getD .endOfFile → Gives d (f t) ts Q rest) :
    Gives d (Action.read Parser.front >>= f) ts Q rest :=
  fun p hp => hf p.front hp.front p hp

theorem sees {t : Terminal} {f : Bool → Parse β}
    (hf : Gives d (f (Token.next ts == t)) ts Q rest) : Gives d (Parse.sees t >>= f) ts Q rest := by
  intro p hp
  rw [← hp.sees t] at hf
  exact hf p hp

theorem matching {f : MatchMode → Parse β} (hf : Gives d (f d.matching) ts Q rest) :
    Gives d (Action.read Parser.matching >>= f) ts Q rest := by
  intro p hp
  rw [← hp.matching] at hf
  exact hf p hp

theorem read {γ : Type} {g : Parser → γ} {f : γ → Parse β}
    (hf : ∀ c, Gives d (f c) ts Q rest) : Gives d (Action.read g >>= f) ts Q rest :=
  fun p hp => hf (g p) p hp

theorem freshId : Gives d Parse.freshId ts (fun _ => True) ts :=
  fun _ hp => ⟨_, _, rfl, hp.of_eq rfl rfl rfl, trivial⟩

theorem advance (h : Token.skip ts = t :: rest) (hend : t.isEnd = false) :
    Gives d Parse.advance ts (·.bare = t) rest := by
  intro p hp
  have htokens := hp.tokens
  rw [← htokens, Token.skip_map_bare] at h
  obtain ⟨u, others, hskip, rfl, hothers⟩ := List.map_eq_cons_iff.mp h
  refine ⟨u, { p with tokens := others, lastSpan := u.span }, ?_,
    ⟨hp.keywords, hp.matching, hothers⟩, rfl⟩
  have hdrop : p.tokens.dropWhile (·.isTrivia) = u :: others := hskip
  rw [Token.bare_isEnd] at hend
  simp only [Parse.advance, hdrop, hend]
  rfl

theorem advance_end (h : Token.next ts = .endOfFile) :
    Gives d Parse.advance ts (·.bare = .endOfFile) (Token.skip ts) := by
  intro p hp
  have hskip : Token.skip ts = (p.tokens.dropWhile (·.isTrivia)).map Token.bare := by
    rw [← hp.tokens]
    exact Token.skip_map_bare p.tokens
  rw [Token.next, hskip] at h
  simp only [Parse.advance]
  cases hrest : p.tokens.dropWhile (·.isTrivia) with
  | nil =>
    rw [hrest] at hskip
    exact ⟨_, _, rfl, ⟨hp.keywords, hp.matching, hskip.symm⟩, rfl⟩
  | cons t others =>
    rw [hrest] at h hskip
    have hend : t.isEnd = true := by
      rw [Token.isEnd_eq]
      simpa using h
    simp only [hend, if_true]
    exact ⟨_, _, rfl, ⟨hp.keywords, hp.matching, hskip.symm⟩, rfl⟩

section

variable {f : Option Token → Parse β} {g : Bool → Parse β} {t : Token} {wanted : Terminal} {final : List Token}

theorem accept?_some (htrivia : t.isTrivia = false) (ht : t.terminal = wanted) (hne : wanted ≠ .endOfFile)
    (hf : ∀ u, Gives d (f (some u)) rest Q final) : Gives d (Parse.accept? wanted >>= f) (t :: rest) Q final := by
  have hskip := Token.skip_cons_of_not_trivia htrivia rest
  have haccept : Gives d (Parse.accept? wanted) (t :: rest) (fun o => ∃ u, o = some u) rest := by
    refine sees ?_
    rw [Token.next_eq_of_skip hskip, ht, beq_self_eq_true]
    exact bind_pure (advance hskip (Token.isEnd_of_terminal ht hne)) fun u _ => ⟨u, rfl⟩
  refine bind haccept ?_
  rintro _ ⟨u, rfl⟩
  exact hf u

theorem accept?_none (h : Token.next ts ≠ wanted) (hf : Gives d (f none) ts Q rest) :
    Gives d (Parse.accept? wanted >>= f) ts Q rest := by
  have haccept : Gives d (Parse.accept? wanted) ts (· = none) ts := by
    refine sees ?_
    rw [beq_eq_false_iff_ne.mpr h]
    exact pure rfl
  refine bind haccept ?_
  rintro _ rfl
  exact hf

theorem accept_true (htrivia : t.isTrivia = false) (ht : t.terminal = wanted) (hne : wanted ≠ .endOfFile)
    (hg : Gives d (g true) rest Q final) : Gives d (Parse.accept wanted >>= g) (t :: rest) Q final := by
  refine bind (accept?_some htrivia ht hne (Q := (· = true)) fun u => pure rfl) ?_
  rintro _ rfl
  exact hg

theorem accept_false (h : Token.next ts ≠ wanted) (hg : Gives d (g false) ts Q rest) :
    Gives d (Parse.accept wanted >>= g) ts Q rest := by
  refine bind (accept?_none h (Q := (· = false)) (pure rfl)) ?_
  rintro _ rfl
  exact hg

end

theorem seek (h : Token.skip ts = t :: rest) (hend : t.isEnd = false) (what : String) (limit : Nat) :
    Gives d (Parse.seek t.terminal what limit) ts (·.bare = t) rest := by
  cases limit with
  | zero =>
    refine sees ?_
    rw [Token.next_eq_of_skip h, beq_self_eq_true]
    exact advance h hend
  | succ limit =>
    refine sees ?_
    rw [Token.next_eq_of_skip h, beq_self_eq_true]
    exact advance h hend

theorem expect (h : Token.skip ts = t :: rest) (hend : t.isEnd = false) (what : String) :
    Gives d (Parse.expect t.terminal what) ts (·.bare = t) rest := by
  refine read fun matching => ?_
  cases matching with
  | strict =>
    refine sees ?_
    rw [Token.next_eq_of_skip h, beq_self_eq_true]
    exact advance h hend
  | lenient limit => exact seek h hend what limit

end Gives

/-! ## Repeated rounds -/

/-- **A repetition ends well**, if it may go on for as many rounds as there are tokens. -/
def Loops {α β : Type} (d : Dialect) (round : α → Parse (Parse.Round α β)) (a : α)
    (ts : List Token) (P : β → Prop) (rest : List Token) : Prop :=
  ∀ bound : List Token, ts.length < bound.length →
    Gives d (Parse.repeatRound round bound a) ts P rest

namespace Loops

variable {α β : Type} {d : Dialect} {ts mid rest : List Token} {P : β → Prop} {Q : α → Prop}
  {round : α → Parse (Parse.Round α β)} {a : α}

theorem stop (h : Gives d (round a) ts (fun r => ∃ b, r = .stop b ∧ P b) rest) : Loops d round a ts P rest := by
  intro bound hbound
  cases bound with
  | nil => exact absurd hbound (Nat.not_lt_zero _)
  | cons _ bound =>
    refine .bind h ?_
    rintro _ ⟨b, rfl, hb⟩
    exact .pure hb

theorem again (h : Gives d (round a) ts (fun r => ∃ a', r = .again a' ∧ Q a') mid)
    (hmid : mid.length < ts.length)
    (hloop : ∀ a', Q a' → Loops d round a' mid P rest) : Loops d round a ts P rest := by
  intro bound hbound
  cases bound with
  | nil => exact absurd hbound (Nat.not_lt_zero _)
  | cons _ bound =>
    refine .bind h ?_
    rintro _ ⟨a', rfl, ha'⟩
    exact hloop a' ha' bound (Nat.lt_of_lt_of_le hmid (Nat.le_of_lt_succ hbound))

theorem rounds (h : Loops d round a ts P rest) : Gives d (Parse.rounds round a) ts P rest := by
  intro p hp
  refine h (p.endMark :: p.tokens) ?_ p hp
  rw [List.length_cons, hp.length]
  exact Nat.lt_succ_self _

end Loops

end Trellis
