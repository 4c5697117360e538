import Trellis.Proofs.Grammar.Gives

/-!
# What reading tells

When a production is done on some tokens, something is known of the tokens it left and of its result. This module
has the rules by which that is found out (`Tells`). What a production leaves is always the end of what it was given.

A token that has to be there may be found behind others that are discarded, so what is known of it is said in terms
of reading itself: on the same tokens, the same is found again (`Parse.Found`).
-/

namespace Trellis

open Token (skip next)

/-- **What is known when reading is done**: something holds of the tokens that are left and of the
result. -/
def Tells {α : Type} (d : Dialect) (x : Parse α) (ts : List Token) (P : List Token → α → Prop) : Prop :=
  ∀ (p : Parser) (a : α) (q : Parser), p.Holds d ts → x p = .done a q →
    ∃ rest, q.Holds d rest ∧ rest <:+ ts ∧ P rest a

variable {what : String}

namespace Tells

variable {α β : Type} {d : Dialect} {ts : List Token} {P : List Token → α → Prop}
  {Q : List Token → β → Prop} {x : Parse α}

theorem pure {a : α} (h : P ts a) : Tells d (pure a) ts P := by
  rintro p _ _ hp ⟨⟩
  exact ⟨ts, hp, List.suffix_rfl, h⟩

theorem bind {f : α → Parse β} (hx : Tells d x ts P) (hf : ∀ mid a, mid <:+ ts → P mid a → Tells d (f a) mid Q) :
    Tells d (x >>= f) ts Q := by
  intro p b r hp h
  obtain ⟨a, q, ha, hb⟩ := Action.done_bind h
  obtain ⟨mid, hq, hmid, hP⟩ := hx p a q hp ha
  obtain ⟨rest, hr, hrest, hQ⟩ := hf mid a hmid hP q b r hq hb
  exact ⟨rest, hr, hrest.trans hmid, hQ⟩

theorem imp {P' : List Token → α → Prop} (h : Tells d x ts P) (hP : ∀ rest a, rest <:+ ts → P rest a → P' rest a) :
    Tells d x ts P' := by
  intro p a q hp hdone
  obtain ⟨rest, hq, hrest, ha⟩ := h p a q hp hdone
  exact ⟨rest, hq, hrest, hP rest a hrest ha⟩

theorem bind_pure {f : α → β} (hx : Tells d x ts P) (hf : ∀ rest a, rest <:+ ts → P rest a → Q rest (f a)) :
    Tells d (x >>= fun a => Pure.pure (f a)) ts Q :=
  bind hx fun mid a hmid ha => pure (hf mid a hmid ha)

theorem never (h : ∀ p a q, x p ≠ .done a q) : Tells d x ts P :=
  fun p a q _ hdone => absurd hdone (h p a q)

theorem exhaust : Tells d Action.exhaust ts P :=
  never fun _ _ _ h => nomatch h

theorem fail {cause : Cause} {span : Span} : Tells d (Parse.fail cause span : Parse α) ts P :=
  never fun _ _ _ h => nomatch h

theorem failExpected : Tells d (Parse.failExpected what : Parse α) ts P :=
  never fun _ _ _ h => nomatch h

theorem peek {f : Token → Parse β}
    (hf : ∀ t : Token, t.bare = Token.peek ts → Tells d (f t) ts Q) :
    Tells d (Action.read Parser.peek >>= f) ts Q :=
  fun p b r hp h => hf p.peek hp.peek p b r hp h

theorem front {f : Token → Parse β}
    (hf : ∀ t : Token, t.bare = ts.head?.getD .endOfFile → Tells d (f t) ts Q) :
    Tells d (Action.read Parser.front >>= f) ts Q :=
  fun p b r hp h => hf p.front hp.front p b r hp h

theorem sees {t : Terminal} {f : Bool → Parse β} (hf : Tells d (f (next ts == t)) ts Q) :
    Tells d (Parse.sees t >>= f) ts Q := by
  intro p b r hp h
  rw [← hp.sees t] at hf
  exact hf p b r hp h

theorem read {γ : Type} {g : Parser → γ} {f : γ → Parse β} (hf : ∀ c, Tells d (f c) ts Q) :
    Tells d (Action.read g >>= f) ts Q :=
  fun p b r hp h => hf (g p) p b r hp h

theorem freshId : Tells d Parse.freshId ts (fun rest _ => rest = ts) := by
  rintro p _ _ hp ⟨⟩
  exact ⟨ts, hp.of_eq rfl rfl rfl, List.suffix_rfl, rfl⟩

end Tells

/-! ## Taking tokens -/

/-- What is known of a token that was taken: it was the next one, or the mark of the end, which stays. -/
def Parse.Advanced (ts rest : List Token) (t : Token) : Prop :=
  (t.isEnd = false ∧ skip ts = t.bare :: rest) ∨
    (t.bare = .endOfFile ∧ next ts = .endOfFile ∧ rest = skip ts)

variable {ts : List Token} {d : Dialect}

theorem Tells.advance : Tells d Parse.advance ts (Parse.Advanced ts) := by
  intro p a q hp h
  have hskip : skip ts = (p.tokens.dropWhile (·.isTrivia)).map Token.bare := by
    rw [← hp.tokens]
    exact Token.skip_map_bare p.tokens
  unfold Parse.advance at h
  cases hrest : p.tokens.dropWhile (·.isTrivia) with
  | nil =>
    rw [hrest] at h hskip
    cases h
    refine ⟨[], ⟨hp.keywords, hp.matching, rfl⟩, List.nil_suffix, .inr ⟨rfl, ?_, hskip.symm⟩⟩
    rw [next, hskip]
    rfl
  | cons t others =>
    rw [hrest] at h hskip
    simp only at h
    cases hend : t.isEnd with
    | true =>
      rw [hend] at h
      cases h
      refine ⟨skip ts, ⟨hp.keywords, hp.matching, hskip.symm⟩, Token.skip_suffix ts,
        .inr ⟨rfl, ?_, rfl⟩⟩
      rw [next, hskip]
      simpa [Token.isEnd_eq] using hend
    | false =>
      rw [hend] at h
      cases h
      exact ⟨others.map Token.bare, ⟨hp.keywords, hp.matching, rfl⟩, Token.suffix_of_skip hskip,
        .inl ⟨hend, hskip⟩⟩

theorem Tells.accept? {wanted : Terminal} :
    Tells d (Parse.accept? wanted) ts fun rest o =>
      (o = none ∧ rest = ts ∧ next ts ≠ wanted) ∨
        ∃ t, o = some t ∧ next ts = wanted ∧ Parse.Advanced ts rest t := by
  refine .sees ?_
  cases hnext : next ts == wanted with
  | true =>
    exact .bind_pure .advance fun _ t _ ht => .inr ⟨t, rfl, beq_iff_eq.mp hnext, ht⟩
  | false => exact .pure (.inl ⟨rfl, rfl, beq_eq_false_iff_ne.mp hnext⟩)

theorem Tells.accept {wanted : Terminal} :
    Tells d (Parse.accept wanted) ts fun rest found =>
      (found = false ∧ rest = ts ∧ next ts ≠ wanted) ∨
        ∃ t, found = true ∧ next ts = wanted ∧ Parse.Advanced ts rest t := by
  refine .bind_pure .accept? fun rest o _ ho => ?_
  rcases ho with ⟨rfl, hrest, hnext⟩ | ⟨t, rfl, hnext, ht⟩
  · exact .inl ⟨rfl, hrest, hnext⟩
  · exact .inr ⟨t, rfl, hnext, ht⟩

/-- **What a repetition tells.** `Q` relates the tokens and the value that rounds start from with those
that they end with. A round that stops gives it, and a round that asks for another one carries it over. -/
theorem Tells.rounds {α β : Type} {round : α → Parse (Parse.Round α β)} {Q : List Token → α → List Token → β → Prop}
    (h : ∀ mid a, mid <:+ ts → Tells d (round a) mid fun rest r =>
      (∃ b, r = .stop b ∧ Q mid a rest b) ∨ ∃ a', r = .again a' ∧ ∀ final b, final <:+ rest → Q rest a' final b → Q mid a final b)
    (a : α) : Tells d (Parse.rounds round a) ts (Q ts a) := by
  have hrepeat : ∀ (bound : List Token) mid a, mid <:+ ts →
      Tells d (Parse.repeatRound round bound a) mid (Q mid a) := by
    intro bound
    induction bound with
    | nil => exact fun _ _ _ => .exhaust
    | cons _ bound ih =>
      intro mid a hmid
      refine .bind (h mid a hmid) fun rest r hrest hr => ?_
      rcases hr with ⟨b, rfl, hb⟩ | ⟨a', rfl, hcarry⟩
      · exact .pure hb
      · exact (ih rest a' (hrest.trans hmid)).imp hcarry
  exact fun p b q hp hdone => hrepeat _ ts a List.suffix_rfl p b q hp hdone

namespace Parse

/-- **What is known of a token that was found**: it is of the kind that was wanted, it is found again, and
if it is no mark of the end, it is gone. -/
structure Found (d : Dialect) (x : String → Parse Token) (wanted : Terminal)
    (ts rest : List Token) (t : Token) : Prop where
  terminal : t.terminal = wanted
  gives : ∀ what, Gives d (x what) ts (·.bare = t.bare) rest
  shorter : wanted ≠ .endOfFile → rest.length < ts.length
  mem : wanted ≠ .endOfFile → t.bare ∈ ts

abbrev Took (d : Dialect) (wanted : Terminal) (ts rest : List Token) (t : Token) : Prop :=
  Found d (Parse.expect wanted) wanted ts rest t

abbrev Sought (d : Dialect) (wanted : Terminal) (limit : Nat) (ts rest : List Token) (t : Token) : Prop :=
  Found d (fun what => Parse.seek wanted what limit) wanted ts rest t

section

variable {d : Dialect} {ts rest : List Token} {t : Token} (h : Advanced ts rest t)

include h

theorem Advanced.gives : Gives d Parse.advance ts (·.bare = t.bare) rest := by
  rcases h with ⟨hend, hskip⟩ | ⟨hbare, hnext, rfl⟩
  · exact .advance hskip hend
  · rw [hbare]
    exact .advance_end hnext

theorem Advanced.terminal : t.terminal = next ts := by
  rcases h with ⟨_, hskip⟩ | ⟨hbare, hnext, _⟩
  · exact (Token.next_eq_of_skip hskip).symm
  · rw [hnext]
    exact congrArg Token.terminal hbare

theorem Advanced.skip (hne : next ts ≠ .endOfFile) : skip ts = t.bare :: rest := by
  rcases h with ⟨_, hskip⟩ | ⟨_, hnext, _⟩
  · exact hskip
  · exact absurd hnext hne

theorem Advanced.shorter (hne : next ts ≠ .endOfFile) : rest.length < ts.length :=
  Token.length_lt_of_skip (h.skip hne)

theorem Advanced.mem (hne : next ts ≠ .endOfFile) : t.bare ∈ ts :=
  (Token.skip_suffix ts).subset (h.skip hne ▸ List.mem_cons_self)

theorem Advanced.sought {terminal : Terminal} {limit : Nat} (hnext : next ts = terminal) :
    Sought d terminal limit ts rest t := by
  refine ⟨h.terminal.trans hnext, fun what => ?_, fun hne => h.shorter (hnext ▸ hne),
    fun hne => h.mem (hnext ▸ hne)⟩
  cases limit with
  | zero =>
    refine .sees ?_
    rw [hnext, beq_self_eq_true]
    exact h.gives
  | succ limit =>
    refine .sees ?_
    rw [hnext, beq_self_eq_true]
    exact h.gives

end

theorem tells_seek {terminal : Terminal} {limit : Nat} :
    Tells d (Parse.seek terminal what limit) ts (Sought d terminal limit ts) := by
  induction limit generalizing ts with
  | zero =>
    refine .sees ?_
    cases hnext : next ts == terminal with
    | true => exact Tells.advance.imp fun _ _ _ h => h.sought (beq_iff_eq.mp hnext)
    | false => exact .failExpected
  | succ limit ih =>
    refine .sees ?_
    cases hnext : next ts == terminal with
    | true => exact Tells.advance.imp fun _ _ _ h => h.sought (beq_iff_eq.mp hnext)
    | false =>
      refine .sees ?_
      cases hend : next ts == .endOfFile with
      | true => exact .failExpected
      | false =>
        -- One token is discarded, and the rest is a search with a smaller limit.
        refine .bind .advance fun mid t hmid ht => ih.imp fun rest u _ hu => ?_
        refine ⟨hu.terminal, fun what => ?_, fun hne => ?_, fun hne => hmid.subset (hu.mem hne)⟩
        · refine .sees ?_
          rw [hnext]
          refine .sees ?_
          rw [hend]
          exact .bind ht.gives fun _ _ => hu.gives what
        · exact Nat.lt_of_lt_of_le (hu.shorter hne) hmid.length_le

theorem tells_expect {terminal : Terminal} : Tells d (Parse.expect terminal what) ts (Took d terminal ts) := by
  intro p t q hp h
  have hmatch := hp.matching
  cases hm : d.matching with
  | strict =>
    have hread : Parse.expect terminal what p
        = (do if ← Parse.sees terminal then Parse.advance else Parse.failExpected what : Parse Token) p := by
      unfold Parse.expect
      rw [Action.bind_apply, Action.read_apply]
      simp only [hmatch, hm]
    rw [hread] at h
    refine Tells.sees ?_ p t q hp h
    cases hnext : next ts == terminal with
    | false => exact Tells.failExpected
    | true =>
      refine Tells.advance.imp fun rest u _ hu => ?_
      have hterminal := beq_iff_eq.mp hnext
      refine ⟨hu.terminal.trans hterminal, fun what => .matching ?_,
        fun hne => hu.shorter (hterminal ▸ hne), fun hne => hu.mem (hterminal ▸ hne)⟩
      rw [hm]
      refine .sees ?_
      rw [hnext]
      exact hu.gives
  | lenient limit =>
    have hread : Parse.expect terminal what p = Parse.seek terminal what limit p := by
      unfold Parse.expect
      rw [Action.bind_apply, Action.read_apply]
      simp only [hmatch, hm]
    rw [hread] at h
    refine tells_seek.imp (fun rest u _ hu => ?_) p t q hp h
    refine ⟨hu.terminal, fun what => .matching ?_, hu.shorter, hu.mem⟩
    rw [hm]
    exact hu.gives what

end Parse

end Trellis
