import Trellis.Proofs.Grammar.Ends

/-!
# Reading does not depend on places

A place is carried from a token to the tree that is made of it, and nothing else is done with it. So two parsers
whose tokens differ in their places only make trees that differ in their places and identities only. The first
reading may go to any depth, and the second one goes back to the rules that are tied without a depth
(`Rules.placed_ofDepth`).

This is what makes a slot of a template readable again (`Parse.whole_again`).
-/

namespace Trellis

/-! ## The kinship of bare trees -/

def Kin.bare : Kin where
  token _ := True
  span _ _ := True
  ident i i' := i'.bare = i.bare
  id _ _ := True
  expr e e' := e'.bare .all = e.bare .all
  block b b' := b'.bare .all = b.bare .all
  stmt s s' := s'.bare .all = s.bare .all

def Change.bare : Change :=
  ⟨fun _ => {}, Ident.bare, Expr.bare .all, Block.bare .all, Stmt.bare .all⟩

theorem ExprForm.bare_eq (form : ExprForm) : form.bare .all = form.change .bare := by
  cases form <;> simp only [bare, change, Blanks.within_all, Expr.bareOperand_all, Expr.bareOf_eq,
    TemplatePart.bareOf_eq, Property.bareOf_eq, Case.bareOf_eq, Continuation.bareOf_eq] <;> rfl

theorem StmtForm.bare_eq (form : StmtForm) : form.bare .all = form.change .bare := by
  cases form with
  | branch condition consequent alternate =>
    cases alternate with
    | none => rfl
    | some alternate => cases alternate <;> rfl
  | give value => cases value <;> rfl
  | _ => rfl

theorem Kin.meets_bare : Kin.bare.Meets .bare .bare :=
  ⟨fun _ => rfl, fun h => h, fun h => h, fun h => h, fun h => h⟩

def Kinship.bare : Kinship where
  toKin := .bare
  word _ _ _ := rfl
  ofForm _ h := congrArg (Expr.mk {}) (by rw [ExprForm.bare_eq, ExprForm.bare_eq, Kin.meets_bare.form h])
  ofStmt _ _ h := congrArg (Stmt.mk 0 {}) (by rw [StmtForm.bare_eq, StmtForm.bare_eq, Kin.meets_bare.stmtForm h])
  expr_span _ := trivial
  isCall {e e'} h := by
    have hform := congrArg Expr.form h
    rw [Expr.bare_form, Expr.bare_form] at hform
    rw [← ExprForm.isCall_bare .all, hform, ExprForm.isCall_bare]
  isTarget {e e'} h := by
    have hform := congrArg Expr.form h
    rw [Expr.bare_form, Expr.bare_form] at hform
    rw [← ExprForm.isTarget_bare .all, hform, ExprForm.isTarget_bare]
  endsInGive {b b'} h := by rw [← Block.endsInGive_bare .all, show _ = _ from h, Block.endsInGive_bare]

/-! ## Parsers whose tokens differ in places -/

theorem Token.placed_of_bare {t t' : Token} (h : t'.bare = t.bare) : Kinship.bare.Placed t t' :=
  ⟨trivial, by rw [Token.bare, Token.bare] at h; rw [Token.mk.injEq] at h ⊢; exact ⟨h.1, h.2.1, rfl⟩⟩

structure Parser.Placed (p p' : Parser) : Prop where
  keywords : p'.keywords = p.keywords
  matching : p'.matching = p.matching
  tokens : p'.tokens.map Token.bare = p.tokens.map Token.bare
  /-- The logs show faults of the same cause. -/
  log : ∀ {f f' : Fault}, f'.cause = f.cause → (p'.log.surface f').cause = (p.log.surface f).cause

namespace Parser.Placed

variable {p p' : Parser}

theorem holds (h : p.Placed p') : ∃ d ts, p.Holds d ts ∧ p'.Holds d ts :=
  ⟨⟨p.keywords, p.matching⟩, _, ⟨rfl, rfl, rfl⟩, h.keywords, h.matching, h.tokens⟩

theorem of_holds {d : Dialect} {ts : List Token} (h : p.Holds d ts) (h' : p'.Holds d ts)
    (log : ∀ {f f' : Fault}, f'.cause = f.cause → (p'.log.surface f').cause = (p.log.surface f).cause) : p.Placed p' :=
  ⟨h'.keywords.trans h.keywords.symm, h'.matching.trans h.matching.symm, h'.tokens.trans h.tokens.symm, log⟩

theorem advance (h : p.Placed p') : ∃ t q t' q', Parse.advance p = .done t q ∧ Parse.advance p' = .done t' q' ∧
    t'.bare = t.bare ∧ q.Placed q' := by
  obtain ⟨d, ts, hp, hp'⟩ := h.holds
  have hgives : ∃ u rest, Gives d Parse.advance ts (·.bare = u) rest := by
    by_cases hnext : Token.next ts = .endOfFile
    · exact ⟨_, _, .advance_end hnext⟩
    · obtain ⟨t, rest, hskip, ht⟩ := Token.exists_skip_of_next rfl hnext
      exact ⟨t, rest, .advance hskip (Token.isEnd_of_terminal ht hnext)⟩
  obtain ⟨u, rest, hgives⟩ := hgives
  obtain ⟨t, q, hread, hq, ht⟩ := hgives p hp
  obtain ⟨t', q', hread', hq', ht'⟩ := hgives p' hp'
  refine ⟨t, q, t', q', hread, hread', ht'.trans ht.symm, .of_holds hq hq' ?_⟩
  rw [Parse.log_advance hread, Parse.log_advance hread']
  exact h.log

end Parser.Placed

/-- **Two readings are stopped**, and the faults that they show are of the same cause, unless the first one is
exhausted. -/
def Outcome.StopsAlike {α : Type} : Outcome Parser α → Outcome Parser α → Prop
  | .done _ _, _ => False
  | .failed fault q, o => ∃ fault' q', o = .failed fault' q' ∧ (q'.log.surface fault').cause = (q.log.surface fault).cause
  | .exhausted, _ => True

/-- **A reading and one of the same tokens at other places.** -/
def Parse.Pace.placed : Pace .bare where
  abreast _ p p' := p.Placed p'
  stopped := Outcome.StopsAlike
  weaken h := h
  peek h := by
    obtain ⟨d, ts, hp, hp'⟩ := h.holds
    exact Token.placed_of_bare (hp'.peek.trans hp.peek.symm)
  second h := by
    have hsecond (p : Parser) : p.peekSecond.terminal = Token.next (Token.skip (p.tokens.map Token.bare)).tail := by
      rw [Parser.peekSecond_eq, Token.skip_map_bare, ← List.map_tail, Token.next, Token.skip_map_bare]
      cases Token.skip (Token.skip p.tokens).tail <;> rfl
    rw [hsecond, hsecond, h.tokens]
  token _ := trivial
  advance h _ := by
    obtain ⟨t, q, t', q', hread, hread', ht, hq⟩ := h.advance
    exact ⟨t, q, t', q', hread, hread', Token.placed_of_bare ht, hq, fun _ => hq⟩
  limit h := by
    rw [h.matching]
    exact ⟨Nat.le_refl _, .inl rfl⟩
  freshId h := ⟨trivial, { h with }⟩
  fail h _ _ _ _ _ _ := ⟨_, _, rfl, by rw [FaultLog.surface_record, FaultLog.surface_record]; exact h.log rfl⟩
  bind {α β x x' p p'} h y y' := by
    rw [Action.bind_apply, Action.bind_apply]
    cases hread : x p with
    | done a q =>
      rw [hread] at h
      exact h.elim
    | failed fault q =>
      rw [hread] at h
      obtain ⟨fault', q', hread', hcause⟩ := h
      exact ⟨fault', q', by rw [hread'], hcause⟩
    | exhausted => trivial
  bounded := .inl fun _ => trivial

theorem Parse.Pace.level_placed : placed.Level where
  front h := by
    obtain ⟨d, ts, hp, hp'⟩ := h.holds
    exact Token.placed_of_bare (hp'.front.trans hp.front.symm)
  lastSpan _ := trivial
  pastTrivia h _ := by
    refine { h with tokens := ?_ }
    show (List.drop 1 _).map _ = (List.drop 1 _).map _
    rw [List.map_drop, h.tokens, List.map_drop]
  trivia t _ _ := rfl
  block _ _ hbody := by
    show Block.bare .all _ = Block.bare .all _
    rw [Block.bare, Block.bare, Stmt.bareOf_all, Stmt.bareOf_all, map_eq_of_forall₂ (fun h => h) hbody]
  exposed _ _ h _ := congrArg (fun s => Stmt.mk 0 {} (.expose s)) h
  declares {s s'} h := by
    refine ⟨?_, trivial⟩
    have hform := congrArg Stmt.form h
    rw [Stmt.bare_form, Stmt.bare_form] at hform
    rw [← StmtForm.isSome_declaredName?_bare .all, hform, StmtForm.isSome_declaredName?_bare]

theorem Rules.placed_ofDepth (depth : Nat) : (ofDepth depth).Keeps .placed tied ∧ ∀ m,
    Parse.Keeps .placed m true .fresh Kin.bare.stmt (fun _ => .passed) (ofDepth depth).statement tied.statement := by
  -- a slot is read by parsers of its own, whose tokens are at other places again
  have hslot {r : Rules} (h : ∀ m, Parse.Keeps .placed m true .fresh Kin.bare.expr (fun _ => .taken) r.expression
      tied.expression) (m : Nat) (text text' : Span) (source : String) (offset : Nat) :
      Parse.Keeps .placed m true .fresh Kin.bare.expr (fun _ => .fresh) (Parse.slot r text source offset)
        (Parse.slot tied text' source offset) := by
    refine .slot (fun _ => trivial) h (fun hp => hp.keywords) (fun hp => ?_) (fun hp _ => { hp with })
      fun {p p' o o'} hp h => ?_
    · refine ⟨hp.keywords, hp.matching, ?_, id⟩
      simp only [Parse.slotParser, Parser.ofTokens, Parse.slotTokens, List.map_map]
      rfl
    · cases o with
      | done e q => exact h
      | failed fault q =>
        obtain ⟨fault', q', rfl, hcause⟩ := h
        exact ⟨_, _, rfl, by rw [FaultLog.surface_record, FaultLog.surface_record]; exact hp.log hcause⟩
      | exhausted => trivial
  induction depth with
  | zero =>
    have hnever {α : Type} {s : Parse.Stage} {R : α → α → Prop} {b : α → Parse.Stage} {x' : Parse α} (m : Nat)
        (light : Bool) : Parse.Keeps .placed m light s R b Action.exhaust x' := fun _ _ _ _ _ _ => .inr trivial
    exact ⟨⟨fun t => by cases t <;> exact (hnever · true), (hnever · true),
      fun m _ _ _ _ source offset _ _ _ _ _ => hslot (hnever · true) m _ _ source offset,
      fun m _ _ => .blockUntil Parse.Pace.level_placed (hnever · true) _,
      fun m => .expose Parse.Pace.level_placed (hnever · true)⟩, (hnever · true)⟩
  | succ depth ih =>
    have hstatement (m : Nat) : Parse.Keeps .placed m true .fresh Kin.bare.stmt (fun _ => .passed)
        (ofDepth (depth + 1)).statement tied.statement := by
      rw [tied_statement]
      exact .statement Parse.Pace.level_placed ih.1
    have htier (t : Tier) (m : Nat) : Parse.Keeps .placed m true .fresh Kin.bare.expr (fun _ => .taken)
        ((ofDepth (depth + 1)).tier t) (tied.tier t) := by
      rw [tied_tier, tier_ofDepth]
      exact (Parse.Built.tier t).keeps ih.1 m
    refine ⟨⟨htier, fun m k p p' hk hp hs => ?_,
      fun m _ _ _ _ source offset _ _ _ _ _ => hslot (htier .expression) m _ _ source offset,
      fun m _ _ => .blockUntil Parse.Pace.level_placed hstatement _,
      fun m => .expose Parse.Pace.level_placed hstatement⟩, hstatement⟩
    rw [tied_branch ((Parse.Pace.placed.peek hp).terminal.trans hs.2)]
    exact Parse.Built.branch.keeps ih.1 m k p p' hk hp hs

theorem Parse.whole_placed {p p' : Parser} (h : p.Placed p') (n : Nat) :
    (Parse.whole (Rules.ofDepth n).expression p).Keeps .placed p'.tokens.length true Kin.bare.expr (fun _ => .taken)
      (Parse.whole Rules.tied.expression p') :=
  Keeps.whole ((Rules.placed_ofDepth n).1.tier .expression _) true p p' (fun _ => rfl) h (Nat.le_refl _)

/-- **An expression that was read is read again**, wherever its tokens stand and by any rules that go deep enough
for them. -/
theorem Parse.whole_again {d : Dialect} {ts : List Token} {p q : Parser} {e : Expr} {n depth : Nat}
    (hp : p.Holds d ts) (hread : Parse.whole (Rules.ofDepth n).expression p = .done e q)
    (hdepth : Token.weightOf ts < depth) {p' : Parser} (hp' : p'.Holds d ts) (hlog : p.log = {})
    (hlog' : p'.log = {}) :
    ∃ e' q', Parse.whole (Rules.ofDepth depth).expression p' = .done e' q' ∧ e'.bare .all = e.bare .all := by
  have hkeeps := whole_placed (.of_holds hp hp' fun h => by rw [hlog, hlog']; exact h) n
  have hweight : p'.weight < depth := by
    rwa [Parser.weight_eq, ← Token.weightOf_map_bare, hp'.tokens]
  have hends := Keeps.whole ((Rules.ends_tied depth).tier .expression _) true p' p' (fun _ => rfl)
    ⟨rfl, Nat.le_of_lt hweight, fun _ => hweight⟩ (Nat.le_refl p'.tokens.length)
  rw [hread] at hkeeps
  rcases hkeeps with ⟨_, _, e', q', ⟨⟩, hdone', he, -⟩ | hstopped
  · exact ⟨e', q', (Pace.equal.eq hends fun _ _ => id).symm.trans hdone', he⟩
  · exact hstopped.elim

end Trellis
