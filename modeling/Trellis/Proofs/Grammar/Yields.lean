import Trellis.Proofs.Grammar.Pace
import Trellis.Proofs.Script.Nodes

/-!
# What the grammar yields, node by node

What is special about the trees that the grammar makes can mostly be told node by node. A node *is apt*
(`Node.isApt`) if it has only parts that it can have: what is assigned to can be assigned to, what is run is a call,
and so on. And the names in it are *drawn* from tokens, with the place of the token.

Both are a kinship of trees with themselves (`Kinship.grown`). What is known of the tokens beforehand is left open
(`Anchors`): it has to be known of the tokens in the slots of a template as well, and to tell what has to be known of
names.

An action *yields* something (`Parse.Yields`) if its value is of a kind with some other one whenever the tokens are
as they should be, and if the tokens that it leaves are so, too. Besides, it is honest about faults. What is built
of the pieces of the grammar yields what its kinship says (`Parse.Built.yields`).
-/

namespace Trellis

/-! ## What is told of nodes -/

def Pick.idents (p : Pick) : List Ident :=
  p.name :: p.called.toList

def ExprForm.idents (span : Span) : ExprForm → List Ident
  | literal _ => []
  | .name word => [⟨word, span⟩]
  | template _ _ => []
  | array _ => []
  | object _ => []
  | lambda params _ => params
  | negate _ => []
  | arithmetic _ _ _ => []
  | compare _ _ _ => []
  | equal _ _ _ => []
  | assign _ _ => []
  | conditional _ _ _ => []
  | range _ _ => []
  | call _ _ => []
  | member _ key => [key]
  | index _ _ => []
  | switch _ _ => []
  | run _ continuations => continuations.flatMap (·.params)
  | wait _ => []

def StmtForm.idents : StmtForm → List Ident
  | useModule _ called picks => called.toList ++ picks.flatMap Pick.idents
  | expose _ => []
  | declareTask name params _ => name :: params
  | declareFunction name params _ => name :: params
  | declare name _ _ => [name]
  | branch _ _ _ => []
  | loop key value _ _ => key :: value.toList
  | give _ => []
  | expression _ => []
  | comment _ => []
  | blankLine => []

def Node.idents : Node → List Ident
  | expr e => e.form.idents e.span
  | block _ => []
  | stmt s => s.form.idents

def ExprForm.isNamed (key : String) : ExprForm → Bool
  | .name word => word == key
  | _ => false

def Property.isApt (p : Property) : Bool :=
  !p.short || p.value.form.isNamed p.key

def Alternate.isApt : Alternate → Bool
  | block _ => true
  | branch s => s.form.isBranch

def ExprForm.isApt : ExprForm → Bool
  | template raw _ => Template.isTemplate raw
  | object properties => properties.all Property.isApt
  | assign target _ => target.form.isTarget
  | run started _ => started.form.isCall
  | _ => true

def StmtForm.isApt : StmtForm → Bool
  | expose declaration => declaration.form.declaredName?.isSome
  | branch _ _ alternate => alternate.all Alternate.isApt
  | _ => true

def Node.isApt : Node → Bool
  | expr e => e.form.isApt
  | block _ => true
  | stmt s => s.form.isApt

/-- **A node of a tree that the grammar makes**: it is apt, and its names are as they should be. -/
structure Node.Fits (I : Ident → Prop) (n : Node) : Prop where
  isApt : n.isApt = true
  idents : ∀ i ∈ n.idents, I i

def Node.Grown (I : Ident → Prop) (n : Node) : Prop :=
  ∀ k ∈ n.all, k.Fits I

/-- **What is known of the tokens**, also of those in slots, and what it tells of names. -/
structure Anchors (T : Token → Prop) (I : Ident → Prop) : Prop where
  word : ∀ {t : Token}, T t → t.terminal = .name ∨ t.kind.isKeyword = true → I ⟨t.lexeme, t.span⟩
  slot : ∀ {t : Token} {raw : String} {segments : List Template.Segment} {source : String} {offset : Nat},
    T t → t.kind = .text raw → Template.split raw = .ok segments → .slot source offset ∈ segments →
      ∀ keywords, ∀ u ∈ (scan keywords source).tokens, T { u with span := Parse.shiftSpan t.span offset u.span }

variable {span : Span} {α : Type} {id : NodeId}

namespace Node

variable {I : Ident → Prop}

theorem grown_iff {n : Node} : n.Grown I ↔ n.Fits I ∧ ∀ c ∈ n.parts, c.Grown I := by
  unfold Grown
  rw [all_eq, List.forall_mem_cons]
  refine and_congr_right fun _ => ?_
  simp only [List.mem_flatMap]
  exact ⟨fun h c hc k hk => h k ⟨c, hc, hk⟩, fun h k ⟨c, hc, hk⟩ => h c hc k hk⟩

theorem Grown.expr {form : ExprForm} (parts : ∀ c ∈ form.parts, c.Grown I) (isApt : form.isApt = true)
    (idents : ∀ i ∈ form.idents span, I i) : (Node.expr ⟨span, form⟩).Grown I :=
  grown_iff.mpr ⟨⟨isApt, idents⟩, parts⟩

theorem Grown.plain {form : ExprForm} (parts : ∀ c ∈ form.parts, c.Grown I) (isApt : form.isApt = true)
    (idents : form.idents span = []) : (Node.expr ⟨span, form⟩).Grown I :=
  .expr parts isApt (by rw [idents]; exact List.forall_mem_nil _)

theorem Grown.stmt {form : StmtForm} (parts : ∀ c ∈ form.parts, c.Grown I) (isApt : form.isApt = true)
    (idents : ∀ i ∈ form.idents, I i) : (Node.stmt ⟨id, span, form⟩).Grown I :=
  grown_iff.mpr ⟨⟨isApt, idents⟩, parts⟩

theorem Grown.block {body : List Stmt} (h : ∀ s ∈ body, (Node.stmt s).Grown I) :
    (Node.block ⟨id, span, body⟩).Grown I :=
  grown_iff.mpr ⟨⟨rfl, List.forall_mem_nil _⟩, List.forall_mem_map.mpr h⟩

end Node

/-! ## The kinship of nodes that fit -/

section

variable {T : Token → Prop} {I : Ident → Prop} {P : α → Prop}

def Kin.grown (T : Token → Prop) (I : Ident → Prop) : Kin where
  token t := t.isEnd = false → T t
  span := Eq
  ident i i' := i = i' ∧ I i
  id := Eq
  expr e e' := e = e' ∧ (Node.expr e).Grown I
  block b b' := b = b' ∧ (Node.block b).Grown I
  stmt s s' := s = s' ∧ (Node.stmt s).Grown I

theorem Kin.isSame_grown : (Kin.grown T I).IsSame :=
  ⟨Eq.symm, fun h => h.1.symm, fun h => h.1.symm, fun h => h.1.symm, fun h => h.1.symm⟩

theorem forall_of_forall₂ {R : α → α → Prop} {as as' : List α} (h : List.Forall₂ R as as')
    (hR : ∀ {a a'}, R a a' → P a) : ∀ a ∈ as, P a := by
  induction h with
  | nil => exact List.forall_mem_nil _
  | cons ha _ ih => exact List.forall_mem_cons.mpr ⟨hR ha, ih⟩

theorem forall_of_rel {R : α → α → Prop} {a a' : Option α} (h : Option.Rel R a a') (hR : ∀ {a a'}, R a a' → P a) :
    ∀ b ∈ a.toList, P b := by
  cases h with
  | none => exact List.forall_mem_nil _
  | some ha => exact List.forall_mem_singleton.mpr (hR ha)

theorem forall_pair {a b : α} (ha : P a) (hb : P b) : ∀ c ∈ [a, b], P c :=
  List.forall_mem_cons.mpr ⟨ha, List.forall_mem_singleton.mpr hb⟩

theorem Node.Grown.of_form {span span' : Span} {form form' : ExprForm}
    (h : form.Akin (.grown T I) span span' form') : (Node.expr ⟨span, form⟩).Grown I := by
  cases h with
  | literal value => exact .plain (List.forall_mem_nil _) rfl rfl
  | name hi => exact .expr (List.forall_mem_nil _) rfl (List.forall_mem_singleton.mpr hi.2)
  | template hraw hps =>
    refine .plain (List.forall_mem_flatMap.mpr (forall_of_forall₂ hps fun hp => ?_)) hraw rfl
    cases hp with
    | text s => exact List.forall_mem_nil _
    | slot he => exact List.forall_mem_singleton.mpr he.2
  | array hes => exact .plain (List.forall_mem_map.mpr (forall_of_forall₂ hes fun he => he.2)) rfl rfl
  | object hps =>
    have hparts := forall_of_forall₂ (P := fun p => (Node.expr p.value).Grown I ∧ p.isApt = true) hps fun hp => by
      obtain ⟨he, named⟩ := hp
      refine ⟨he.2, ?_⟩
      rename_i short _ _
      cases short with
      | false => rfl
      | true =>
        rw [Property.isApt, named rfl]
        exact beq_self_eq_true _
    exact .plain (List.forall_mem_map.mpr fun p hp => (hparts p hp).1)
      (List.all_eq_true.mpr fun p hp => (hparts p hp).2) rfl
  | lambda hps hb => exact .expr (List.forall_mem_singleton.mpr hb.2) rfl (forall_of_forall₂ hps fun hi => hi.2)
  | negate he => exact .plain (List.forall_mem_singleton.mpr he.2) rfl rfl
  | arithmetic _ ha hb => exact .plain (forall_pair ha.2 hb.2) rfl rfl
  | compare _ ha hb => exact .plain (forall_pair ha.2 hb.2) rfl rfl
  | equal _ ha hb => exact .plain (forall_pair ha.2 hb.2) rfl rfl
  | assign isTarget ha hb => exact .plain (forall_pair ha.2 hb.2) isTarget rfl
  | conditional ha hb hc => exact .plain (List.forall_mem_cons.mpr ⟨ha.2, forall_pair hb.2 hc.2⟩) rfl rfl
  | range ha hb => exact .plain (forall_pair ha.2 hb.2) rfl rfl
  | call he hes =>
    refine .plain (List.forall_mem_cons.mpr ⟨he.2, List.forall_mem_map.mpr ?_⟩) rfl rfl
    exact forall_of_forall₂ hes fun he => he.2
  | member he hi => exact .expr (List.forall_mem_singleton.mpr he.2) rfl (List.forall_mem_singleton.mpr hi.2)
  | index ha hb => exact .plain (forall_pair ha.2 hb.2) rfl rfl
  | switch he hcs =>
    refine .plain (List.forall_mem_cons.mpr ⟨he.2, List.forall_mem_flatMap.mpr (forall_of_forall₂ hcs fun hc => ?_)⟩) rfl rfl
    obtain ⟨-, htest, hb⟩ := hc
    refine List.forall_mem_append.mpr ⟨List.forall_mem_map.mpr ?_, List.forall_mem_singleton.mpr hb.2⟩
    exact forall_of_rel htest fun he => he.2
  | run isCall he hcs =>
    have hparts := forall_of_forall₂ (P := fun c => (Node.block c.body).Grown I ∧ ∀ i ∈ c.params, I i) hcs fun hc => by
      obtain ⟨-, hps, hb⟩ := hc
      exact ⟨hb.2, forall_of_forall₂ hps fun hi => hi.2⟩
    exact .expr (List.forall_mem_cons.mpr ⟨he.2, List.forall_mem_map.mpr fun c hc => (hparts c hc).1⟩) isCall
      (List.forall_mem_flatMap.mpr fun c hc => (hparts c hc).2)
  | wait he => exact .plain (List.forall_mem_singleton.mpr he.2) rfl rfl

theorem Node.Grown.of_stmtForm {form form' : StmtForm} (h : form.Akin (.grown T I) form') :
    (Node.stmt ⟨id, span, form⟩).Grown I := by
  cases h with
  | useModule source hi hps =>
    refine .stmt (List.forall_mem_nil _) rfl (List.forall_mem_append.mpr ⟨forall_of_rel hi fun hi => hi.2,
      List.forall_mem_flatMap.mpr (forall_of_forall₂ hps fun hp => ?_)⟩)
    obtain ⟨hi, hj⟩ := hp
    exact List.forall_mem_cons.mpr ⟨hi.2, forall_of_rel hj fun hj => hj.2⟩
  | declareTask hi hps hb =>
    exact .stmt (List.forall_mem_singleton.mpr hb.2) rfl
      (List.forall_mem_cons.mpr ⟨hi.2, forall_of_forall₂ hps fun hi => hi.2⟩)
  | declareFunction hi hps hb =>
    exact .stmt (List.forall_mem_singleton.mpr hb.2) rfl
      (List.forall_mem_cons.mpr ⟨hi.2, forall_of_forall₂ hps fun hi => hi.2⟩)
  | declare _ hi he => exact .stmt (List.forall_mem_singleton.mpr he.2) rfl (List.forall_mem_singleton.mpr hi.2)
  | branch he hb ha =>
    have hparts := forall_of_rel (P := fun a => (∀ c ∈ a.parts, c.Grown I) ∧ a.isApt = true) ha fun ha => by
      cases ha with
      | block hb => exact ⟨List.forall_mem_singleton.mpr hb.2, rfl⟩
      | branch hs isBranch => exact ⟨List.forall_mem_singleton.mpr hs.2, isBranch⟩
    refine .stmt (List.forall_mem_cons.mpr ⟨he.2, List.forall_mem_cons.mpr ⟨hb.2,
      List.forall_mem_flatMap.mpr fun a ha => (hparts a ha).1⟩⟩) ?_ (List.forall_mem_nil _)
    cases ha with
    | none => rfl
    | some => exact (hparts _ (.head _)).2
  | loop hi hj he hb =>
    exact .stmt (forall_pair he.2 hb.2) rfl (List.forall_mem_cons.mpr ⟨hi.2, forall_of_rel hj fun hj => hj.2⟩)
  | give he =>
    exact .stmt (List.forall_mem_map.mpr (forall_of_rel he fun he => he.2)) rfl (List.forall_mem_nil _)
  | expression he => exact .stmt (List.forall_mem_singleton.mpr he.2) rfl (List.forall_mem_nil _)

def Kinship.grown (hT : Anchors T I) : Kinship where
  toKin := .grown T I
  word ht hspan hword := by
    refine ⟨congrArg _ hspan, hT.word (ht ?_) hword⟩
    rw [Token.isEnd_eq]
    rcases hword with hname | hkeyword
    · rw [hname]
      rfl
    · rw [Token.terminal]
      cases hkind : Token.kind _ <;> first | rfl | (rw [hkind] at hkeyword; cases hkeyword)
  ofForm hspan h := ⟨congr (congrArg Expr.mk hspan) (Kin.isSame_grown.form_eq h), .of_form h⟩
  ofStmt hid hspan h :=
    ⟨congr (congr (congrArg Stmt.mk hid) hspan) (Kin.isSame_grown.stmtForm_eq h), .of_stmtForm h⟩
  expr_span h := h.1 ▸ rfl
  isCall h := h.1 ▸ rfl
  isTarget h := h.1 ▸ rfl
  endsInGive h := h.1 ▸ rfl

end

/-! ## Readings -/

/-- **A fault tells of a place in the text that is read.** It does not know of the file that the text is in. -/
def Fault.IsOfReading (f : Fault) : Prop :=
  ∃ cause span, f = .reading cause span

section

variable {T : Token → Prop} {I : Ident → Prop}

theorem Parser.forall_peek {p : Parser} (hp : ∀ t ∈ p.tokens, T t) (hend : p.peek.isEnd = false) : T p.peek := by
  obtain ⟨t, q, ts, -, htokens, -, -, hterminal, htaken⟩ := Parse.exists_advance p
  rw [Token.isEnd_eq, ← hterminal, ← Token.isEnd_eq] at hend
  obtain ⟨rfl, hmem⟩ := htaken hend
  exact hp _ (htokens ▸ List.mem_append_left _ hmem)

/-- **It is watched that the tokens are as they should be**, and that no fault was recorded since the start. The fault
that stops the reading is the only one then, and it tells of a place in the text. -/
def Parse.Watch.grown (hT : Anchors T I) (log : FaultLog) : Watch (.grown hT) where
  holds p := (∀ t ∈ p.tokens, T t) ∧ p.log = log
  fails fault q := q.log = log.record fault ∧ fault.IsOfReading
  token h := Parser.forall_peek h.1
  advance {p q t} h _ hread := by
    obtain ⟨_, _, ts, hread', htokens, -, hlog, -⟩ := exists_advance p
    cases hread.symm.trans hread'
    rw [htokens] at h
    exact ⟨(List.forall_mem_append.mp h.1).2, hlog.trans h.2⟩
  freshId h := h
  pastTrivia h _ := ⟨fun t ht => h.1 t (List.mem_of_mem_drop ht), h.2⟩
  fail := by
    rintro p q cause span ⟨-, hlog⟩ (rfl | ⟨⟨⟩, -⟩) -
    exact ⟨congrArg (fun log : FaultLog => log.record _) hlog, cause, span, rfl⟩

abbrev Parse.Pace.grown (hT : Anchors T I) (log : FaultLog) : Pace (.grown hT) :=
  .watched (.grown hT log) (fun _ => rfl) fun _ => rfl

theorem Kinship.Nests.grown (hT : Anchors T I) : (Kinship.grown hT).Nests where
  trivia t h hspan := by
    refine ⟨by cases h; cases hspan; rfl, ?_⟩
    rw [Token.triviaForm]
    split <;> exact .stmt (List.forall_mem_nil _) rfl (List.forall_mem_nil _)
  block h hspan hbody := by
    refine ⟨?_, .block (forall_of_forall₂ hbody fun hs => hs.2)⟩
    cases h
    cases hspan
    rw [eq_of_forall₂ (fun hs => hs.1) hbody]
  exposed := by
    rintro i _ span _ s _ rfl rfl ⟨rfl, hs⟩ declares
    exact ⟨rfl, .stmt (List.forall_mem_singleton.mpr hs) declares (List.forall_mem_nil _)⟩
  declares h := by
    rw [h.1]
    exact ⟨rfl, rfl⟩

theorem Parse.Pace.level_grown (hT : Anchors T I) (log : FaultLog) : (grown hT log).Level :=
  level_watched _ _ (.grown hT) _

theorem Parse.Pace.grown.log_eq {hT : Anchors T I} {log : FaultLog} {m : Nat} {k : Bool}
    {R : α → α → Prop} {b : α → Stage} {o o' : Outcome Parser α} (h : o.Keeps (.grown hT log) m k R b o') :
    (∃ a q a', o = .done a q ∧ R a a' ∧ q.log = log) ∨
      o.StopsWith fun fault q => q.log = log.record fault ∧ fault.IsOfReading := by
  rcases h with ⟨a, q, a', q', ho, -, ha, ⟨-, -, hlog⟩, -⟩ | h
  · exact .inl ⟨a, q, a', ho, ha, hlog⟩
  · exact .inr h

/-- **The rules of the grammar make nodes that fit.** A slot of a template has a log of its own, and its fault is
recorded once more, by the parser around it. -/
theorem Rules.keeps_grown (hT : Anchors T I) (depth : Nat) (log : FaultLog) :
    (ofDepth depth).Keeps (.grown hT log) (ofDepth depth) ∧ ∀ m light,
      Parse.Keeps (.grown hT log) m light .fresh (Kin.grown T I).stmt (fun _ => .passed) (ofDepth depth).statement
        (ofDepth depth).statement := by
  refine keeps_ofDepth (c := Parse.Pace.grown hT) (Parse.Pace.level_grown hT) (fun _ => trivial) ?_ depth log
  intro r hexpression log m t raw segments source offset span' ht hspan hkind hsplit hslot
  cases hspan
  have htext : T t := ht (by rw [Token.isEnd, hkind])
  refine .slot (fun _ => rfl) (hexpression {}) (fun hp => by rw [hp.1]) ?_ ?_ ?_
  · rintro _ p ⟨rfl, -⟩
    exact ⟨rfl, List.forall_mem_map.mpr (hT.slot htext hkind hsplit hslot p.keywords), rfl⟩
  · rintro _ p _ q ⟨rfl, hp⟩ ⟨rfl, -⟩
    exact ⟨rfl, hp⟩
  · rintro _ p o o' ⟨rfl, -, hlog⟩ hstopped
    cases o with
    | done e q => exact hstopped
    | failed fault q =>
      have hfault : q.log.surface fault = fault := by rw [hstopped.1]; rfl
      refine ⟨congrArg (fun log : FaultLog => log.record _) hlog, ?_⟩
      rw [hfault]
      exact hstopped.2
    | exhausted => trivial

theorem Parser.fits_readProgram (hT : Anchors T I) {p q : Parser} {program : Program} (hp : ∀ t ∈ p.tokens, T t)
    (done : p.readProgram = .done program q) : ∀ n ∈ program.nodes, n.Fits I := by
  rw [Parse.readProgram_eq, Parse.withOwnLog_done] at done
  have hread := Parse.Keeps.program (Parse.Pace.level_grown hT {}) (fun m => (Rules.keeps_grown hT (p.weight + 1) {}).2 m false)
    false { p with log := {} } _ (by rintro (h | h) <;> cases h) ⟨rfl, hp, rfl⟩ (Nat.le_refl _)
  rw [show Parse.program (Rules.ofDepth (p.weight + 1)) _ = _ from done] at hread
  rcases Parse.Pace.grown.log_eq hread with ⟨_, _, _, hdone, ⟨-, hs⟩, -⟩ | hstopped
  · cases hdone
    intro n hn
    obtain ⟨s, hs', below⟩ := List.mem_flatMap.mp hn
    exact forall_of_forall₂ hs (fun hs => hs.2) s hs' n below
  · exact hstopped.elim

end

end Trellis
