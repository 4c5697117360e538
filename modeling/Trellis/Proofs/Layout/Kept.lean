import Mathlib.Data.List.Basic
import Trellis.Proofs.Layout.Scanning

/-!
# What a bare tree keeps

A tree that was read from a layout is known up to places, identities and some blank lines, that is, through its bare
tree. To lay it out and read it once more, what was asked of the first tree has to hold of the second:

* a condition on every expression that does not look at places holds of a tree exactly if it holds of the
  bare tree (`Program.every_bare`), and plainness is such a condition (`ExprForm.isPlain_bare`);
* the bare tree has the tokens of the tree (`Program.tokens_bare`) and, with all its blank lines, the text of the
  tree (`Layout.program_bare`).
-/

namespace Trellis

/-! ## Conditions on every expression -/

/-- **A condition that looks neither at places and identities nor at blank lines.** -/
def ExprForm.Placeless (p : ExprForm → Bool) : Prop :=
  ∀ b form, p (form.bare b) = p form

/-- What says the same of a bare node as of the node says the same of the parts of a bare form as of those of the
form. -/
theorem ExprForm.forall_parts_bare {P : Node → Prop} {form : ExprForm}
    (same : ∀ n ∈ form.parts, ∀ b, P (n.bare b) ↔ P n) (b : Blanks) :
    (∀ n ∈ (form.bare b).parts, P n) ↔ ∀ n ∈ form.parts, P n := by
  cases form with
  | template raw parts =>
    simp only [bare, ExprForm.parts, TemplatePart.bareOf_eq, List.flatMap_map, List.forall_mem_flatMap] at same ⊢
    refine forall₂_congr fun part hpart => ?_
    have := same part hpart
    cases part <;> simp_all [TemplatePart.bare, TemplatePart.parts, Node.bare]
  | switch subject cases =>
    simp only [bare, ExprForm.parts, Case.bareOf_eq, List.flatMap_map, List.forall_mem_cons,
      List.forall_mem_flatMap] at same ⊢
    refine and_congr (same.1 b) (forall₂_congr fun k hk => ?_)
    have := same.2 k hk
    obtain ⟨span, test, body⟩ := k
    cases test <;> simp_all [Case.bare, Case.parts, Node.bare]
  | _ =>
    simp_all +contextual [bare, ExprForm.parts, Node.bare, Expr.bareOperand_eq, Expr.bareOf_eq, Property.bareOf_eq,
      Property.bare, Continuation.bareOf_eq, Continuation.bare]

variable {form : StmtForm} {body : List Stmt}

theorem StmtForm.forall_parts_bare {P : Node → Prop} (same : ∀ n ∈ form.parts, ∀ b, P (n.bare b) ↔ P n) (b : Blanks) :
    (∀ n ∈ (form.bare b).parts, P n) ↔ ∀ n ∈ form.parts, P n := by
  cases form with
  | branch condition consequent alternate =>
    cases alternate with
    | none => simp_all [bare, StmtForm.parts, Node.bare]
    | some alternate => cases alternate <;> simp_all [bare, StmtForm.parts, Alternate.bare, Alternate.parts, Node.bare]
  | give value => cases value <;> simp_all [bare, StmtForm.parts, Node.bare]
  | _ => simp_all [bare, StmtForm.parts, Node.bare]

section

variable {p : ExprForm → Bool}

theorem StmtForm.every_of_isBlankLine (h : form.isBlankLine = true) : form.every p = true := by
  cases form <;> first | rfl | cases h

theorem Stmt.everyOf_bareOf {b : Blanks} (same : ∀ s ∈ body, (s.bare b).every p = true ↔ s.every p = true) :
    Stmt.everyOf p (Stmt.bareOf b body) = true ↔ Stmt.everyOf p body = true := by
  induction body with
  | nil => rfl
  | cons s rest ih =>
    obtain ⟨hs, hrest⟩ := List.forall_mem_cons.mp same
    obtain ⟨i, span, form⟩ := s
    have here : (form.bare b).every p = true ↔ form.every p = true := hs
    cases hdrop : form.isBlankLine && !b.keeps with
    | false => simp [Stmt.bareOf, hdrop, Stmt.everyOf, here, ih hrest]
    | true =>
      have hblank := StmtForm.every_of_isBlankLine (p := p) (Bool.and_eq_true_iff.mp hdrop).1
      simp [Stmt.bareOf, hdrop, Stmt.everyOf, hblank, ih hrest]

theorem Node.every_bare (hp : ExprForm.Placeless p) (n : Node) :
    ∀ b, (n.bare b).every p = true ↔ n.every p = true := by
  induction n using byParts with
  | step n ih =>
    intro b
    cases n with
    | expr e =>
      cases e with
      | mk span form =>
        show (p (form.bare b) && (form.bare b).inside p) = true ↔ (p form && form.inside p) = true
        simp only [hp b form, inside_eq, Bool.and_eq_true, List.all_eq_true]
        exact and_congr_right fun _ => form.forall_parts_bare (P := fun n => n.every p = true) ih b
    | block k => cases k; exact Stmt.everyOf_bareOf fun s hs => ih _ (List.mem_map_of_mem hs) b
    | stmt s =>
      cases s with
      | mk i span form =>
        show (form.bare b).every p = true ↔ form.every p = true
        simp only [every_stmtForm_eq, List.all_eq_true]
        exact form.forall_parts_bare (P := fun n => n.every p = true) ih b

theorem Program.every_bare (hp : ExprForm.Placeless p) (b : Blanks) (program : Program) :
    (program.bare b).every p = program.every p :=
  Bool.eq_iff_iff.mpr (Stmt.everyOf_bareOf fun s _ => Node.every_bare hp (.stmt s) b)

end

/-! ## Plainness -/

mutual

theorem Expr.endsInRun_bare (b : Blanks) : (e : Expr) → (e.bare b).endsInRun = e.endsInRun
  | ⟨_, form⟩ => form.endsInRun_bare b

theorem ExprForm.endsInRun_bare (b : Blanks) : (form : ExprForm) → (form.bare b).endsInRun = form.endsInRun
  | .negate operand => operand.operandEndsInRun_bareOperand b 6
  | .arithmetic _ _ right => right.operandEndsInRun_bareOperand b 4
  | .compare _ _ right => right.operandEndsInRun_bareOperand b 2
  | .equal _ _ right => right.operandEndsInRun_bareOperand b 3
  | .assign _ value => value.endsInRun_bare b
  | .conditional _ _ alternate => alternate.endsInRun_bare b
  | .range _ last => last.operandEndsInRun_bareOperand b 6
  | .run _ [] => rfl
  | .run _ (⟨_, _, _⟩ :: _) => rfl
  | .wait awaited => awaited.operandEndsInRun_bareOperand b 6
  | .literal _ => rfl
  | .name _ => rfl
  | .template _ _ => rfl
  | .array _ => rfl
  | .object _ => rfl
  | .lambda _ _ => rfl
  | .call _ _ => rfl
  | .member _ _ => rfl
  | .index _ _ => rfl
  | .switch _ _ => rfl

theorem Expr.operandEndsInRun_bareOperand (b : Blanks) (least : Nat) :
    (e : Expr) → (e.bareOperand b least).operandEndsInRun least = e.operandEndsInRun least
  | ⟨_, form⟩ => by
    simp only [Expr.bareOperand, Expr.operandEndsInRun, Layout.strength_bare, form.endsInRun_bare]

end

mutual

theorem Stmt.endsInRun_bare (b : Blanks) : (s : Stmt) → (s.bare b).endsInRun = s.endsInRun
  | ⟨_, _, form⟩ => form.endsInRun_bare b

theorem StmtForm.endsInRun_bare (b : Blanks) : (form : StmtForm) → (form.bare b).endsInRun = form.endsInRun
  | .expose declaration => declaration.endsInRun_bare b
  | .declare _ _ value => value.endsInRun_bare b
  | .give (some value) => value.endsInRun_bare b
  | .expression e => e.endsInRun_bare b
  | .useModule _ _ _ => rfl
  | .declareTask _ _ _ => rfl
  | .declareFunction _ _ _ => rfl
  | .branch _ _ none => rfl
  | .branch _ _ (some _) => rfl
  | .loop _ _ _ _ => rfl
  | .give none => rfl
  | .comment _ => rfl
  | .blankLine => rfl

end

theorem StmtForm.endsInRun_of_isBlankLine (h : form.isBlankLine = true) : form.endsInRun = false := by
  cases form <;> first | rfl | cases h

theorem Stmt.all_isTrivia_bareOf (b : Blanks) (body : List Stmt) :
    (Stmt.bareOf b body).all (·.form.isTrivia) = body.all (·.form.isTrivia) := by
  induction body with
  | nil => rfl
  | cons s rest ih =>
    obtain ⟨i, span, form⟩ := s
    cases hdrop : form.isBlankLine && !b.keeps with
    | false => simp only [Stmt.bareOf, hdrop, Bool.false_eq_true, if_false, List.all_cons, StmtForm.isTrivia_bare, ih]
    | true =>
      have htrivia := StmtForm.isTrivia_of_isBlankLine (Bool.and_eq_true_iff.mp hdrop).1
      simp only [Stmt.bareOf, hdrop, if_true, List.all_cons, htrivia, Bool.true_and, ih]

theorem Block.endsInRun_bare (b : Blanks) (block : Block) : (block.bare b).endsInRun = block.endsInRun := by
  obtain ⟨i, span, body⟩ := block
  show Stmt.endsInRunOf (Stmt.bareOf b body) = Stmt.endsInRunOf body
  induction body with
  | nil => rfl
  | cons s rest ih =>
    obtain ⟨j, place, form⟩ := s
    cases hdrop : form.isBlankLine && !b.keeps with
    | false =>
      simp only [Stmt.bareOf, hdrop, Bool.false_eq_true, if_false, Stmt.endsInRunOf, Stmt.endsInRun,
        Stmt.all_isTrivia_bareOf, form.endsInRun_bare, ih]
    | true =>
      -- A blank line is passed over when the last statement is looked for.
      have hends := StmtForm.endsInRun_of_isBlankLine (Bool.and_eq_true_iff.mp hdrop).1
      simp only [Stmt.bareOf, hdrop, if_true, Stmt.endsInRunOf, Stmt.endsInRun, hends, Bool.and_false,
        Bool.false_or, ih]

theorem Continuation.runsApart_bareOf (b : Blanks) (cs : List Continuation) :
    Continuation.runsApart (Continuation.bareOf b cs) = Continuation.runsApart cs := by
  rw [Continuation.bareOf_eq]
  induction cs with
  | nil => rfl
  | cons c rest ih =>
    cases rest with
    | nil => rfl
    | cons next others =>
      simp only [List.map_cons, Continuation.runsApart, Continuation.bare, Block.endsInRun_bare] at ih ⊢
      rw [ih]

theorem Expr.isPrefix_bareOperand (b : Blanks) (least : Nat) (e : Expr) :
    (e.bareOperand b least).form.isPrefix = e.form.isPrefix := by
  obtain ⟨span, form⟩ := e
  cases form <;> rfl

theorem ExprForm.isPlain_bare : ExprForm.Placeless ExprForm.isPlain := by
  intro b form
  cases form with
  | literal value => rfl
  | call callee arguments => exact congrArg not (callee.isPrefix_bareOperand b 6)
  | member receiver key => exact congrArg not (receiver.isPrefix_bareOperand b 6)
  | index receiver key => exact congrArg not (receiver.isPrefix_bareOperand b 6)
  | run call continuations => exact Continuation.runsApart_bareOf b continuations
  | _ => rfl

/-! ## Tokens -/

theorem Ident.tokensOf_bare (params : List Ident) :
    Ident.tokensOf (params.map Ident.bare) = Ident.tokensOf params := by
  simp [Ident.tokensOf, Function.comp_def]

theorem Ident.calledTokens_bare (called : Option Ident) :
    Ident.calledTokens (called.map Ident.bare) = Ident.calledTokens called := by
  cases called <;> rfl

theorem Pick.tokens_bare (p : Pick) : p.bare.tokens = p.tokens := by
  rw [Pick.tokens, Pick.tokens, Pick.bare, Ident.calledTokens_bare, Ident.name_bare]

theorem Pick.tokensOf_bare (picks : List Pick) : Pick.tokensOf (picks.map Pick.bare) = Pick.tokensOf picks := by
  simp [Pick.tokensOf, Function.comp_def, Pick.tokens_bare]

section

variable {kw : KeywordTable} {b c : Blanks}

theorem Case.tokensOf_eq (cs : List Case) : Case.tokensOf kw b cs = cs.flatMap (Case.tokens kw b) :=
  eq_flatMap_of_cons rfl (Case.tokensOf_cons kw b) cs

theorem Continuation.tokensOf_eq (cs : List Continuation) :
    Continuation.tokensOf kw b cs = cs.flatMap (Continuation.tokens kw b) :=
  eq_flatMap_of_cons rfl (fun _ _ => rfl) cs

def Node.tokens (kw : KeywordTable) (b : Blanks) : Node → List Token
  | .expr e => e.tokens kw b
  | .block k => k.tokens kw b
  | .stmt s => s.tokens kw b

/-- The bare node has the tokens of the node, if it has the blank lines that tokens are asked for. -/
def Node.KeepsTokens (kw : KeywordTable) (n : Node) : Prop :=
  ∀ b c, c ≤ b → (n.bare b).tokens kw c = n.tokens kw c

theorem Expr.tokensOf_bareOf {es : List Expr} (ih : ∀ e ∈ es, (Node.expr e).KeepsTokens kw) (h : c ≤ b) :
    Expr.tokensOf kw c (Expr.bareOf b es) = Expr.tokensOf kw c es := by
  rw [Expr.bareOf_eq, Expr.tokensOf_eq, Expr.tokensOf_eq, List.map_map]
  exact List.map_congr_left fun e he => ih e he b c h

theorem ExprForm.tokens_bare {form : ExprForm} (ih : ∀ n ∈ form.parts, n.KeepsTokens kw) (h : c ≤ b) :
    (form.bare b).tokens kw c = form.tokens kw c := by
  have within := Blanks.within_le h
  cases form with
  | array elements =>
    have all := Expr.tokensOf_bareOf (List.forall_mem_map.mp ih) within
    simp only [bare, tokens, all]
  | object properties =>
    have all : ∀ p ∈ properties, (p.bare b.within).tokens kw c.within = p.tokens kw c.within := by
      intro p hp
      have := ih _ (List.mem_map_of_mem hp) _ _ within
      simp_all [Property.bare, Property.tokens, Node.bare, Node.tokens]
    simp only [bare, tokens, Property.bareOf_eq, Property.tokensOf_eq, List.map_map, Function.comp_def,
      List.map_congr_left all]
  | call callee arguments =>
    obtain ⟨hcallee, harguments⟩ := List.forall_mem_cons.mp ih
    have all := Expr.tokensOf_bareOf (List.forall_mem_map.mp harguments) within
    simp_all [Node.KeepsTokens, bare, tokens, Node.bare, Node.tokens, Expr.bareOperand_eq, Expr.operandTokens_eq,
      Blanks.under_le]
  | switch subject cases =>
    have hsubject : (subject.bare b).tokens kw c = subject.tokens kw c := ih _ (.head _) b c h
    have all : ∀ k ∈ cases, (k.bare b).tokens kw c = k.tokens kw c := by
      intro k hk
      have hparts := fun n hn => ih n (.tail _ (List.mem_flatMap.mpr ⟨k, hk, hn⟩)) b c h
      obtain ⟨span, test, body⟩ := k
      cases test <;> simp_all [Case.parts, Case.bare, Case.tokens, Node.bare, Node.tokens, Block.caseTokens_eq]
    simp only [bare, tokens, Case.tokensOf_eq, Case.bareOf_eq, List.flatMap_map, hsubject, List.flatMap_congr all]
  | run call continuations =>
    have hcall : (call.bare b).tokens kw c = call.tokens kw c := ih _ (.head _) b c h
    have all : ∀ k ∈ continuations, (k.bare b).tokens kw c = k.tokens kw c := by
      intro k hk
      have := ih _ (.tail _ (List.mem_map_of_mem hk)) b c h
      simp_all [Continuation.bare, Continuation.tokens_eq, Node.bare, Node.tokens, Ident.tokensOf_bare]
    simp only [bare, tokens_run, Continuation.tokensOf_eq, Continuation.bareOf_eq, List.flatMap_map, hcall,
      List.flatMap_congr all, List.isEmpty_map]
  | _ =>
    simp_all [Node.KeepsTokens, bare, ExprForm.parts, tokens, Node.bare, Node.tokens, Expr.bareOperand_eq,
      Expr.operandTokens_eq, Ident.tokensOf_bare, Blanks.under_le]

theorem StmtForm.tokens_bare (ih : ∀ n ∈ form.parts, n.KeepsTokens kw) (h : c ≤ b) :
    (form.bare b).tokens kw c = form.tokens kw c := by
  have hparts := fun n hn => ih n hn b c h
  cases form with
  | branch condition consequent alternate =>
    cases alternate with
    | none => simp_all [bare, StmtForm.parts, tokens, Node.bare, Node.tokens]
    | some alternate =>
      cases alternate <;> simp_all [bare, StmtForm.parts, tokens, Alternate.bare, Alternate.parts, Alternate.tokens,
        Node.bare, Node.tokens]
  | give value => cases value <;> simp_all [bare, StmtForm.parts, tokens, Node.bare, Node.tokens]
  | _ =>
    simp_all [bare, StmtForm.parts, tokens, Node.bare, Node.tokens, Function.comp_def, Ident.tokensOf_bare,
      Ident.calledTokens_bare, Pick.tokensOf_bare]

theorem Stmt.tokensOf_bareOf (keeps : ∀ s ∈ body, (Node.stmt s).KeepsTokens kw) (h : c ≤ b) :
    Stmt.tokensOf kw c (Stmt.bareOf b body) = Stmt.tokensOf kw c body := by
  induction body with
  | nil => rfl
  | cons s rest ih =>
    obtain ⟨hs, hrest⟩ := List.forall_mem_cons.mp keeps
    obtain ⟨i, span, form⟩ := s
    have here : (form.bare b).tokens kw c = form.tokens kw c := hs b c h
    cases hb : form.isBlankLine with
    | false => simp [Stmt.bareOf, Stmt.tokensOf, hb, here, ih hrest]
    | true =>
      cases hk : b.keeps with
      | false => simp [Stmt.bareOf, Stmt.tokensOf, hb, hk, Blanks.keeps_of_le h hk, ih hrest]
      | true => simp [Stmt.bareOf, Stmt.tokensOf, hb, hk, here, ih hrest]

theorem Node.tokens_bare (n : Node) : n.KeepsTokens kw := by
  induction n using byParts with
  | step n ih =>
    intro b c h
    cases n with
    | expr e => cases e; exact ExprForm.tokens_bare ih h
    | block k => cases k; exact Stmt.tokensOf_bareOf (List.forall_mem_map.mp ih) h
    | stmt s => cases s; exact StmtForm.tokens_bare ih h

theorem Program.tokens_bare (kw : KeywordTable) (h : .outside ≤ b) (p : Program) :
    (p.bare b).tokens kw = p.tokens kw :=
  congrArg (· ++ [Token.endOfFile]) (Stmt.tokensOf_bareOf (fun s _ => Node.tokens_bare (.stmt s)) h)

end

/-! ## Texts -/

theorem Layout.paramList_bare (params : List Ident) :
    Layout.paramList (params.map Ident.bare) = Layout.paramList params := by
  simp [Layout.paramList, Function.comp_def]

theorem Layout.pick_bare (p : Pick) : Layout.pick p.bare = Layout.pick p := by
  cases p with
  | mk name called => cases called <;> rfl

theorem Layout.useModule_bare (source : String) (called : Option Ident) (picks : List Pick) :
    Layout.useModule source (called.map Ident.bare) (picks.map Pick.bare)
      = Layout.useModule source called picks := by
  simp [Layout.useModule, Function.comp_def, Layout.pick_bare]

def Node.text (l : Layout) (depth : Nat) : Node → String
  | .expr e => l.expr depth e
  | .block k => l.block depth k
  | .stmt s => l.stmt depth s

def Node.KeepsText (l : Layout) (n : Node) : Prop :=
  ∀ depth, (n.bare .all).text l depth = n.text l depth

namespace Layout

variable {l : Layout}

theorem caseBody_eq (l : Layout) (depth : Nat) (k : Block) :
    l.caseBody depth k =
      l.block (depth + 2) k ++ if k.endsInGive then "" else l.pad (depth + 2) ++ "break\n" := by
  cases k
  rfl

theorem operand_bare {e : Expr} {depth : Nat} (keeps : l.expr depth (e.bare .all) = l.expr depth e) (least : Nat) :
    l.operand depth least (e.bare .all) = l.operand depth least e := by
  rw [expr_eq, expr_eq, Expr.bare_form] at keeps
  simp only [operand_eq, guarded, keeps, Expr.bare_form, strength_bare]

theorem exprs_bare {es : List Expr} {depth : Nat} (keeps : ∀ e ∈ es, l.expr depth (e.bare .all) = l.expr depth e) :
    l.exprs depth (Expr.bareOf .all es) = l.exprs depth es := by
  rw [Expr.bareOf_eq, exprs_eq, exprs_eq, List.map_map]
  exact List.map_congr_left keeps

theorem cases_bare {cs : List Case} (keeps : ∀ k ∈ cs, ∀ n ∈ k.parts, n.KeepsText l) (depth : Nat) :
    l.cases depth (Case.bareOf .all cs) = l.cases depth cs := by
  induction cs with
  | nil => rfl
  | cons k rest ih =>
    obtain ⟨hk, hrest⟩ := List.forall_mem_cons.mp keeps
    obtain ⟨span, test, body⟩ := k
    have hbody : l.block (depth + 2) (body.bare .all) = l.block (depth + 2) body :=
      hk _ (List.mem_append_right _ (.head _)) (depth + 2)
    cases test with
    | none => simp only [Case.bareOf, cases, caseBody_eq, Block.endsInGive_bare, hbody, ih hrest]
    | some test =>
      have htest : l.expr (depth + 1) (test.bare .all) = l.expr (depth + 1) test := hk _ (.head _) (depth + 1)
      simp only [Case.bareOf, cases, caseBody_eq, Block.endsInGive_bare, htest, hbody, ih hrest]

theorem continuations_bare {cs : List Continuation} (keeps : ∀ k ∈ cs, (Node.block k.body).KeepsText l)
    (depth : Nat) : l.continuations depth (Continuation.bareOf .all cs) = l.continuations depth cs := by
  induction cs with
  | nil => rfl
  | cons k rest ih =>
    obtain ⟨hk, hrest⟩ := List.forall_mem_cons.mp keeps
    obtain ⟨span, params, body⟩ := k
    have hbody : l.block (depth + 1) (body.bare .all) = l.block (depth + 1) body := hk (depth + 1)
    simp only [Continuation.bareOf, continuations, continuation, paramList_bare, hbody, ih hrest]

theorem exprForm_bare {form : ExprForm} (ih : ∀ n ∈ form.parts, n.KeepsText l) (depth : Nat) :
    l.exprForm depth (form.bare .all) = l.exprForm depth form := by
  cases form with
  | object properties =>
    have all : ∀ p ∈ properties, l.property depth (p.bare .all) = l.property depth p := by
      intro p hp
      have value : l.expr depth (p.value.bare .all) = l.expr depth p.value :=
        ih _ (List.mem_map_of_mem hp) depth
      exact congrArg (fun text => if p.short then p.key else (if isBareKey p.key then p.key else quoted p.key) ++
        ": " ++ text) value
    simp only [ExprForm.bare, exprForm, properties_eq, Blanks.within_all, Property.bareOf_eq, List.map_map,
      Function.comp_def, List.map_congr_left all]
  | switch subject cases =>
    obtain ⟨hsubject, hcases⟩ := List.forall_mem_cons.mp ih
    have all := cases_bare (fun k hk n hn => hcases n (List.mem_flatMap.mpr ⟨k, hk, hn⟩)) depth
    have here : l.expr depth (subject.bare .all) = l.expr depth subject := hsubject depth
    simp only [ExprForm.bare, exprForm, here, all]
  | run call continuations =>
    obtain ⟨hcall, hcontinuations⟩ := List.forall_mem_cons.mp ih
    have all := continuations_bare (List.forall_mem_map.mp hcontinuations) depth
    have here : l.expr depth (call.bare .all) = l.expr depth call := hcall depth
    cases continuations with
    | nil => simp only [ExprForm.bare, Continuation.bareOf, exprForm, here]
    | cons k rest =>
      have joined (k : Continuation) (rest : List Continuation) (s : String) :
          s ++ l.continuation depth k ++ l.continuations depth rest = s ++ l.continuations depth (k :: rest) := by
        rw [Layout.continuations, String.append_assoc]
      cases k
      simp only [Continuation.bareOf] at all
      simp only [ExprForm.bare, Continuation.bareOf, exprForm, joined, here, all]
  | _ =>
    simp_all [Node.KeepsText, ExprForm.bare, ExprForm.parts, exprForm, Node.bare, Node.text, operand_bare, exprs_bare,
      paramList_bare]

theorem stmtForm_bare (ih : ∀ n ∈ form.parts, n.KeepsText l) (depth : Nat) :
    l.stmtForm depth (form.bare .all) = l.stmtForm depth form := by
  cases form with
  | branch condition consequent alternate =>
    cases alternate with
    | none => simp_all [Node.KeepsText, StmtForm.bare, StmtForm.parts, stmtForm, Node.bare, Node.text]
    | some other =>
      cases other <;> simp_all [Node.KeepsText, StmtForm.bare, StmtForm.parts, stmtForm, Alternate.bare, Alternate.parts,
        alternate, Node.bare, Node.text]
  | give value => cases value <;> simp_all [Node.KeepsText, StmtForm.bare, StmtForm.parts, stmtForm, Node.bare, Node.text]
  | _ =>
    simp_all [Node.KeepsText, StmtForm.bare, StmtForm.parts, stmtForm, Node.bare, Node.text, Function.comp_def,
      paramList_bare, useModule_bare]

theorem statements_bare (keeps : ∀ s ∈ body, (Node.stmt s).KeepsText l) (depth : Nat) :
    l.statements depth (Stmt.bareOf .all body) = l.statements depth body := by
  induction body with
  | nil => rfl
  | cons s rest ih =>
    obtain ⟨hs, hrest⟩ := List.forall_mem_cons.mp keeps
    obtain ⟨i, span, form⟩ := s
    have here : l.stmtForm depth (form.bare .all) = l.stmtForm depth form := hs depth
    simp only [Stmt.bareOf, Blanks.keeps, Bool.not_true, Bool.and_false, Bool.false_eq_true, if_false, statements,
      here, ih hrest]
    congr 3
    cases form with
    | branch _ _ alternate => cases alternate <;> rfl
    | give value => cases value <;> rfl
    | _ => rfl

end Layout

theorem Node.text_bare (l : Layout) (n : Node) : n.KeepsText l := by
  induction n using byParts with
  | step n ih =>
    intro depth
    cases n with
    | expr e => cases e; exact Layout.exprForm_bare ih depth
    | block k => cases k; exact Layout.statements_bare (List.forall_mem_map.mp ih) depth
    | stmt s => cases s; exact Layout.stmtForm_bare ih depth

theorem Layout.program_bare (l : Layout) (p : Program) : l.program (p.bare .all) = l.program p :=
  statements_bare (fun s _ => Node.text_bare l (.stmt s)) 0

end Trellis
