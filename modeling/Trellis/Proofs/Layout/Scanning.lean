import Trellis.Proofs.Layout.Spelling

/-!
# Scanning a layout

Scanning the text of a well-formed tree finds the tokens of its layout and no faults. There is one lemma for
each form: its text spells its tokens in front of whatever may follow, if the texts of its parts spell theirs.
They are put together by one recursion over trees, and for a program the result is `Program.scan_layout`.
-/

namespace Trellis

open Scan (Spells Lines)

variable {l : Layout} {kw : KeywordTable} {sure : Bool} {rest : List Char} {params : List Ident} {owed : List Symbol}
  {body : Block} {form : StmtForm}

attribute [local simp] Layout.exprForm

/-! ## Expressions -/

namespace ExprForm.Spelled

theorem literal {value : Literal} (hvalue : value.WellFormed)
    (hplain : sure = true → (ExprForm.literal value).isPlain = true) : (literal value).Spelled l kw sure :=
  fun _ _ _ hrest => .literal hvalue hplain hrest

theorem name {word : String} (h : IsName kw word) : (name word).Spelled l kw sure :=
  fun _ _ _ hrest => .name h (Lexeme.wordEnds_of_operandEnds hrest)

theorem template {raw : String} {parts : List TemplatePart} (h : IsQuotable raw.toList) :
    (template raw parts).Spelled l kw sure :=
  fun _ _ _ _ => .quoted h

theorem array {elements : List Expr} (h : ∀ e ∈ elements, e.form.Spelled l kw sure) : (array elements).Spelled l kw sure := by
  intro depth owed rest hrest
  rw [Layout.exprForm, ExprForm.tokens, String.toList_append, String.toList_append, List.append_assoc]
  exact Spelled.bracketed .leftBracket rfl h

theorem negate {operand : Expr} (h : operand.form.Spelled l kw sure) : (negate operand).Spelled l kw sure := by
  intro depth owed rest hrest
  rw [Layout.exprForm, ExprForm.tokens, String.toList_append]
  exact (Spells.symbol .minus trivial rfl rfl).append (h.operand hrest)

variable {left right : Expr}

theorem arithmetic {operator : Arithmetic} (hleft : left.form.Spelled l kw sure)
    (hright : right.form.Spelled l kw sure) : (arithmetic left operator right).Spelled l kw sure := by
  intro depth owed rest hrest
  rw [Layout.exprForm, ExprForm.tokens, ← Arithmetic.text_sign]
  simp only [String.toList_append, List.append_assoc]
  exact hleft.binary hright (by cases operator <;> exact fun _ => trivial) (by cases operator <;> rfl)
    (by cases operator <;> rfl) hrest

theorem compare {operator : Comparison} (hleft : left.form.Spelled l kw sure)
    (hright : right.form.Spelled l kw sure) : (compare left operator right).Spelled l kw sure := by
  intro depth owed rest hrest
  rw [Layout.exprForm, ExprForm.tokens, ← Comparison.text_sign]
  simp only [String.toList_append, List.append_assoc]
  exact hleft.binary hright (by cases operator <;> intro _ <;> first | trivial | rintro ⟨⟩)
    (by cases operator <;> rfl) (by cases operator <;> rfl) hrest

theorem equal {negated : Bool} (hleft : left.form.Spelled l kw sure) (hright : right.form.Spelled l kw sure) :
    (equal left negated right).Spelled l kw sure := by
  intro depth owed rest hrest
  have hsign : (if negated then " != " else " == ").toList = ' ' :: ((equalSign negated).text.toList ++ [' ']) := by
    cases negated <;> rfl
  rw [Layout.exprForm, ExprForm.tokens, String.toList_append, String.toList_append, hsign, List.append_assoc,
    List.cons_append, List.append_assoc]
  exact hleft.binary hright (by cases negated <;> exact fun _ => trivial) (by cases negated <;> rfl)
    (by cases negated <;> rfl) hrest

theorem assign {target value : Expr} (htarget : target.form.Spelled l kw sure)
    (hvalue : value.form.Spelled l kw sure) : (assign target value).Spelled l kw sure := by
  intro depth owed rest hrest
  rw [Layout.exprForm, ExprForm.tokens]
  simp only [String.toList_append, List.append_assoc]
  exact (htarget.operand rfl).append
    ((Spells.symbol .assign (by rintro ⟨⟩) rfl rfl).append (hvalue.expr depth hrest).spaced).spaced

theorem conditional {condition consequent alternate : Expr} (hcondition : condition.form.Spelled l kw sure)
    (hconsequent : consequent.form.Spelled l kw sure) (halternate : alternate.form.Spelled l kw sure) :
    (conditional condition consequent alternate).Spelled l kw sure := by
  intro depth owed rest hrest
  rw [Layout.exprForm, ExprForm.tokens]
  simp only [String.toList_append, List.append_assoc]
  have hcolon : Spells kw sure owed (" : ".toList ++ (l.expr depth alternate).toList)
      (.ofSymbol .colon :: alternate.tokens kw (.ofOwed owed)) rest :=
    ((Spells.symbol .colon trivial rfl rfl).append (halternate.expr depth hrest).spaced).spaced
  exact (hcondition.operand rfl).append ((Spells.symbol .question trivial rfl rfl).append
    ((hconsequent.expr depth rfl).append hcolon).spaced).spaced

theorem range {first last : Expr} (hfirst : first.form.Spelled l kw sure) (hlast : last.form.Spelled l kw sure) :
    (range first last).Spelled l kw sure := by
  intro depth owed rest hrest
  rw [Layout.exprForm, ExprForm.tokens]
  simp only [String.toList_append, List.append_assoc]
  exact (hfirst.operand rfl).append ((Spells.symbol .dotDot trivial rfl rfl).append (hlast.operand hrest))

theorem call {callee : Expr} {arguments : List Expr} (hcallee : callee.form.Spelled l kw sure)
    (harguments : ∀ e ∈ arguments, e.form.Spelled l kw sure) : (call callee arguments).Spelled l kw sure := by
  intro depth owed rest hrest
  rw [Layout.exprForm, ExprForm.tokens]
  simp only [String.toList_append, List.append_assoc]
  exact (hcallee.operand rfl).append (Spelled.bracketed .leftParen rfl harguments)

theorem member {receiver : Expr} {key : Ident} (hreceiver : receiver.form.Spelled l kw sure)
    (hkey : Layout.isBareKey key.name = true) : (member receiver key).Spelled l kw sure := by
  intro depth owed rest hrest
  rw [Layout.exprForm, ExprForm.tokens]
  simp only [String.toList_append, List.append_assoc]
  have hdot : Symbol.dot.Ends (key.name.toList ++ rest) := by
    obtain ⟨c, cs, hchars, hstarts, _⟩ := Layout.exists_of_isBareKey hkey
    rw [hchars]
    rintro ⟨⟩
    cases hstarts
  exact (hreceiver.operand (Lexeme.operandEnds_dot hkey rest)).append
    ((Spells.symbol .dot hdot rfl rfl).append (Spells.word hkey (Lexeme.wordEnds_of_operandEnds hrest)))

theorem index {receiver key : Expr} (hreceiver : receiver.form.Spelled l kw sure)
    (hkey : key.form.Spelled l kw sure) : (index receiver key).Spelled l kw sure := by
  intro depth owed rest hrest
  rw [Layout.exprForm, ExprForm.tokens, Blanks.within_ofOwed .rightBracket]
  simp only [String.toList_append, List.append_assoc]
  exact (hreceiver.operand rfl).append (.bracketed .leftBracket rfl (hkey.expr depth rfl))

theorem wait {awaited : Expr} (h : awaited.form.Spelled l kw sure) : (wait awaited).Spelled l kw sure := by
  intro depth owed rest hrest
  rw [Layout.exprForm, ExprForm.tokens, String.toList_append]
  exact Spells.keyword_spaced .waitKw (h.operand hrest)

theorem lambda (hl : l.Spaced) (hparams : ∀ i ∈ params, IsName kw i.name) (hbody : body.Spelled l kw sure) :
    (lambda params body).Spelled l kw sure := by
  intro depth owed rest hrest
  have hhead : ∀ behind, Spells kw sure owed ("fn".toList ++ '(' :: ((Layout.paramList params).toList ++ [')']))
      (.ofKeyword .fnKw :: .ofSymbol .leftParen :: (Ident.tokensOf params ++ [.ofSymbol .rightParen]))
      (':' :: behind) := fun _ => (Spells.keyword .fnKw rfl).append (Spells.params hparams)
  have hspells := Spells.block hhead hbody (depth + 1)
    (.closing hl depth (Lexeme.wordEnds_of_operandEnds hrest)) (by simp)
  simpa [ExprForm.tokens] using hspells

end ExprForm.Spelled

/-! ## Properties -/

def Layout.property (l : Layout) (depth : Nat) (p : Property) : String :=
  if p.short then p.key
  else (if Layout.isBareKey p.key then p.key else Layout.quoted p.key) ++ ": " ++ l.expr depth p.value

theorem Layout.properties_eq (l : Layout) (depth : Nat) (ps : List Property) :
    l.properties depth ps = ps.map (l.property depth) :=
  eq_map_of_cons rfl (fun ⟨_, _, _⟩ _ => rfl) ps

def Property.Spelled (l : Layout) (kw : KeywordTable) (sure : Bool) (p : Property) : Prop :=
  if p.short then IsName kw p.key
  else (Layout.isBareKey p.key = true ∨ IsQuotable p.key.toList) ∧ p.value.form.Spelled l kw sure

theorem Property.Spelled.spells {p : Property} {depth : Nat} (h : p.Spelled l kw sure)
    (hrest : Lexeme.operandEnds rest = true) :
    Spells kw sure owed (l.property depth p).toList (p.tokens kw (.ofOwed owed)) rest := by
  obtain ⟨key, short, value⟩ := p
  cases short with
  | true => exact .name h (Lexeme.wordEnds_of_operandEnds hrest)
  | false =>
    rw [Layout.property, Property.tokens, if_neg Bool.false_ne_true, if_neg Bool.false_ne_true,
      String.toList_append, String.toList_append, List.append_assoc]
    exact (Spells.key h.1 rfl).append
      ((Spells.symbol .colon trivial rfl rfl).append (h.2.expr depth hrest).spaced)

theorem ExprForm.Spelled.object {properties : List Property} (h : ∀ p ∈ properties, p.Spelled l kw sure) :
    (object properties).Spelled l kw sure := by
  intro depth owed rest hrest
  rw [Layout.exprForm, ExprForm.tokens, String.toList_append, String.toList_append, List.append_assoc,
    Blanks.within_ofOwed .rightBrace, Layout.properties_eq, Property.tokensOf_eq]
  exact .bracketed .leftBrace rfl
    (.listed (fun p hp behind hbehind => (h p hp).spells hbehind) rfl)

/-! ## Cases and continuations -/

theorem Scan.Lines.headed {head body others rest : List Char} {ts us vs : List Token}
    {p : Bool} (hl : l.Spaced) (hhead : ∀ behind, Spells kw sure owed head ts (':' :: behind))
    (hbody : Lines kw sure owed p body us (others ++ rest)) (hothers : Lines kw sure owed false others vs rest)
    (depth : Nat) :
    Lines kw sure owed false ((l.pad depth).toList ++ (head ++ ':' :: '\n' :: (body ++ others)))
      (ts ++ .ofSymbol .colon :: (us ++ vs)) rest := by
  have hcolon : ∀ behind, Spells kw sure owed [':'] [.ofSymbol .colon] behind := fun _ =>
    .symbol .colon trivial rfl rfl
  have hlines := Lines.line (((hhead _).append (hcolon _)).padded hl depth) (by simp) (hbody.append hothers)
  simpa using hlines

theorem Block.Spelled.caseBody {b : Block} (hl : l.Spaced) (h : b.Spelled l kw sure)
    (depth : Nat) (owed : List Symbol) (rest : List Char) :
    ∃ p, Lines kw sure owed p (l.caseBody depth b).toList (b.caseTokens kw (.ofOwed owed)) rest := by
  have htext : (l.caseBody depth b).toList = (l.block (depth + 2) b).toList ++
      if b.endsInGive then [] else (l.pad (depth + 2)).toList ++ "break\n".toList := by
    obtain ⟨id, span, body⟩ := b
    rw [Layout.caseBody, Layout.block, String.toList_append]
    split
    · rfl
    · rw [String.toList_append]
  rw [htext, Block.caseTokens_eq]
  cases b.endsInGive with
  | true =>
    rw [if_pos rfl, if_pos rfl, List.append_nil, List.append_nil]
    exact h (depth + 2) owed rest
  | false =>
    have hbreak : Lines kw sure owed false ((l.pad (depth + 2)).toList ++ "break\n".toList)
        [.ofKeyword .breakKw] rest := by
      have hnothing : Lines kw sure owed false [] [] rest := Lines.nil
      have hline := Lines.line ((Spells.keyword .breakKw rfl).padded hl (depth + 2)) (by simp) hnothing
      simpa [Keyword.text] using hline
    obtain ⟨p, hlines⟩ := h (depth + 2) owed (((l.pad (depth + 2)).toList ++ "break\n".toList) ++ rest)
    exact ⟨p, hlines.append hbreak⟩

def Case.Spelled (l : Layout) (kw : KeywordTable) (sure : Bool) (c : Case) : Prop :=
  (∀ e ∈ c.test, e.form.Spelled l kw sure) ∧ c.body.Spelled l kw sure

theorem Case.lines {cs : List Case} (hl : l.Spaced) (h : ∀ c ∈ cs, c.Spelled l kw sure)
    (depth : Nat) (owed : List Symbol) (rest : List Char) :
    Lines kw sure owed false (l.cases depth cs).toList (Case.tokensOf kw (.ofOwed owed) cs) rest := by
  induction cs with
  | nil => exact Lines.nil
  | cons c others ih =>
    obtain ⟨hc, hothers⟩ := List.forall_mem_cons.mp h
    obtain ⟨p, hbody⟩ := hc.2.caseBody hl depth owed ((l.cases depth others).toList ++ rest)
    obtain ⟨span, test, body⟩ := c
    cases test with
    | none =>
      have hlines := Lines.headed hl (fun _ => .keyword .defaultKw rfl) hbody (ih hothers)
        (depth + 1)
      simpa [Layout.cases, Case.tokensOf, Keyword.text] using hlines
    | some test =>
      have hlines := Lines.headed hl (fun _ => .keyword_spaced .caseKw
        ((hc.1 test rfl).expr (depth + 1) rfl)) hbody (ih hothers) (depth + 1)
      simpa [Layout.cases, Case.tokensOf, Keyword.text] using hlines

def Continuation.Spelled (l : Layout) (kw : KeywordTable) (sure : Bool) (c : Continuation) : Prop :=
  (∀ i ∈ c.params, IsName kw i.name) ∧ c.body.Spelled l kw sure

theorem Continuation.lines {cs : List Continuation} (hl : l.Spaced)
    (h : ∀ c ∈ cs, c.Spelled l kw sure) (depth : Nat) (owed : List Symbol) (rest : List Char) :
    Lines kw sure owed false (l.continuations depth cs).toList (Continuation.tokensOf kw (.ofOwed owed) cs)
      rest := by
  induction cs with
  | nil => exact Lines.nil
  | cons c others ih =>
    obtain ⟨hc, hothers⟩ := List.forall_mem_cons.mp h
    obtain ⟨p, hbody⟩ := hc.2 (depth + 1) owed ((l.continuations depth others).toList ++ rest)
    obtain ⟨span, params, body⟩ := c
    have hlines := Lines.headed hl (fun _ => .keyword_spaced .toKw (.params hc.1)) hbody
      (ih hothers) depth
    simpa [Layout.continuations, Layout.continuation, Continuation.tokensOf, Continuation.tokens,
      Keyword.text] using hlines

namespace ExprForm.Spelled

theorem switch {subject : Expr} {cases : List Case} (hl : l.Spaced)
    (hsubject : subject.form.Spelled l kw sure) (hcases : ∀ c ∈ cases, c.Spelled l kw sure) :
    (switch subject cases).Spelled l kw sure := by
  intro depth owed rest hrest
  have hcolon : ∀ behind, Spells kw sure owed [':'] [.ofSymbol .colon] behind := fun _ =>
    Spells.symbol .colon trivial rfl rfl
  have hspells := Spells.lines
    ((Spells.keyword_spaced .switchKw (hsubject.expr depth rfl)).append (hcolon _)) (by simp)
    (Case.lines hl hcases depth owed _)
    (.closing hl depth (Lexeme.wordEnds_of_operandEnds hrest)) (by simp)
  simpa [ExprForm.tokens, Keyword.text] using hspells

theorem run {call : Expr} {continuations : List Continuation} (hl : l.Spaced)
    (hcall : call.form.Spelled l kw sure) (hcontinuations : ∀ c ∈ continuations, c.Spelled l kw sure) :
    (run call continuations).Spelled l kw sure := by
  intro depth owed rest hrest
  cases continuations with
  | nil =>
    rw [Layout.exprForm, ExprForm.tokens, String.toList_append]
    exact .keyword_spaced .runKw (hcall.expr depth hrest)
  | cons first others =>
    have hspells := Spells.lines (Spells.keyword_spaced .runKw (hcall.expr depth rfl))
      (by simp) (Continuation.lines hl hcontinuations depth owed _)
      (.closing hl depth (Lexeme.wordEnds_of_operandEnds hrest)) (by simp)
    simpa [ExprForm.tokens, Layout.continuations, Continuation.tokensOf,
      Keyword.text] using hspells

end ExprForm.Spelled

/-! ## Statements -/

/-- **The text of a form of statement spells its tokens** up to the end of its last line. -/
def StmtForm.Spelled (l : Layout) (kw : KeywordTable) (sure : Bool) (form : StmtForm) : Prop :=
  ∀ depth owed rest, rest.head?.all (· == '\n') = true →
    Spells kw sure owed (l.stmtForm depth form).toList (form.tokens kw (.ofOwed owed)) rest

def Alternate.Spelled (l : Layout) (kw : KeywordTable) (sure : Bool) : Alternate → Prop
  | .block b => b.Spelled l kw sure
  | .branch s => s.form.Spelled l kw sure

theorem Layout.stmt_eq (l : Layout) (depth : Nat) (s : Stmt) : l.stmt depth s = l.stmtForm depth s.form := by
  cases s
  rfl

theorem Scan.Spells.called {called : Option Ident} (hcalled : ∀ i ∈ called, IsName kw i.name)
    (hrest : Lexeme.wordEnds rest = true) :
    Spells kw sure owed ((called.map fun n => " as " ++ n.name).getD "").toList (Ident.calledTokens called) rest := by
  cases called with
  | none => exact .nil
  | some other =>
    rw [Option.map_some, Option.getD_some, String.toList_append]
    exact (Spells.keyword_spaced .asKw (Spells.name (hcalled other rfl) hrest)).spaced

theorem Pick.spells {p : Pick} (h : p.WellFormed kw) (hrest : Lexeme.wordEnds rest = true) :
    Spells kw sure owed (Layout.pick p).toList p.tokens rest := by
  obtain ⟨name, called⟩ := p
  cases called with
  | none => exact .name h.1 hrest
  | some other =>
    rw [Layout.pick, String.toList_append, String.toList_append, List.append_assoc]
    exact (Spells.name h.1 rfl).append
      (Spells.keyword_spaced .asKw (Spells.name (h.2 other rfl) hrest)).spaced

namespace StmtForm.Spelled

theorem useModule {source : String} {called : Option Ident} {picks : List Pick}
    (hsource : IsQuotable source.toList) (hcalled : ∀ i ∈ called, IsName kw i.name)
    (hpicks : ∀ p ∈ picks, p.WellFormed kw) : (useModule source called picks).Spelled l kw sure := by
  intro depth owed rest hrest
  have hends := Lexeme.wordEnds_of_operandEnds (Lexeme.operandEnds_of_endLine hrest)
  have hlist : Spells kw sure owed
      (if picks.isEmpty then "" else " pick (" ++ ", ".intercalate (picks.map Layout.pick) ++ ")").toList
      (Pick.tokensOf picks) rest := by
    rw [Pick.tokensOf]
    split
    · exact .nil
    · rw [String.toList_append, String.toList_append, List.append_assoc]
      exact (Spells.keyword_spaced .pickKw (Spells.bracketed .leftParen rfl
        (Spells.listed (fun p hp behind hbehind =>
          Pick.spells (hpicks p hp) (Lexeme.wordEnds_of_operandEnds hbehind)) rfl))).spaced
  rw [Layout.stmtForm, Layout.useModule, StmtForm.tokens]
  simp only [String.toList_append, List.append_assoc]
  refine Spells.keyword_spaced .useKw ((Spells.quoted hsource).append
    ((Spells.called hcalled ?_).append hlist))
  split
  · exact hends
  · rw [String.toList_append, String.toList_append]
    rfl

theorem expose {declaration : Stmt} (h : declaration.form.Spelled l kw sure) : (expose declaration).Spelled l kw sure := by
  intro depth owed rest hrest
  rw [Layout.stmtForm, StmtForm.tokens, Layout.stmt_eq, Stmt.tokens_eq, String.toList_append]
  exact .keyword_spaced .exposeKw (h depth owed rest hrest)

variable {name : Ident}

theorem declared (hl : l.Spaced)
    (hname : IsName kw name.name) (hparams : ∀ i ∈ params, IsName kw i.name)
    (hbody : body.Spelled l kw sure) (depth : Nat) (owed : List Symbol)
    (hrest : rest.head?.all (· == '\n') = true) :
    Spells kw sure owed ("fn ".toList ++ (name.name.toList ++ '(' :: ((Layout.paramList params).toList ++
        ')' :: ':' :: '\n' :: ((l.block (depth + 1) body).toList ++
          ((l.pad depth).toList ++ "end".toList)))))
      (.ofKeyword .fnKw :: .ofName name.name :: .ofSymbol .leftParen ::
        (Ident.tokensOf params ++ .ofSymbol .rightParen :: .ofSymbol .colon ::
          (body.tokens kw (.ofOwed owed) ++ [.ofKeyword .endKw]))) rest := by
  have hends := Lexeme.wordEnds_of_operandEnds (Lexeme.operandEnds_of_endLine hrest)
  have hhead : ∀ behind, Spells kw sure owed ("fn ".toList ++ (name.name.toList ++
        '(' :: ((Layout.paramList params).toList ++ [')'])))
      (.ofKeyword .fnKw :: .ofName name.name :: .ofSymbol .leftParen ::
        (Ident.tokensOf params ++ [.ofSymbol .rightParen])) (':' :: behind) := fun _ =>
    Spells.keyword_spaced .fnKw ((Spells.name hname rfl).append (Spells.params hparams))
  have hspells := Spells.block hhead hbody (depth + 1) (Spells.closing hl depth hends) (by simp)
  simpa using hspells

theorem declareFunction (hl : l.Spaced) (hname : IsName kw name.name) (hparams : ∀ i ∈ params, IsName kw i.name)
    (hbody : body.Spelled l kw sure) : (declareFunction name params body).Spelled l kw sure := by
  intro depth owed rest hrest
  have hspells := declared hl hname hparams hbody depth owed hrest
  simpa [Layout.stmtForm, StmtForm.tokens] using hspells

theorem declareTask (hl : l.Spaced) (hname : IsName kw name.name) (hparams : ∀ i ∈ params, IsName kw i.name)
    (hbody : body.Spelled l kw sure) : (declareTask name params body).Spelled l kw sure := by
  intro depth owed rest hrest
  have hspells := Spells.keyword_spaced .taskKw
    (declared hl hname hparams hbody depth owed hrest)
  simpa [Layout.stmtForm, StmtForm.tokens, Keyword.text] using hspells

theorem declare {constant : Bool} {value : Expr} (hname : IsName kw name.name)
    (hvalue : value.form.Spelled l kw sure) : (declare name constant value).Spelled l kw sure := by
  intro depth owed rest hrest
  have hvalue : Spells kw sure owed (" = ".toList ++ (l.expr depth value).toList)
      (.ofSymbol .assign :: value.tokens kw (.ofOwed owed)) rest :=
    ((Spells.symbol .assign (by rintro ⟨⟩) rfl rfl).append
      (hvalue.expr depth (Lexeme.operandEnds_of_endLine hrest)).spaced).spaced
  rw [Layout.stmtForm, StmtForm.tokens]
  simp only [String.toList_append, List.append_assoc]
  cases constant with
  | true => exact Spells.keyword_spaced .constKw ((Spells.name hname rfl).append hvalue)
  | false => exact Spells.keyword_spaced .letKw ((Spells.name hname rfl).append hvalue)

theorem loop {key : Ident} {value : Option Ident} {iterated : Expr} (hl : l.Spaced) (hkey : IsName kw key.name)
    (hvalue : ∀ i ∈ value, IsName kw i.name) (hiterated : iterated.form.Spelled l kw sure)
    (hbody : body.Spelled l kw sure) : (loop key value iterated body).Spelled l kw sure := by
  intro depth owed rest hrest
  have hends := Lexeme.wordEnds_of_operandEnds (Lexeme.operandEnds_of_endLine hrest)
  have hsecond : ∀ behind, Spells kw sure owed ((value.map fun v => ", " ++ v.name).getD "").toList
      ((value.map fun v => [.ofSymbol .comma, .ofName v.name]).getD []) (' ' :: behind) := by
    intro behind
    cases value with
    | none => exact .nil
    | some other =>
      rw [Option.map_some, Option.getD_some, String.toList_append]
      exact (Spells.symbol .comma trivial rfl rfl).append (Spells.name (hvalue other rfl) rfl).spaced
  have hbehind : ∀ behind, Lexeme.wordEnds (((value.map fun v => ", " ++ v.name).getD "").toList ++
      ' ' :: behind) = true := by
    intro behind
    cases value with
    | none => rfl
    | some other =>
      rw [Option.map_some, Option.getD_some, String.toList_append]
      rfl
  have hhead : ∀ behind, Spells kw sure owed ("for ".toList ++ (key.name.toList ++
        (((value.map fun v => ", " ++ v.name).getD "").toList ++
          (" in ".toList ++ (l.expr depth iterated).toList))))
      (.ofKeyword .forKw :: .ofName key.name ::
        (((value.map fun v => [.ofSymbol .comma, .ofName v.name]).getD []) ++
          .ofKeyword .inKw :: iterated.tokens kw (.ofOwed owed))) (':' :: behind) := fun behind =>
    Spells.keyword_spaced .forKw ((Spells.name hkey (by rw [List.append_assoc]; exact hbehind _)).append
      ((hsecond _).append (Spells.keyword_spaced .inKw (hiterated.expr depth rfl)).spaced))
  have hspells := Spells.block hhead hbody (depth + 1) (Spells.closing hl depth hends) (by simp)
  simpa [Layout.stmtForm, StmtForm.tokens] using hspells

theorem give {value : Option Expr} (h : ∀ e ∈ value, e.form.Spelled l kw sure) : (give value).Spelled l kw sure := by
  intro depth owed rest hrest
  have hends := Lexeme.operandEnds_of_endLine hrest
  cases value with
  | none => exact .keyword .returnKw (Lexeme.wordEnds_of_operandEnds hends)
  | some e =>
    rw [Layout.stmtForm, StmtForm.tokens, String.toList_append]
    exact .keyword_spaced .returnKw ((h e rfl).expr depth hends)

theorem expression {e : Expr} (h : e.form.Spelled l kw sure) : (expression e).Spelled l kw sure := by
  intro depth owed rest hrest
  rw [Layout.stmtForm, StmtForm.tokens]
  exact h.expr depth (Lexeme.operandEnds_of_endLine hrest)

theorem comment {text : String} (h : IsComment text.toList) : (comment text).Spelled l kw sure :=
  fun _ _ _ hrest => .comment h hrest

theorem alternate {a : Alternate} (hl : l.Spaced) (h : a.Spelled l kw sure) (depth : Nat) (owed : List Symbol)
    (hrest : rest.head?.all (· == '\n') = true) :
    Spells kw sure owed (l.alternate depth a).toList (a.tokens kw (.ofOwed owed)) rest := by
  cases a with
  | block b =>
    have hends := Lexeme.wordEnds_of_operandEnds (Lexeme.operandEnds_of_endLine hrest)
    have hhead : ∀ behind, Spells kw sure owed "else".toList [.ofKeyword .elseKw] (':' :: behind) := fun _ =>
      .keyword .elseKw rfl
    have hspells := Spells.block hhead h (depth + 1) (Spells.closing hl depth hends) (by simp)
    simpa [Layout.alternate, Alternate.tokens] using hspells
  | branch s =>
    rw [Layout.alternate, Alternate.tokens, Layout.stmt_eq, Stmt.tokens_eq, String.toList_append]
    exact .keyword_spaced .elseKw (h depth owed rest hrest)

theorem branch {condition : Expr} {consequent : Block} {other : Option Alternate} (hl : l.Spaced)
    (hcondition : condition.form.Spelled l kw sure) (hconsequent : consequent.Spelled l kw sure)
    (hother : ∀ a ∈ other, a.Spelled l kw sure) : (branch condition consequent other).Spelled l kw sure := by
  intro depth owed rest hrest
  have hhead : ∀ behind, Spells kw sure owed ("if ".toList ++ (l.expr depth condition).toList)
      (.ofKeyword .ifKw :: condition.tokens kw (.ofOwed owed)) (':' :: behind) := fun _ =>
    .keyword_spaced .ifKw (hcondition.expr depth rfl)
  cases other with
  | none =>
    have hends := Lexeme.wordEnds_of_operandEnds (Lexeme.operandEnds_of_endLine hrest)
    have hspells := Spells.block hhead hconsequent (depth + 1) (Spells.closing hl depth hends) (by simp)
    simpa [Layout.stmtForm, StmtForm.tokens] using hspells
  | some a =>
    have hspells := Spells.block hhead hconsequent (depth + 1)
      ((alternate hl (hother a rfl) depth owed hrest).padded hl depth)
      (by cases a <;> simp [Alternate.tokens])
    simpa [Layout.stmtForm, StmtForm.tokens] using hspells

end StmtForm.Spelled

/-! ## Lines of statements -/

theorem Layout.block_eq (l : Layout) (depth : Nat) (b : Block) : l.block depth b = l.statements depth b.body := by
  cases b
  rfl

/-- **The lines of statements spell their tokens.** Blank lines are not doubled, so each of them stands
behind a token. -/
theorem Stmt.lines {body : List Stmt} {d : Dialect} (hl : l.Spaced) (hwf : Stmt.WellFormedOf d body)
    (h : ∀ s ∈ body, s.form.isBlankLine = false → s.form.Spelled l kw sure) (depth : Nat) (owed : List Symbol)
    (rest : List Char) :
    Lines kw sure owed (Stmt.startsBlank body) (l.statements depth body).toList
      (Stmt.tokensOf kw (.ofOwed owed) body) rest := by
  induction body with
  | nil => exact Lines.nil
  | cons s others ih =>
    obtain ⟨hs, hothers⟩ := List.forall_mem_cons.mp h
    have hlines := ih hwf.2.2.2 hothers
    have hnoDouble := hwf.2.2.1
    obtain ⟨id, span, form⟩ := s
    cases hblank : form.isBlankLine with
    | true =>
      cases form <;> cases hblank
      have htext : (l.statements depth (⟨id, span, .blankLine⟩ :: others)).toList =
          '\n' :: (l.statements depth others).toList := by
        simp [Layout.statements, Layout.stmtForm]
      rw [hnoDouble rfl] at hlines
      rw [htext]
      cases owed <;> exact Lines.blankLine hlines
    | false =>
      obtain ⟨t, ts, htokens, _⟩ := form.exists_tokens kw (.ofOwed owed)
      have hspells : Spells kw sure owed (l.stmtForm depth form).toList (form.tokens kw (.ofOwed owed))
          ('\n' :: ((l.statements depth others).toList ++ rest)) := hs hblank depth owed _ rfl
      have htext : (l.statements depth (⟨id, span, form⟩ :: others)).toList =
          ((l.pad depth).toList ++ (l.stmtForm depth form).toList) ++
            '\n' :: (l.statements depth others).toList := by
        cases form with
        | blankLine => cases hblank
        | _ => simp [Layout.statements]
      rw [htext, Stmt.startsBlank, hblank, Stmt.tokensOf, hblank]
      exact Lines.line (hspells.padded hl depth) (by rw [htokens]; exact List.cons_ne_nil _ _) hlines

theorem Block.Spelled.of_lines {b : Block} {d : Dialect} (hl : l.Spaced) (hwf : b.WellFormed d)
    (h : ∀ s ∈ b.body, s.form.isBlankLine = false → s.form.Spelled l kw sure) : b.Spelled l kw sure := by
  intro depth owed rest
  rw [Layout.block_eq, Block.tokens_eq]
  exact ⟨_, Stmt.lines hl (Block.wellFormed_iff.mp hwf) h depth owed rest⟩

theorem StmtForm.isBlankLine_of_isBranch (h : form.isBranch = true) : form.isBlankLine = false := by
  cases form <;> first | rfl | cases h

theorem StmtForm.isBlankLine_of_declaredName? (h : form.declaredName?.isSome = true) : form.isBlankLine = false := by
  cases form <;> first | rfl | cases h

/-! ## The recursion -/

variable {d : Dialect}

def Node.Spelled (l : Layout) (kw : KeywordTable) (sure : Bool) : Node → Prop
  | .expr e => e.form.Spelled l kw sure
  | .block b => b.Spelled l kw sure
  | .stmt s => s.form.isBlankLine = false → s.form.Spelled l kw sure

theorem ExprForm.spelled (hl : l.Spaced) {form : ExprForm} (hwf : form.WellFormed d)
    (hplain : sure = true → form.isPlain = true) (ih : ∀ c ∈ form.laid, c.Spelled l d.keywords sure) : form.Spelled l d.keywords sure := by
  cases form with
  | literal value => exact .literal hwf hplain
  | name word => exact .name hwf
  | template raw parts => exact .template hwf.quotable
  | array elements => exact .array fun e he => ih (.expr e) (List.mem_map_of_mem he)
  | object properties =>
    refine .object fun p hp => ?_
    have hvalue := ih _ (List.mem_map_of_mem hp)
    have own := Property.wellFormedOf_iff.mp hwf p hp
    obtain ⟨key, short, value⟩ := p
    cases short with
    | true => exact own.1.1
    | false => exact ⟨own.1.1, hvalue⟩
  | lambda params body => exact .lambda hl hwf.1 (ih _ (.head _))
  | negate operand => exact .negate (ih _ (.head _))
  | arithmetic left operator right => exact .arithmetic (ih _ (.head _)) (ih _ (.tail _ (.head _)))
  | compare left operator right => exact .compare (ih _ (.head _)) (ih _ (.tail _ (.head _)))
  | equal left negated right => exact .equal (ih _ (.head _)) (ih _ (.tail _ (.head _)))
  | assign target value => exact .assign (ih _ (.head _)) (ih _ (.tail _ (.head _)))
  | conditional condition consequent alternate =>
    exact .conditional (ih _ (.head _)) (ih _ (.tail _ (.head _))) (ih _ (.tail _ (.tail _ (.head _))))
  | range first last => exact .range (ih _ (.head _)) (ih _ (.tail _ (.head _)))
  | call callee arguments =>
    obtain ⟨hcallee, harguments⟩ := List.forall_mem_cons.mp ih
    exact .call hcallee fun e he => harguments (.expr e) (List.mem_map_of_mem he)
  | member receiver key => exact .member (ih _ (.head _)) hwf.2
  | index receiver key => exact .index (ih _ (.head _)) (ih _ (.tail _ (.head _)))
  | switch subject cases =>
    obtain ⟨hsubject, hcases⟩ := List.forall_mem_cons.mp ih
    exact .switch hl hsubject fun k hk => Case.forall_parts fun n hn =>
      hcases n (List.mem_flatMap.mpr ⟨k, hk, hn⟩)
  | run call continuations =>
    obtain ⟨hcall, hcontinuations⟩ := List.forall_mem_cons.mp ih
    refine .run hl hcall fun k hk => ⟨?_, List.forall_mem_map.mp hcontinuations k hk⟩
    have own := Continuation.wellFormedOf_iff.mp hwf.2.2 k hk
    cases k
    exact own.1
  | wait awaited => exact .wait (ih _ (.head _))

theorem StmtForm.spelled (hl : l.Spaced) (hwf : form.WellFormed d) (hblank : form.isBlankLine = false)
    (ih : ∀ c ∈ form.parts, c.Spelled l d.keywords sure) : form.Spelled l d.keywords sure := by
  cases form with
  | useModule source called picks => exact .useModule hwf.1 hwf.2.1 hwf.2.2
  | expose declaration =>
    exact .expose (ih (.stmt declaration) (.head _) (StmtForm.isBlankLine_of_declaredName? hwf.1))
  | declareTask name params body => exact .declareTask hl hwf.1 hwf.2.1 (ih _ (.head _))
  | declareFunction name params body => exact .declareFunction hl hwf.1 hwf.2.1 (ih _ (.head _))
  | declare name constant value => exact .declare hwf.1 (ih _ (.head _))
  | branch condition consequent alternate =>
    refine .branch hl (ih _ (.head _)) (ih _ (.tail _ (.head _))) ?_
    rintro a ⟨⟩
    cases a with
    | block b => exact ih (.block b) (.tail _ (.tail _ (.head _)))
    | branch s => exact ih (.stmt s) (.tail _ (.tail _ (.head _))) (StmtForm.isBlankLine_of_isBranch hwf.2.2.1)
  | loop key value iterated body => exact .loop hl hwf.1 hwf.2.1 (ih _ (.head _)) (ih _ (.tail _ (.head _)))
  | give value =>
    refine .give ?_
    rintro e ⟨⟩
    exact ih _ (.head _)
  | expression e => exact .expression (ih _ (.head _))
  | comment text => exact .comment hwf
  | blankLine => cases hblank

theorem Node.spelled (hl : l.Spaced) (n : Node) :
    n.WellFormed d → n.every (fun form => !sure || form.isPlain) = true → n.Spelled l d.keywords sure := by
  refine byLaid (fun n wf plain ih => ?_) n
  cases n with
  | expr e =>
    cases e
    refine ExprForm.spelled hl wf (fun hsure => ?_) ih
    simpa [hsure] using every_iff.mp plain _ (self_mem_all _)
  | block b => exact .of_lines hl wf (List.forall_mem_map.mp ih)
  | stmt s => cases s; exact fun blank => StmtForm.spelled hl wf blank ih

theorem Program.found_layout {p : Program} (hl : l.Spaced) (hwf : p.WellFormed d)
    (hplain : p.every (fun form => !sure || form.isPlain) = true) :
    (scan d.keywords (l.program p)).faults = [] ∧
      Token.Found d.keywords sure (p.tokens d.keywords) ((scan d.keywords (l.program p)).tokens.map Token.bare) := by
  have hlines := Stmt.lines hl hwf.2 (hwf.body (Node.spelled hl) hplain) 0 [] []
  obtain ⟨s, hmoved, _⟩ := hlines {} rfl rfl fun hblank => by
    rw [hwf.1] at hblank
    cases hblank
  have hrun : Scan.run d.keywords {} (l.program p).toList = s := by
    have hrun := hmoved.run
    rw [List.append_nil, Scan.run] at hrun
    exact hrun
  obtain ⟨us, htokens, hfound⟩ := hmoved.tokens
  rw [scan, hrun, Scan.finish]
  refine ⟨?_, ?_⟩
  · rw [hmoved.faults]
    rfl
  · rw [List.map_reverse, List.map_cons, List.reverse_cons, htokens, List.reverse_append, List.reverse_reverse]
    exact hfound.append (.single rfl)

/-- Up to what the table makes of the canonical names of keywords, the tokens of a plain program are found. -/
theorem Program.scan_layout {p : Program} (hl : l.Spaced) (hwf : p.WellFormed d)
    (hplain : p.every ExprForm.isPlain = true) :
    (scan d.keywords (l.program p)).faults = [] ∧
      (scan d.keywords (l.program p)).tokens.map Token.bare =
        (p.tokens d.keywords).map (Token.respelled d.keywords) := by
  have hplain : p.every (fun form => !true || form.isPlain) = true := by simpa using hplain
  obtain ⟨faults, found⟩ := found_layout hl hwf hplain
  exact ⟨faults, found.same rfl⟩

end Trellis
