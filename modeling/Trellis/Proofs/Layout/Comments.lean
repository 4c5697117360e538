import Mathlib.Data.List.Basic
import Trellis.Proofs.Layout.Scanning

/-!
# The comments of a layout

A layout has the comments of its tree and no others. For its tokens that is seen form by form. Scanning need not find
these tokens, since the text of a number is not always read as the number, but it finds tokens with the same comments.
-/

namespace Trellis

/-! ## Comments of trees -/

mutual

/-- **The comments in an expression**, those in the functions, cases and continuations that are in it. What a
template holds is not laid out, and its comments are not counted. -/
def Expr.comments : Expr → List String
  | ⟨_, form⟩ => form.comments

def ExprForm.comments : ExprForm → List String
  | .literal _ => []
  | .name _ => []
  | .template _ _ => []
  | .array elements => Expr.commentsOf elements
  | .object properties => Property.commentsOf properties
  | .lambda _ body => body.comments
  | .negate operand => operand.comments
  | .arithmetic left _ right => left.comments ++ right.comments
  | .compare left _ right => left.comments ++ right.comments
  | .equal left _ right => left.comments ++ right.comments
  | .assign target value => target.comments ++ value.comments
  | .conditional condition consequent alternate =>
    condition.comments ++ consequent.comments ++ alternate.comments
  | .range first last => first.comments ++ last.comments
  | .call callee arguments => callee.comments ++ Expr.commentsOf arguments
  | .member receiver _ => receiver.comments
  | .index receiver key => receiver.comments ++ key.comments
  | .switch subject cases => subject.comments ++ Case.commentsOf cases
  | .run call continuations => call.comments ++ Continuation.commentsOf continuations
  | .wait awaited => awaited.comments

def Expr.commentsOf : List Expr → List String
  | [] => []
  | e :: rest => e.comments ++ Expr.commentsOf rest

def Property.commentsOf : List Property → List String
  | [] => []
  | ⟨_, _, value⟩ :: rest => value.comments ++ Property.commentsOf rest

def Case.commentsOf : List Case → List String
  | [] => []
  | ⟨_, none, body⟩ :: rest => body.comments ++ Case.commentsOf rest
  | ⟨_, some test, body⟩ :: rest => test.comments ++ body.comments ++ Case.commentsOf rest

def Continuation.commentsOf : List Continuation → List String
  | [] => []
  | ⟨_, _, body⟩ :: rest => body.comments ++ Continuation.commentsOf rest

def Block.comments : Block → List String
  | ⟨_, _, body⟩ => Stmt.commentsOf body

/-- **The comments in statements**, those that are statements and those that are in statements. -/
def Stmt.commentsOf : List Stmt → List String
  | [] => []
  | s :: rest => s.comments ++ Stmt.commentsOf rest

def Stmt.comments : Stmt → List String
  | ⟨_, _, form⟩ => form.comments

def StmtForm.comments : StmtForm → List String
  | .useModule _ _ _ => []
  | .expose declaration => declaration.comments
  | .declareTask _ _ body => body.comments
  | .declareFunction _ _ body => body.comments
  | .declare _ _ value => value.comments
  | .branch condition consequent none => condition.comments ++ consequent.comments
  | .branch condition consequent (some alternate) =>
    condition.comments ++ consequent.comments ++ alternate.comments
  | .loop _ _ iterated body => iterated.comments ++ body.comments
  | .give none => []
  | .give (some value) => value.comments
  | .expression e => e.comments
  | .comment text => [text]
  | .blankLine => []

def Alternate.comments : Alternate → List String
  | .block b => b.comments
  | .branch s => s.comments

end

def Program.comments (p : Program) : List String :=
  Stmt.commentsOf p.body

theorem Expr.commentsOf_eq (es : List Expr) : Expr.commentsOf es = es.flatMap Expr.comments :=
  eq_flatMap_of_cons rfl (fun _ _ => rfl) es

theorem Property.commentsOf_eq (ps : List Property) : Property.commentsOf ps = ps.flatMap fun p => p.value.comments :=
  eq_flatMap_of_cons rfl (fun ⟨_, _, _⟩ _ => rfl) ps

/-! ## Comments of tokens -/

namespace Token

variable (kw : KeywordTable) (ts : List Token)

@[simp] theorem comments_nil : comments [] = [] := rfl

@[simp] theorem comments_symbol (s : Symbol) : comments (ofSymbol s :: ts) = comments ts := rfl

@[simp] theorem comments_keyword (k : Keyword) : comments (ofKeyword k :: ts) = comments ts := rfl

@[simp] theorem comments_name (word : String) : comments (ofName word :: ts) = comments ts := rfl

@[simp] theorem comments_text (text : String) : comments (ofText text :: ts) = comments ts := rfl

@[simp] theorem comments_word (word : String) : comments (ofWord kw word :: ts) = comments ts := by
  rw [← List.singleton_append, comments_append, comments_ofWord, List.nil_append]

@[simp] theorem comments_key (key : String) : comments (ofKey kw key :: ts) = comments ts := by
  unfold ofKey
  split
  · exact comments_word kw ts key
  · rfl

theorem comments_guarded (bracketed : Bool) : comments (guarded bracketed ts) = comments ts := by
  cases bracketed with
  | true => simp [guarded, comments_append]
  | false => rfl

theorem comments_listed (items : List (List Token)) : comments (listed items) = items.flatMap comments := by
  fun_induction listed items with
  | case1 => rfl
  | case2 item => simp
  | case3 item next rest ih => simp [comments_append, ih]

end Token

/-! ## The recursion -/

variable {d : Dialect} {kw : KeywordTable} {b : Blanks}

def Node.Commented : Node → Prop
  | .expr e => ∀ kw b, Token.comments (e.tokens kw b) = e.comments
  | .block body => ∀ kw b, Token.comments (body.tokens kw b) = body.comments
  | .stmt s => ∀ kw b, Token.comments (s.tokens kw b) = s.comments

theorem Ident.comments_tokensOf (params : List Ident) : Token.comments (Ident.tokensOf params) = [] := by
  simp [Ident.tokensOf, Token.comments_listed, List.flatMap_map]

theorem Expr.comments_tokensOf {es : List Expr} (h : ∀ e ∈ es, (Node.expr e).Commented) :
    Token.comments (Token.listed (Expr.tokensOf kw b es)) = Expr.commentsOf es := by
  rw [Token.comments_listed, Expr.tokensOf_eq, Expr.commentsOf_eq, List.flatMap_map]
  exact List.flatMap_congr fun e he => h e he kw b

theorem Property.comments_tokensOf {ps : List Property} (hwf : Property.WellFormedOf d ps)
    (h : ∀ p ∈ ps, (Node.expr p.value).Commented) :
    Token.comments (Token.listed (Property.tokensOf kw b ps)) = Property.commentsOf ps := by
  rw [Token.comments_listed, Property.tokensOf_eq, Property.commentsOf_eq, List.flatMap_map]
  refine List.flatMap_congr fun p hp => ?_
  have own := Property.wellFormedOf_iff.mp hwf p hp
  have value := h p hp kw b
  obtain ⟨key, short, span, form⟩ := p
  cases short with
  | true =>
    obtain ⟨⟨-, rfl⟩, -⟩ := own
    rfl
  | false => simpa [Property.tokens] using value

theorem Block.comments_caseTokens {body : Block} (h : (Node.block body).Commented) :
    Token.comments (body.caseTokens kw b) = body.comments := by
  rw [Block.caseTokens_eq, Token.comments_append, h kw b]
  split <;> simp

theorem Case.comments_tokensOf {cs : List Case} (h : ∀ c ∈ cs, ∀ n ∈ c.parts, n.Commented) :
    Token.comments (Case.tokensOf kw b cs) = Case.commentsOf cs := by
  induction cs with
  | nil => rfl
  | cons c rest ih =>
    obtain ⟨hc, hrest⟩ := List.forall_mem_cons.mp h
    obtain ⟨htest, hbody⟩ := Case.forall_parts hc
    have later := ih hrest
    have body : Token.comments (c.body.caseTokens kw b) = _ := Block.comments_caseTokens hbody
    obtain ⟨span, test, block⟩ := c
    cases test with
    | none => simp [Case.tokensOf, Case.commentsOf, Token.comments_append, body, later]
    | some test => simp [Case.tokensOf, Case.commentsOf, Token.comments_append, htest test rfl kw b, body, later]

theorem Continuation.comments_tokensOf {cs : List Continuation} (h : ∀ c ∈ cs, (Node.block c.body).Commented) :
    Token.comments (Continuation.tokensOf kw b cs) = Continuation.commentsOf cs := by
  induction cs with
  | nil => rfl
  | cons c rest ih =>
    obtain ⟨hc, hrest⟩ := List.forall_mem_cons.mp h
    have own := hc kw b
    obtain ⟨span, params, body⟩ := c
    simp [Continuation.tokensOf, Continuation.tokens, Continuation.commentsOf, Token.comments_append,
      Ident.comments_tokensOf, own, ih hrest]

theorem Stmt.comments_tokensOf {body : List Stmt} (h : ∀ s ∈ body, (Node.stmt s).Commented) :
    Token.comments (Stmt.tokensOf kw b body) = Stmt.commentsOf body := by
  induction body with
  | nil => rfl
  | cons s rest ih =>
    obtain ⟨hs, hrest⟩ := List.forall_mem_cons.mp h
    rw [Stmt.tokensOf_cons, Stmt.commentsOf, ← ih hrest, ← hs kw b]
    split
    · rename_i blank
      obtain ⟨id, span, form⟩ := s
      cases form <;> first | rfl | cases blank
    · exact Token.comments_append _ _

theorem ExprForm.comments_tokens {form : ExprForm} (hwf : form.WellFormed d) (ih : ∀ c ∈ form.laid, c.Commented) :
    Token.comments (form.tokens kw b) = form.comments := by
  cases form with
  | literal value =>
    cases value with
    | bool value => cases value <;> rfl
    | _ => rfl
  | name word => rfl
  | template raw parts => rfl
  | array elements => simp [tokens, comments, Token.comments_append, Expr.comments_tokensOf (List.forall_mem_map.mp ih)]
  | object properties =>
    simp [tokens, comments, Token.comments_append, Property.comments_tokensOf hwf (List.forall_mem_map.mp ih)]
  | call callee arguments =>
    obtain ⟨hcallee, harguments⟩ := List.forall_mem_cons.mp ih
    simp [tokens, comments, Token.comments_append, Expr.operandTokens_eq, Token.comments_guarded, hcallee _ _,
      Expr.comments_tokensOf (List.forall_mem_map.mp harguments)]
  | switch subject cases =>
    obtain ⟨hsubject, hcases⟩ := List.forall_mem_cons.mp ih
    have all : Token.comments (Case.tokensOf kw b cases) = _ :=
      Case.comments_tokensOf fun c hc n hn => hcases n (List.mem_flatMap.mpr ⟨c, hc, hn⟩)
    simp [tokens, comments, Token.comments_append, hsubject _ _, all]
  | run call continuations =>
    obtain ⟨hcall, hcontinuations⟩ := List.forall_mem_cons.mp ih
    have all : Token.comments (Continuation.tokensOf kw b continuations) = _ :=
      Continuation.comments_tokensOf (List.forall_mem_map.mp hcontinuations)
    rw [ExprForm.tokens_run, comments, ← all]
    cases continuations <;> simp [Token.comments_append, hcall _ _, Continuation.tokensOf]
  | _ =>
    simp only [laid, parts, List.forall_mem_cons, Node.Commented] at ih
    simp [tokens, comments, Token.comments_append, Expr.operandTokens_eq, Token.comments_guarded,
      Ident.comments_tokensOf, ih]

theorem StmtForm.comments_tokens {form : StmtForm} (ih : ∀ c ∈ form.parts, c.Commented) :
    Token.comments (form.tokens kw b) = form.comments := by
  cases form with
  | useModule source called picks =>
    have picked (p : Pick) : Token.comments p.tokens = [] := by
      obtain ⟨name, called⟩ := p
      cases called <;> rfl
    have list : Token.comments (Pick.tokensOf picks) = [] := by
      unfold Pick.tokensOf
      split
      · rfl
      · simp [Token.comments_append, Token.comments_listed, List.flatMap_map, picked]
    cases called <;> simp [tokens, comments, Ident.calledTokens, list]
  | branch condition consequent alternate =>
    obtain _ | _ | _ := alternate <;>
      simp only [parts, Option.toList, List.flatMap_nil, List.flatMap_cons, Alternate.parts, List.append_nil,
        List.forall_mem_cons, Node.Commented] at ih <;>
      simp [tokens, comments, Alternate.tokens, Alternate.comments, Token.comments_append, ih]
  | loop key value iterated body =>
    simp only [parts, List.forall_mem_cons, Node.Commented] at ih
    cases value <;> simp [tokens, comments, Token.comments_append, ih]
  | give value =>
    cases value with
    | none => rfl
    | some value => exact ih (.expr value) (.head _) kw b
  | comment text => rfl
  | blankLine => rfl
  | _ =>
    simp only [parts, List.forall_mem_cons, Node.Commented] at ih
    simp [tokens, comments, Token.comments_append, Ident.comments_tokensOf, ih]

theorem Node.commented (n : Node) : n.WellFormed d → n.every (fun _ => true) = true → n.Commented := by
  refine byLaid (fun n wf _ ih => ?_) n
  cases n with
  | expr e => cases e; exact fun _ _ => ExprForm.comments_tokens wf ih
  | block b => cases b; exact fun _ _ => Stmt.comments_tokensOf (List.forall_mem_map.mp ih)
  | stmt s => cases s; exact fun _ _ => StmtForm.comments_tokens ih

theorem Program.comments_layout {l : Layout} (hl : l.Spaced) {p : Program} (hwf : p.WellFormed d) :
    Token.comments (scan d.keywords (l.program p)).tokens = p.comments := by
  have every : p.every (fun form => !false || form.isPlain) = true := Program.every_iff.mpr fun _ _ => rfl
  have found := (Program.found_layout hl hwf every).2.comments
  rw [Token.comments_map_bare, Program.tokens, Token.comments_append,
    Stmt.comments_tokensOf (hwf.body Node.commented every)] at found
  exact found.trans (List.append_nil _)

end Trellis
