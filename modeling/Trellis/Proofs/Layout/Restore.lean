import Trellis.Proofs.Layout.Statements

/-!
# Every layout can be read back

The lemmas for the forms of expressions and statements are put together here, by one recursion over trees:
the tokens of the layout of a well-formed and plain tree are read back as the tree. For a program the result
is `Program.restores`. The tree that is read has the places and identities of the new script, and it lacks
the blank lines that the layout puts inside brackets; apart from that it is the tree that was laid out.
-/

namespace Trellis

variable {d : Dialect}

/-! ## Operands that start like a run -/

mutual

theorem Expr.isRun_of_lead :
    (e : Expr) → e.every ExprForm.isPlain = true → Layout.strength e.form = 6 →
      e.lead = .keyword .runKw → e.form.isRun = true
  | ⟨_, form⟩, hplain, hstrength, hlead => by
    rw [Expr.every, Bool.and_eq_true] at hplain
    exact form.isRun_of_lead hplain.1 hplain.2 hstrength hlead

theorem ExprForm.isRun_of_lead :
    (form : ExprForm) → form.isPlain = true → form.inside ExprForm.isPlain = true →
      Layout.strength form = 6 → form.lead = .keyword .runKw → form.isRun = true
  | .run _ _, _, _, _, _ => rfl
  | .call callee _, hplain, hinside, _, hlead =>
    callee.absurd_leadOperand (Bool.and_eq_true_iff.mp hinside).1 (Bool.not_inj (y := false) hplain)
      hlead
  | .member receiver _, hplain, hinside, _, hlead =>
    receiver.absurd_leadOperand hinside (Bool.not_inj (y := false) hplain) hlead
  | .index receiver _, hplain, hinside, _, hlead =>
    receiver.absurd_leadOperand (Bool.and_eq_true_iff.mp hinside).1 (Bool.not_inj (y := false) hplain)
      hlead
  | .literal value, _, _, _, hlead => by
    cases value with
    | bool value => cases value <;> cases hlead
    | _ => cases hlead
  | .name _, _, _, _, hlead => nomatch hlead
  | .template _ _, _, _, _, hlead => nomatch hlead
  | .array _, _, _, _, hlead => nomatch hlead
  | .object _, _, _, _, hlead => nomatch hlead
  | .lambda _ _, _, _, _, hlead => nomatch hlead
  | .negate _, _, _, _, hlead => nomatch hlead
  | .switch _ _, _, _, _, hlead => nomatch hlead
  | .wait _, _, _, _, hlead => nomatch hlead
  | .arithmetic _ _ _, _, _, hstrength, _ => nomatch hstrength
  | .compare _ _ _, _, _, hstrength, _ => nomatch hstrength
  | .equal _ _ _, _, _, hstrength, _ => nomatch hstrength
  | .assign _ _, _, _, hstrength, _ => nomatch hstrength
  | .conditional _ _ _, _, _, hstrength, _ => nomatch hstrength
  | .range _ _, _, _, hstrength, _ => nomatch hstrength

theorem Expr.absurd_leadOperand {P : Prop} :
    (e : Expr) → e.every ExprForm.isPlain = true → e.form.isPrefix = false →
      e.leadOperand 6 = .keyword .runKw → P
  | ⟨_, form⟩, hplain, hnoPrefix, hlead => by
    rw [Expr.every, Bool.and_eq_true] at hplain
    rw [Expr.leadOperand] at hlead
    by_cases hweak : Layout.strength form < 6
    · rw [if_pos hweak] at hlead
      cases hlead
    · rw [if_neg hweak] at hlead
      have hstrength : Layout.strength form = 6 := by
        have := form.strength_le
        omega
      have hrun := form.isRun_of_lead hplain.1 hplain.2 hstrength hlead
      cases form with
      | run _ _ => cases hnoPrefix
      | _ => cases hrun

end

/-! ## The recursion -/

def Node.Restores (d : Dialect) : Node → Prop
  | .expr e => e.form.Restores d
  | .block b => b.Restores d
  | .stmt s => s.form.Restores d

theorem ExprForm.restores {form : ExprForm} (hwf : form.WellFormed d) (hplain : form.isPlain = true)
    (hinside : form.inside ExprForm.isPlain = true) (ih : ∀ c ∈ form.laid, c.Restores d) : form.Restores d := by
  cases form with
  | literal value => exact .literal hwf
  | name word => exact .name
  | template raw parts => exact .template hwf
  | array elements => exact .array fun e he => ih (.expr e) (List.mem_map_of_mem he)
  | object properties =>
    refine .object fun p hp => ?_
    have hvalue := ih _ (List.mem_map_of_mem hp)
    have own := Property.wellFormedOf_iff.mp hwf p hp
    obtain ⟨key, short, value⟩ := p
    cases short with
    | true => exact own.1.2
    | false => exact hvalue
  | lambda params body => exact .lambda (ih _ (.head _))
  | negate operand => exact .negate (ih _ (.head _))
  | arithmetic left operator right => exact .arithmetic (ih _ (.head _)) (ih _ (.tail _ (.head _)))
  | compare left operator right => exact .compare (ih _ (.head _)) (ih _ (.tail _ (.head _)))
  | equal left negated right => exact .equal (ih _ (.head _)) (ih _ (.tail _ (.head _)))
  | assign target value => exact .assign (ih _ (.head _)) (ih _ (.tail _ (.head _))) hwf.1
  | conditional condition consequent alternate =>
    exact .conditional (ih _ (.head _)) (ih _ (.tail _ (.head _))) (ih _ (.tail _ (.tail _ (.head _))))
  | range first last => exact .range (ih _ (.head _)) (ih _ (.tail _ (.head _)))
  | call callee arguments =>
    obtain ⟨hcallee, harguments⟩ := List.forall_mem_cons.mp ih
    exact .call hcallee (Bool.not_inj (y := false) hplain) fun e he =>
      harguments (.expr e) (List.mem_map_of_mem he)
  | member receiver key => exact .member (ih _ (.head _)) (Bool.not_inj (y := false) hplain)
  | index receiver key =>
    exact .index (ih _ (.head _)) (Bool.not_inj (y := false) hplain) (ih _ (.tail _ (.head _)))
  | switch subject cases =>
    obtain ⟨hsubject, hcases⟩ := List.forall_mem_cons.mp ih
    refine .switch hsubject fun k hk => ?_
    obtain ⟨htest, hbody⟩ := Case.forall_parts fun n hn => hcases n (List.mem_flatMap.mpr ⟨k, hk, hn⟩)
    exact ⟨htest, hbody⟩
  | run call continuations =>
    obtain ⟨hcall, hcontinuations⟩ := List.forall_mem_cons.mp ih
    exact .run hcall hwf.1 (fun k hk => hcontinuations (.block k.body) (List.mem_map_of_mem hk)) hplain
  | wait awaited => exact .wait (ih _ (.head _)) (awaited.isRun_of_lead hinside)

theorem StmtForm.restores {form : StmtForm} (hwf : form.WellFormed d) (ih : ∀ c ∈ form.parts, c.Restores d) :
    form.Restores d := by
  cases form with
  | useModule source called picks => exact .useModule
  | expose declaration => exact .expose (ih _ (.head _)) hwf.1
  | declareTask name params body => exact .declareTask (ih _ (.head _))
  | declareFunction name params body => exact .declareFunction (ih _ (.head _))
  | declare name constant value => exact .declare (ih _ (.head _))
  | branch condition consequent alternate =>
    refine .branch (ih _ (.head _)) (ih _ (.tail _ (.head _))) ?_
    rintro a ⟨⟩
    cases a with
    | block b => exact ih (.block b) (.tail _ (.tail _ (.head _)))
    | branch s => exact ⟨hwf.2.2.1, ih (.stmt s) (.tail _ (.tail _ (.head _)))⟩
  | loop key value iterated body => exact .loop (ih _ (.head _)) (ih _ (.tail _ (.head _)))
  | give value =>
    cases value with
    | none => exact .giveNothing
    | some value => exact .give (ih _ (.head _))
  | expression e => exact .expression (ih _ (.head _))
  | comment text => exact .comment
  | blankLine => exact .blankLine

theorem Node.restores (n : Node) : n.WellFormed d → n.every ExprForm.isPlain = true → n.Restores d := by
  refine byLaid (fun n wf plain ih => ?_) n
  cases n with
  | expr e =>
    cases e
    have both := Bool.and_eq_true_iff.mp plain
    exact ExprForm.restores wf both.1 both.2 ih
  | block b =>
    exact .of_statements (fun s hs => ih (.stmt s) (List.mem_map_of_mem hs)) (Block.wellFormed_iff.mp wf)
  | stmt s => cases s; exact StmtForm.restores wf ih

theorem Program.restores {p : Program} (hwf : p.WellFormed d) (hplain : p.every ExprForm.isPlain = true) :
    Gives d (Parse.program .tied) (p.tokens d.keywords) (·.bare .all = p.bare .outside) [.endOfFile] := by
  have hchain := Stmt.chain (b := .outside) (hwf.body Node.restores hplain) hwf.2
    (show ∀ t ∈ [], _ from nofun) (show Token.stops [] [.endOfFile] = true from rfl) nofun
  refine .bind .freshId fun _ _ => .bind_pure (Stmt.rounds (fun read => ?_) hchain) fun all hall => ?_
  · simp only [List.contains_nil, Bool.or_false]
  · rw [Program.bare, Stmt.bareOf_all, hall]
    rfl

end Trellis
