import Trellis.Proofs.Grammar.Steady

/-!
# Lenient matching extends strict matching

Where the grammar asks for a token that is not there, strict matching gives up, and lenient matching discards tokens
until the one that was asked for is found or too many are gone. So a script that is accepted by strict matching is
read by lenient matching as the same tree, and a higher limit never turns a script that was accepted into another
one. Both are cases of two readings in step. A limit of zero is an exact stride, so the faults agree as well.
-/

namespace Trellis

/-- What an action comes to, whatever the state behind it: a value or a fault, unless it is exhausted. -/
def Outcome.result? {σ α : Type} : Outcome σ α → Option (Except Fault α)
  | .done a _ => some (.ok a)
  | .failed fault _ => some (.error fault)
  | .exhausted => none

def Parser.matchingBy (p : Parser) (mode : MatchMode) : Parser :=
  { p with matching := mode }

/-- **Lenient matching extends strict matching in an action.** With a limit of zero it comes to the same
value or to the same fault, and a higher limit keeps every value. -/
def Parse.ExtendsStrict {α : Type} (x : Parse α) : Prop :=
  ∀ p : Parser,
    (x (p.matchingBy (.lenient 0))).result? = (x (p.matchingBy .strict)).result? ∧
      ∀ l l' : Nat, l ≤ l' → ∀ a q, x (p.matchingBy (.lenient l)) = .done a q →
        ∃ q', x (p.matchingBy (.lenient l')) = .done a q'

theorem Parser.inStep_matchingBy {c : Stride} (hahead : c.ahead = 0) (p : Parser)
    (mode mode' : MatchMode) (hle : mode.limit ≤ mode'.limit)
    (hexact : c.exact = true → mode'.limit = mode.limit) :
    (p.matchingBy mode).InStep c true (p.matchingBy mode') where
  tokens := rfl
  endSpan := rfl
  keywords := rfl
  log := rfl
  nextId := by
    rw [Stride.move, hahead]
    rfl
  discards := hle
  exact := hexact
  lastSpan := fun _ => rfl

/-- An action that keeps in step extends strict matching, if moving identities by nothing changes
nothing. -/
theorem Parse.ExtendsStrict.of_inStep {α : Type} {x : Parse α} {f : (NodeId → NodeId) → α → α}
    (hf : ∀ a, f (fun i => i) a = a) (h : ∀ c, Parse.InStep c true true (f c.move) x x) :
    x.ExtendsStrict := by
  have hmove (exact : Bool) (a : α) : f (Stride.mk 0 exact).move a = a := hf a
  intro p
  constructor
  · have hread := h ⟨0, true⟩ _ _ (p.inStep_matchingBy rfl .strict (.lenient 0) (Nat.le_refl 0) fun _ => rfl)
    cases hstrict : x (p.matchingBy .strict) with
    | done a q =>
      rw [hstrict] at hread
      obtain ⟨q', hlenient, _⟩ := hread
      rw [hlenient, hmove]
      rfl
    | failed fault q =>
      rw [hstrict] at hread
      obtain ⟨q', hlenient, _⟩ := hread rfl
      rw [hlenient]
      rfl
    | exhausted =>
      rw [hstrict] at hread
      rw [hread rfl]
  · intro l l' hle a q hdone
    have hread := h ⟨0, false⟩ _ _ (p.inStep_matchingBy rfl (.lenient l) (.lenient l') hle nofun)
    rw [hdone] at hread
    obtain ⟨q', hwider, _⟩ := hread
    rw [hmove] at hwider
    exact ⟨q', hwider⟩

/-- **Lenient matching extends strict matching**, for programs and for expressions, and inside the slots of
templates, however deep the grammar goes there. -/
theorem Parse.extendsStrict_reading :
    ExtendsStrict Parser.readProgram ∧ ExtendsStrict Parser.readExpression ∧
      (∀ depth raw span, ExtendsStrict (template (Rules.ofDepth depth) raw span)) ∧
      ∀ depth text source offset, ExtendsStrict (slot (Rules.ofDepth depth) text source offset) := by
  refine ⟨?_, ?_, fun depth raw span => ?_, fun depth text source offset => ?_⟩
  · exact .of_inStep Program.renumber_id fun _ => Parser.inStep_readProgram
  · exact .of_inStep Expr.renumber_id fun _ => Parser.inStep_readExpression
  · exact .of_inStep Expr.renumber_id fun c => .template (Rules.steady_ofDepth c depth) raw span
  · exact .of_inStep Expr.renumber_id fun c => .slot (Rules.steady_ofDepth c depth) text source offset

end Trellis
