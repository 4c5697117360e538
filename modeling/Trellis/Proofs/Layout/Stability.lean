import Trellis.Proofs.Layout.Kept
import Trellis.Proofs.Layout.RoundTrip

/-!
# Laying out a script again

A script that is laid out should stay as it is when it is laid out once more. That is not so for every script
that can be read, and there are three reasons:

* the layout leaves out parentheses that it should have written, so that what it writes may not be read at
  all: the trees where this does not happen are the plain ones (`ExprForm.isPlain`);
* it writes keywords with their canonical names, which the table of keywords may not have
  (`Program.Writable`);
* it puts parentheses around expressions that had none, and with them around blank lines, which are not seen
  there when the text is read again.

The first two are conditions. Under these a text is left as it is after laying out twice at the latest, and
what the second time changes is that the blank lines inside brackets go. A script that has none of them is
left as it is after the first time. At the end stands a script for each of the reasons.
-/

namespace Trellis

/-! ## The tree that comes back -/

/-- **One program is what comes back of another** when this is laid out and read: there are no blank lines
inside brackets, and else they differ only in places and identities. -/
def Program.Returns (p p' : Program) : Prop :=
  p'.bare .all = p.bare .outside

namespace Program.Returns

variable {p p' : Program} (h : p.Returns p')

include h

theorem every {c : ExprForm → Bool} (hc : ExprForm.Placeless c) (hp : p.every c = true) : p'.every c = true := by
  rw [← Program.every_bare hc .all, h, Program.every_bare hc, hp]

theorem writable {kw : KeywordTable} (hp : p.Writable kw) : p'.Writable kw := by
  have htokens : p'.tokens kw = p.tokens kw := by
    rw [← Program.tokens_bare kw (Blanks.le_all _), h, Program.tokens_bare kw Blanks.le_rfl]
  rw [Program.Writable, htokens]
  exact hp

theorem layout (l : Layout) : l.program p' = l.program (p.bare .outside) := by
  rw [← l.program_bare, h]

theorem bare_outside : p'.bare .outside = p.bare .outside := by
  calc p'.bare .outside = (p'.bare .all).bare .outside := (Program.bare_bare (.inr rfl) p').symm
    _ = (p.bare .outside).bare .outside := by rw [h]
    _ = p.bare .outside := Program.bare_outside_bare p

end Program.Returns

/-! ## The text that comes back -/

def Layout.script? (l : Layout) (d : Dialect) (source : String) : Option String :=
  match readScript d.keywords d.matching source with
  | .done p _ => some (l.program p)
  | .failed _ _ => none
  | .exhausted => none

section

variable {l : Layout} {d : Dialect} {source : String} {p : Program} {q : Parser}

theorem Layout.script?_of_done (h : readScript d.keywords d.matching source = .done p q) :
    l.script? d source = some (l.program p) := by
  rw [Layout.script?, h]

theorem Layout.script?_program (hl : l.Spaced)
    (hread : readScript d.keywords d.matching source = .done p q)
    (hplain : p.every ExprForm.isPlain = true) (hwritable : p.Writable d.keywords) :
    l.script? d (l.program p) = some (l.program (p.bare .outside)) := by
  obtain ⟨p', q', hreread, hreturns⟩ := readScript_layout hl hread hplain hwritable
  rw [Layout.script?_of_done hreread, Program.Returns.layout hreturns]

/-- **Laying out settles.** The layout of a script that was read can be laid out in its turn, and the text
that this gives is left as it is from then on. It is the first text without the blank lines inside brackets,
and so the first text itself if that has none. -/
theorem Layout.script?_settles (hl : l.Spaced)
    (hread : readScript d.keywords d.matching source = .done p q)
    (hplain : p.every ExprForm.isPlain = true) (hwritable : p.Writable d.keywords) :
    l.script? d source = some (l.program p) ∧
      l.script? d (l.program p) = some (l.program (p.bare .outside)) ∧
      l.script? d (l.program (p.bare .outside)) = some (l.program (p.bare .outside)) ∧
      (p.bare .outside = p.bare .all → l.script? d (l.program p) = some (l.program p)) := by
  have hsecond := Layout.script?_program hl hread hplain hwritable
  refine ⟨Layout.script?_of_done hread, hsecond, ?_, fun hnone => ?_⟩
  · obtain ⟨p', q', hreread, hreturns⟩ := readScript_layout hl hread hplain hwritable
    have hreturns : p.Returns p' := hreturns
    -- The tree that came back meets the conditions as well, and has no more blank lines to lose.
    have hthird := Layout.script?_program hl hreread (hreturns.every ExprForm.isPlain_bare hplain)
      (hreturns.writable hwritable)
    rwa [hreturns.layout l, hreturns.bare_outside] at hthird
  · rw [hsecond, hnone, l.program_bare]

end

/-- The parentheses around an assignment are added, and the blank line in the function goes the next time. -/
theorem Layout.script?_settles_assignedFunction :
    ∃ p q, readScript .default .strict "a == b = fn():\n    x\n\n    y\nend\n" = .done p q ∧
      ({} : Layout).script? ⟨.default, .strict⟩ (({} : Layout).program p) =
        some (({} : Layout).program (p.bare .outside)) ∧
      ({} : Layout).script? ⟨.default, .strict⟩ (({} : Layout).program (p.bare .outside)) =
        some (({} : Layout).program (p.bare .outside)) := by
  have hcheck : (match readScript .default .strict "a == b = fn():\n    x\n\n    y\nend\n" with
      | .done p _ => p.every ExprForm.isPlain
      | _ => false) = true := by
    decide +kernel
  split at hcheck
  · rename_i p q hread
    have hsettles := Layout.script?_settles (d := ⟨.default, .strict⟩) Layout.spaced_default hread hcheck
      (KeywordTable.canonical_default.writable p)
    exact ⟨p, q, hread, hsettles.2.1, hsettles.2.2.1⟩
  · cases hcheck

/-- **Not every script settles.** A run in front of a member loses its parentheses and cannot be read then,
and neither can a keyword with its canonical name where it has another one. A blank line in an assigned
function, around which parentheses are put, goes only the second time. -/
theorem Layout.script?_unsettled :
    (({} : Layout).script? ⟨.default, .strict⟩ "(run f()).x\n" = some "run f().x\n" ∧
      ({} : Layout).script? ⟨.default, .strict⟩ "run f().x\n" = none) ∧
    (({} : Layout).script? ⟨.ofOverrides [("fn", "func")], .strict⟩ "func f():\nend\n" = some "fn f():\nend\n" ∧
      ({} : Layout).script? ⟨.ofOverrides [("fn", "func")], .strict⟩ "fn f():\nend\n" = none) ∧
    ({} : Layout).script? ⟨.default, .strict⟩ "a == b = fn():\n    x\n\n    y\nend\n" =
        some "a == (b = fn():\n    x\n\n    y\nend)\n" ∧
      ({} : Layout).script? ⟨.default, .strict⟩ "a == (b = fn():\n    x\n\n    y\nend)\n" =
        some "a == (b = fn():\n    x\n    y\nend)\n" := by
  decide +kernel

end Trellis
