import Trellis.Proofs.Grammar.MakesStatements
import Trellis.Proofs.Layout.Restore
import Trellis.Proofs.Layout.Scanning

/-!
# Reading, laying out and reading again

A script that was read is laid out, and the text is read in its turn. The first reading makes a well-formed program
(`Rules.Makes.program`), scanning the layout finds its tokens (`Program.scan_layout`), and these are read back as the
program (`Program.restores`), without the blank lines inside brackets. The layout writes keywords with their
canonical names, so it can only be read back under a table that has the names that are written (`Program.Writable`).
-/

namespace Trellis

def KeywordTable.Canonical (kw : KeywordTable) : Prop :=
  ∀ k : Keyword, kw.find? k.text = some k

theorem KeywordTable.canonical_default : KeywordTable.default.Canonical := by
  intro k
  cases k <;> rfl

theorem KeywordTable.Canonical.respelled {kw : KeywordTable} (h : kw.Canonical) (t : Token) : t.respelled kw = t := by
  obtain ⟨kind, lexeme, span⟩ := t
  cases kind with
  | keyword k =>
    by_cases hlexeme : lexeme = k.text
    · subst hlexeme
      simp only [Token.respelled, if_true, Token.ofWord, h k]
    · simp only [Token.respelled, if_neg hlexeme]
  | _ => rfl

/-- **A program whose layout uses only keywords that the table spells with their canonical names.** -/
def Program.Writable (kw : KeywordTable) (p : Program) : Prop :=
  ∀ t ∈ p.tokens kw, t.respelled kw = t

theorem KeywordTable.Canonical.writable {kw : KeywordTable} (h : kw.Canonical) (p : Program) : p.Writable kw :=
  fun t _ => h.respelled t

/-! ## Reading a script -/

section

variable {d : Dialect} {source : String} {p : Program} {q : Parser}

theorem Parser.holds_scan (d : Dialect) (source : String) :
    Parser.Holds d
      { Parser.ofTokens (scan d.keywords source).tokens with
        keywords := d.keywords
        matching := d.matching
        log := {} } ((scan d.keywords source).tokens.map Token.bare) :=
  ⟨rfl, rfl, rfl⟩

theorem Program.wellFormed_of_readScript
    (h : readScript d.keywords d.matching source = .done p q) : p.WellFormed d := by
  unfold readScript at h
  cases hfault : (scan d.keywords source).fault? with
  | some fault =>
    simp only [hfault] at h
    cases h
  | none =>
    simp only [hfault, Parser.readProgram] at h
    split at h
    · rename_i program q' hprogram
      cases h
      obtain ⟨rest, _, _, hwf⟩ := (Rules.makes_ofDepth d _).program (source_scan d.keywords source)
        (apart_scan d.keywords source) _ _ _ (Parser.holds_scan d source) hprogram
      exact hwf
    · cases h
    · cases h

theorem readScript_of_gives {ts rest : List Token} {P : Program → Prop}
    (hfaults : (scan d.keywords source).faults = [])
    (htokens : (scan d.keywords source).tokens.map Token.bare = ts)
    (h : Gives d (Parse.program .tied) ts P rest) :
    ∃ p q, readScript d.keywords d.matching source = .done p q ∧ P p := by
  have hholds := Parser.holds_scan d source
  rw [htokens] at hholds
  obtain ⟨p, q, hdone, _, hp⟩ := h _ hholds
  have hfault : (scan d.keywords source).fault? = none := by
    rw [Scanned.fault?, hfaults]
    rfl
  refine ⟨p, q, ?_, hp⟩
  unfold readScript
  simp only [hfault, Parser.readProgram_tied, Parse.withOwnLog_done]
  exact hdone

/-- **The layout of a program that was read can be read in its turn**, and what comes out is the program but
for the blank lines inside brackets. -/
theorem readScript_layout {l : Layout} (hl : l.Spaced)
    (hread : readScript d.keywords d.matching source = .done p q)
    (hplain : p.every ExprForm.isPlain = true) (hwritable : p.Writable d.keywords) :
    ∃ p' q', readScript d.keywords d.matching (l.program p) = .done p' q' ∧
      p'.bare .all = p.bare .outside := by
  have hwf := Program.wellFormed_of_readScript hread
  obtain ⟨hfaults, htokens⟩ := Program.scan_layout hl hwf hplain
  rw [List.map_congr_left hwritable, List.map_id'] at htokens
  exact readScript_of_gives hfaults htokens (Program.restores hwf hplain)

end

theorem Layout.spaced_default : ({} : Layout).Spaced := by
  have hall : ({} : Layout).indent.toList.all (· == ' ') = true := rfl
  intro c hc
  exact beq_iff_eq.mp (List.all_eq_true.mp hall c hc)

/-- **Reading, laying out and reading again gives the same tree.** It is the same up to spans, identities and
blank lines, under three conditions on the expressions in it: the text of every number is read as the number,
no negation, wait or run has arguments, a member or an index without parentheses around it, and nothing is
run inside of continuations. -/
theorem Program.reread_layout {source : String} {p : Program} {q : Parser}
    (hread : readScript .default .strict source = .done p q)
    (hnumbers : p.every ExprForm.numberRereads = true)
    (hreceivers : p.every ExprForm.receiverStands = true)
    (hruns : p.every ExprForm.continuesWithoutRuns = true) :
    ∃ p' q', readScript .default .strict (({} : Layout).program p) = .done p' q' ∧
      p'.bare .none = p.bare .none := by
  obtain ⟨p', q', hreread, hbare⟩ := readScript_layout (d := ⟨.default, .strict⟩) Layout.spaced_default
    hread (Program.isPlain_of_conditions hnumbers hreceivers hruns)
    (KeywordTable.canonical_default.writable p)
  refine ⟨p', q', hreread, ?_⟩
  calc p'.bare .none = (p'.bare .all).bare .none := (Program.bare_bare (.inr rfl) p').symm
    _ = (p.bare .outside).bare .none := by rw [hbare]
    _ = p.bare .none := Program.bare_bare (.inl rfl) p

/-- Numbers, a negation in front of a member, and a task that is run with a continuation. -/
theorem Program.reread_layout_task :
    ∃ p q, readScript .default .strict
        "let x = -(1.5 + 2) * y.z\n\n# a task\nrun f(x)\nto (r):\n    \x7ba: r\x7d\nend\n" = .done p q ∧
      ∃ p' q', readScript .default .strict (({} : Layout).program p) = .done p' q' ∧
        p'.bare .none = p.bare .none := by
  have hcheck : (match readScript .default .strict
        "let x = -(1.5 + 2) * y.z\n\n# a task\nrun f(x)\nto (r):\n    \x7ba: r\x7d\nend\n" with
      | .done p _ => p.every ExprForm.numberRereads && p.every ExprForm.receiverStands &&
          p.every ExprForm.continuesWithoutRuns
      | _ => false) = true := by
    decide +kernel
  split at hcheck
  · rename_i p q hread
    rw [Bool.and_eq_true, Bool.and_eq_true] at hcheck
    exact ⟨p, q, hread, Program.reread_layout hread hcheck.1.1 hcheck.1.2 hcheck.2⟩
  · cases hcheck

end Trellis
