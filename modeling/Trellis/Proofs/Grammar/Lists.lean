import Trellis.Proofs.Grammar.Tells

/-!
# Reading lists

The grammar reads two kinds of lists. Statements, cases and continuations stand one behind the other, up to
a token that none of them starts with. Elements, arguments, properties and names stand between brackets with
commas between them. Each kind has a relation that says how a list of tokens is cut into its items
(`Chain` and `Items`), where what an item is stays open. A list that was read is cut so (`Tells.chain`,
`Tells.items`), and a chain is read (`Chain.loops`).
-/

namespace Trellis

open Token (skip next)

/-! ## One behind the other -/

/-- **Tokens that are items one behind the other**, each a step, up to where there is a stop. -/
inductive Chain {α : Type} (Step : List Token → α → List Token → Prop)
    (Stop : List Token → Prop) : List Token → List α → List Token → Prop where
  | nil {ts} (stop : Stop ts) : Chain Step Stop ts [] ts
  | cons {ts mid rest a items} (step : Step ts a mid)
    (shorter : mid.length < ts.length) (suffix : mid <:+ ts) (tail : Chain Step Stop mid items rest) :
    Chain Step Stop ts (a :: items) rest

variable {d : Dialect}

namespace Chain

variable {α β : Type} {Step : List Token → α → List Token → Prop} {Stop : List Token → Prop}
  {ts rest : List Token} {items : List α}

theorem forall_mem {Q : α → Prop} (h : Chain Step Stop ts items rest)
    (hstep : ∀ ts' a mid, Step ts' a mid → Q a) : ∀ a ∈ items, Q a := by
  induction h with
  | nil _ => exact nofun
  | cons step _ _ _ ih => exact List.forall_mem_cons.mpr ⟨hstep _ _ _ step, ih⟩

theorem loops {round : List β → Parse (Parse.Round (List β) (List β))} {f : β → α} (h : Chain Step Stop ts items rest)
    (hstop : ∀ ts' read, Stop ts' → Gives d (round read) ts' (· = .stop read) ts')
    (hstep : ∀ ts' a mid read, Step ts' a mid →
      Gives d (round read) ts' (fun r => ∃ b, r = .again (b :: read) ∧ f b = a) mid)
    (read : List β) :
    Loops d round read ts (fun all => ∃ bs : List β, all = bs.reverse ++ read ∧ bs.map f = items) rest := by
  induction h generalizing read with
  | nil hend =>
    refine Loops.stop ((hstop _ read hend).imp ?_)
    rintro _ rfl
    exact ⟨read, rfl, [], rfl, rfl⟩
  | @cons ts mid rest a items step shorter suffix tail ih =>
    refine Loops.again (Q := fun all => ∃ b, all = b :: read ∧ f b = a)
      ((hstep _ _ _ read step).imp ?_) shorter ?_
    · rintro _ ⟨b, rfl, hb⟩
      exact ⟨_, rfl, b, rfl, hb⟩
    · rintro _ ⟨b, rfl, hb⟩ bound hbound
      refine (ih (b :: read) bound hbound).imp ?_
      rintro _ ⟨bs, rfl, hbs⟩
      exact ⟨b :: bs, by simp, by rw [List.map_cons, hb, hbs]⟩

end Chain

theorem Tells.chain {α : Type} {ts : List Token} {round : List α → Parse (Parse.Round (List α) (List α))}
    (Step : List Token → α → List Token → Prop) (Stop : List Token → Prop)
    (h : ∀ mid read, mid <:+ ts → Tells d (round read) mid fun rest r =>
      (r = .stop read ∧ rest = mid ∧ Stop mid) ∨ ∃ a, r = .again (a :: read) ∧ Step mid a rest ∧ rest.length < mid.length) :
    Tells d (Parse.rounds round []) ts fun rest all => Chain Step Stop ts all.reverse rest := by
  refine (Tells.rounds (Q := fun mid read rest all =>
    ∃ items, all = items.reverse ++ read ∧ Chain Step Stop mid items rest) ?_ []).imp ?_
  · intro mid read hmid p r q hp hdone
    obtain ⟨rest, hq, hrest, hr⟩ := h mid read hmid p r q hp hdone
    refine ⟨rest, hq, hrest, ?_⟩
    rcases hr with ⟨rfl, rfl, hstop⟩ | ⟨a, rfl, hstep, hshorter⟩
    · exact .inl ⟨read, rfl, [], rfl, .nil hstop⟩
    · refine .inr ⟨a :: read, rfl, ?_⟩
      rintro final _ _ ⟨items, rfl, hchain⟩
      exact ⟨a :: items, by simp, .cons hstep hshorter hrest hchain⟩
  · rintro rest _ _ ⟨items, rfl, hchain⟩
    simpa using hchain

/-! ## With commas between them -/

/-- **Tokens that are items with commas between them**, up to a closing token. A comma may stand behind the
last item. -/
inductive Items {α : Type} (closer : Terminal) (Step : List Token → α → List Token → Prop) :
    List Token → List α → List Token → Prop where
  | nil {ts} (close : next ts = closer) : Items closer Step ts [] ts
  | last {ts rest a} (opens : next ts ≠ closer) (step : Step ts a rest)
    (suffix : rest <:+ ts) (noComma : next rest ≠ .symbol .comma) : Items closer Step ts [a] rest
  | cons {ts mid behind rest a items comma}
    (opens : next ts ≠ closer) (step : Step ts a mid) (suffix : mid <:+ ts)
    (taken : skip mid = comma :: behind) (isComma : comma.terminal = .symbol .comma)
    (tail : Items closer Step behind items rest) : Items closer Step ts (a :: items) rest

def Parse.itemRound {α : Type} (item : Parse α) (closer : Terminal) (read : List α) :
    Parse (Parse.Round (List α) (List α)) := do
  if ← Parse.sees closer then return .stop read
  let a ← item
  if ← Parse.accept (.symbol .comma) then return .again (a :: read) else return .stop (a :: read)

theorem Parse.separated_eq {α : Type} (item : Parse α) (closer : Terminal) (what : String) :
    Parse.separated item closer what = (do
      let items ← Parse.rounds (Parse.itemRound item closer) []
      let _ ← Parse.expect closer what
      return items.reverse) := rfl

namespace Items

variable {α : Type} {closer : Terminal} {Step : List Token → α → List Token → Prop}
  {ts rest : List Token} {items : List α}

theorem forall_mem {Q : α → Prop} (h : Items closer Step ts items rest)
    (hstep : ∀ ts' a mid, Step ts' a mid → Q a) : ∀ a ∈ items, Q a := by
  induction h with
  | nil _ => exact nofun
  | last _ step _ _ => exact List.forall_mem_cons.mpr ⟨hstep _ _ _ step, nofun⟩
  | cons _ step _ _ _ _ ih => exact List.forall_mem_cons.mpr ⟨hstep _ _ _ step, ih⟩

end Items

theorem Tells.items {α : Type} {ts : List Token} {item : Parse α} {closer : Terminal}
    {what : String} (Step : List Token → α → List Token → Prop)
    (h : ∀ mid, mid <:+ ts → Tells d item mid fun rest a => Step mid a rest) :
    Tells d (Parse.separated item closer what) ts fun rest all =>
      ∃ mid t, Items closer Step ts all mid ∧ mid <:+ ts ∧ Parse.Took d closer mid rest t := by
  rw [Parse.separated_eq]
  refine Tells.bind (P := fun mid all => Items closer Step ts all.reverse mid) ?_ ?_
  · refine (Tells.rounds (Q := fun mid read rest all =>
      ∃ items, all = items.reverse ++ read ∧ Items closer Step mid items rest) ?_ []).imp ?_
    · intro mid read hmid
      refine .sees ?_
      cases hclose : next mid == closer with
      | true => exact .pure (.inl ⟨read, rfl, [], rfl, .nil (beq_iff_eq.mp hclose)⟩)
      | false =>
        have hopens := beq_eq_false_iff_ne.mp hclose
        refine .bind (h mid hmid) fun behind a hbehind hstep => ?_
        refine .bind .accept fun rest found hrest hfound => ?_
        rcases hfound with ⟨rfl, rfl, hnext⟩ | ⟨t, rfl, hnext, ht⟩
        · exact .pure (.inl ⟨a :: read, rfl, [a], rfl, .last hopens hstep hbehind hnext⟩)
        · refine .pure (.inr ⟨a :: read, rfl, ?_⟩)
          rintro final _ _ ⟨items, rfl, htail⟩
          have hskip := ht.skip (by rw [hnext]; exact nofun)
          exact ⟨a :: items, by simp,
            .cons hopens hstep hbehind hskip (ht.terminal.trans hnext) htail⟩
    · rintro rest _ _ ⟨items, rfl, hitems⟩
      simpa using hitems
  · intro mid all hmid hitems
    exact .bind_pure Parse.tells_expect fun rest t _ ht => ⟨mid, t, hitems, hmid, ht⟩

end Trellis
