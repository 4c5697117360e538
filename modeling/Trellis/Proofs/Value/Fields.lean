import Mathlib.Data.Set.Card
import Trellis.Proofs.Value.Members

/-!
# Fields keep the order of insertion

What fields hold is told by their history alone, without a look at how they are kept. A history is a row of steps, and
each step does something to names: a name is set to a value, it is dropped, or all names are cleared. A name *has* a
value (`Fields.IsLatest`) if it was set to it and nothing happened to the name since. It *came in* at a moment
(`Fields.CameIn`) if it was set then, had no value before, and was not taken away since.

Whatever the steps are, the names are distinct, they are the names that have a value, each stands with its value, and
they stand in the order in which they came in (`Fields.holds_history`).
-/

namespace Trellis.Fields

variable {α : Type}

inductive Step (α : Type) where
  | insert (name : String) (a : α)
  | erase (name : String)
  /-- New fields are made of entries that come in one after another. -/
  | build (entries : List (String × α))

def apply (f : Fields α) : Step α → Fields α
  | .insert name a => f.insert name a
  | .erase name => f.erase name
  | .build entries => ofList entries

inductive Event (α : Type) where
  | set (name : String) (a : α)
  | drop (name : String)
  | clear

namespace Event

def Touches (name : String) : Event α → Prop
  | set other _ => other = name
  | drop other => other = name
  | clear => True

def Removes (name : String) : Event α → Prop
  | set _ _ => False
  | drop other => other = name
  | clear => True

def apply (f : Fields α) : Event α → Fields α
  | set name a => f.insert name a
  | drop name => f.erase name
  | clear => {}

end Event

def Step.events : Step α → List (Event α)
  | insert name a => [.set name a]
  | erase name => [.drop name]
  | build entries => .clear :: entries.map fun entry => .set entry.1 entry.2

/-- **A name has a value** after some events: it was set to it, and nothing happened to it since. -/
def IsLatest (events : List (Event α)) (name : String) (a : α) : Prop :=
  ∃ before since, events = before ++ .set name a :: since ∧ ∀ e ∈ since, ¬ e.Touches name

/-- **A name came in at a moment**: it was set then, had no value before, and was not taken away since. -/
def CameIn (events : List (Event α)) (name : String) (moment : Nat) : Prop :=
  ∃ before a since, events = before ++ .set name a :: since ∧ before.length = moment ∧
    (∀ b, ¬ IsLatest before name b) ∧ ∀ e ∈ since, ¬ e.Removes name

structure Holds (f : Fields α) (events : List (Event α)) : Prop where
  distinct : f.names.Nodup
  latest : ∀ name a, f.get? name = some a ↔ IsLatest events name a
  cameIn : ∀ name ∈ f.names, ∃ moment, CameIn events name moment
  inOrder : f.names.Pairwise fun name other =>
    ∀ i j, CameIn events name i → CameIn events other j → i < j

/-! ## Histories -/

section

variable {events before since : List (Event α)} {e : Event α} {name : String} {a : α} {moment : Nat}

theorem concat_eq_append_cons {x : Event α} (h : events ++ [e] = before ++ x :: since) :
    (before = events ∧ x = e ∧ since = []) ∨ ∃ rest, since = rest ++ [e] ∧ events = before ++ x :: rest := by
  obtain rfl | ⟨rest, last, rfl⟩ := List.eq_nil_or_concat' since
  · obtain ⟨hbefore, hx⟩ := List.append_inj' h rfl
    exact .inl ⟨hbefore.symm, (List.singleton_inj.mp hx).symm, rfl⟩
  · rw [← List.cons_append, ← List.append_assoc] at h
    obtain ⟨hevents, he⟩ := List.append_inj' h rfl
    exact .inr ⟨rest, by rw [List.singleton_inj.mp he], hevents⟩

theorem isLatest_concat :
    IsLatest (events ++ [e]) name a ↔ e = .set name a ∨ (¬ e.Touches name ∧ IsLatest events name a) := by
  constructor
  · rintro ⟨before, since, h, quiet⟩
    obtain ⟨-, rfl, -⟩ | ⟨rest, rfl, earlier⟩ := concat_eq_append_cons h
    · exact .inl rfl
    · exact .inr ⟨quiet e (by simp), before, rest, earlier, fun x hx => quiet x (List.mem_append_left _ hx)⟩
  · rintro (rfl | ⟨quiet, before, since, rfl, h⟩)
    · exact ⟨events, [], rfl, nofun⟩
    · exact ⟨before, since ++ [e], by simp, List.forall_mem_append.mpr ⟨h, List.forall_mem_singleton.mpr quiet⟩⟩

theorem cameIn_concat :
    CameIn (events ++ [e]) name moment ↔
      (moment = events.length ∧ (∃ a, e = .set name a) ∧ ∀ b, ¬ IsLatest events name b) ∨
        (CameIn events name moment ∧ ¬ e.Removes name) := by
  constructor
  · rintro ⟨before, a, since, h, rfl, absent, kept⟩
    obtain ⟨rfl, rfl, -⟩ | ⟨rest, rfl, earlier⟩ := concat_eq_append_cons h
    · exact .inl ⟨rfl, ⟨a, rfl⟩, absent⟩
    · exact .inr ⟨⟨before, a, rest, earlier, rfl, absent, fun x hx => kept x (List.mem_append_left _ hx)⟩, kept e (by simp)⟩
  · rintro (⟨rfl, ⟨a, rfl⟩, absent⟩ | ⟨⟨before, a, since, rfl, rfl, absent, h⟩, kept⟩)
    · exact ⟨events, a, [], rfl, rfl, absent, nofun⟩
    · exact ⟨before, a, since ++ [e], by simp, rfl, absent,
        List.forall_mem_append.mpr ⟨h, List.forall_mem_singleton.mpr kept⟩⟩

theorem CameIn.exists_isLatest (h : CameIn events name moment) : ∃ a, IsLatest events name a := by
  obtain ⟨before, a, since, rfl, -, -, kept⟩ := h
  induction since using List.reverseRecOn with
  | nil => exact ⟨a, before, [], rfl, nofun⟩
  | append_singleton since e ih =>
    obtain ⟨kept, last⟩ := List.forall_mem_append.mp kept
    obtain ⟨b, latest⟩ := ih kept
    rw [← List.cons_append, ← List.append_assoc]
    by_cases touched : e.Touches name
    · cases e with
      | set other c => exact ⟨c, isLatest_concat.mpr (.inl (congrArg (Event.set · c) touched))⟩
      | _ => exact absurd touched (last _ (.head _))
    · exact ⟨b, isLatest_concat.mpr (.inr ⟨touched, latest⟩)⟩

theorem CameIn.lt (h : CameIn events name moment) : moment < events.length := by
  obtain ⟨before, a, since, rfl, rfl, -⟩ := h
  simp

end

/-! ## Entries -/

section

variable {f : Fields α} {name other : String} {a : α}

theorem mem_names : name ∈ f.names ↔ ∃ a, f.get? name = some a := by
  rw [get?, ← Option.isSome_iff_exists, Option.isSome_map, List.find?_isSome]
  simp [names]

theorem get?_erase (distinct : f.names.Nodup) (name other : String) :
    (f.erase name).get? other = if other = name then none else f.get? other := by
  obtain ⟨entries⟩ := f
  induction entries with
  | nil => simp [get?, erase]
  | cons entry rest ih => grind [get?, erase, names]

theorem mem_entries (distinct : f.names.Nodup) : (name, a) ∈ f.entries ↔ f.get? name = some a := by
  obtain ⟨entries⟩ := f
  induction entries with
  | nil => simp [get?]
  | cons entry rest ih => grind [get?, names]

end

/-! ## Steps -/

namespace Holds

variable {f : Fields α} {events : List (Event α)}

theorem mem_names (h : f.Holds events) (name : String) : name ∈ f.names ↔ ∃ a, IsLatest events name a :=
  Fields.mem_names.trans (exists_congr (h.latest name))

theorem set (h : f.Holds events) (name : String) (a : α) : (f.insert name a).Holds (events ++ [.set name a]) := by
  have latest (other : String) (b : α) :
      (f.insert name a).get? other = some b ↔ IsLatest (events ++ [.set name a]) other b := by
    rw [isLatest_concat, Event.set.injEq]
    by_cases same : other = name
    · subst same
      simp [Event.Touches]
    · rw [get?_insert_of_ne f name a same, h.latest]
      simp [Event.Touches, Ne.symm same]
  have before {other : String} {i : Nat} (held : other ∈ f.names) :
      CameIn (events ++ [.set name a]) other i ↔ CameIn events other i := by
    refine cameIn_concat.trans ⟨fun came => ?_, fun came => .inr ⟨came, id⟩⟩
    obtain ⟨-, ⟨b, heq⟩, absent⟩ | ⟨came, -⟩ := came
    · cases heq
      obtain ⟨b, latest⟩ := (h.mem_names _).mp held
      exact absurd latest (absent b)
    · exact came
  have cameIn (other : String) (held : other ∈ f.names) : ∃ i, CameIn (events ++ [.set name a]) other i :=
    (h.cameIn other held).imp fun _ => (before held).mpr
  have inOrder : f.names.Pairwise fun one other => ∀ i j, CameIn (events ++ [.set name a]) one i →
      CameIn (events ++ [.set name a]) other j → i < j :=
    h.inOrder.imp_of_mem fun mem mem' less i j hi hj => less i j ((before mem).mp hi) ((before mem').mp hj)
  have names := names_insert f name a
  by_cases held : name ∈ f.names
  · rw [if_pos held] at names
    exact ⟨names ▸ h.distinct, latest, names ▸ cameIn, names ▸ inOrder⟩
  · rw [if_neg held] at names
    have absent (b : α) : ¬ IsLatest events name b := fun latest => held ((h.mem_names _).mpr ⟨b, latest⟩)
    refine ⟨?_, latest, ?_, ?_⟩
    · rw [names, ← List.concat_eq_append]
      exact h.distinct.concat held
    · rw [names]
      refine List.forall_mem_append.mpr ⟨cameIn, List.forall_mem_singleton.mpr ?_⟩
      exact ⟨_, cameIn_concat.mpr (.inl ⟨rfl, ⟨a, rfl⟩, absent⟩)⟩
    · rw [names]
      refine List.pairwise_append.mpr ⟨inOrder, List.pairwise_singleton _ _, fun other mem last hlast i j hi hj => ?_⟩
      -- the others came in before the last event
      rw [List.mem_singleton.mp hlast] at hj
      obtain ⟨rfl, -⟩ | ⟨came, -⟩ := cameIn_concat.mp hj
      · exact ((before mem).mp hi).lt
      · obtain ⟨b, latest⟩ := came.exists_isLatest
        exact absurd latest (absent b)

theorem drop (h : f.Holds events) (name : String) : (f.erase name).Holds (events ++ [.drop name]) := by
  have get := get?_erase h.distinct name
  have sublist : (f.erase name).names.Sublist f.names := List.eraseP_sublist.map _
  have before {other : String} {i : Nat} (came : CameIn (events ++ [.drop name]) other i) : CameIn events other i := by
    obtain ⟨-, ⟨_, heq⟩, -⟩ | ⟨came, -⟩ := cameIn_concat.mp came
    · cases heq
    · exact came
  refine ⟨h.distinct.sublist sublist, fun other b => ?_, fun other mem => ?_, ?_⟩
  · rw [isLatest_concat, get, ← h.latest]
    simp [Event.Touches, eq_comm]
  · obtain ⟨i, came⟩ := h.cameIn other (sublist.subset mem)
    refine ⟨i, cameIn_concat.mpr (.inr ⟨came, fun same => ?_⟩)⟩
    obtain ⟨a, held⟩ := Fields.mem_names.mp mem
    rw [get, if_pos same.symm] at held
    cases held
  · exact (h.inOrder.sublist sublist).imp fun less i j hi hj => less i j (before hi) (before hj)

theorem clear (events : List (Event α)) : ({} : Fields α).Holds (events ++ [.clear]) := by
  refine ⟨.nil, fun name a => ?_, nofun, .nil⟩
  rw [isLatest_concat]
  simp [Event.Touches, get?]

theorem foldl (h : f.Holds events) (more : List (Event α)) : (more.foldl Event.apply f).Holds (events ++ more) := by
  induction more generalizing f events with
  | nil => rwa [List.append_nil]
  | cons e rest ih =>
    rw [← List.singleton_append, ← List.append_assoc]
    refine ih ?_
    cases e with
    | set name a => exact h.set name a
    | drop name => exact h.drop name
    | clear => exact clear events

end Holds

theorem apply_eq (f : Fields α) (step : Step α) : f.apply step = step.events.foldl Event.apply f := by
  cases step with
  | build entries =>
    rw [Step.events, List.foldl_cons, List.foldl_map]
    rfl
  | _ => rfl

theorem holds_foldl_apply (steps : List (Step α)) :
    (steps.foldl Fields.apply {}).Holds (steps.flatMap Step.events) := by
  have all : steps.foldl Fields.apply {} = (steps.flatMap Step.events).foldl Event.apply ({} : Fields α) := by
    rw [List.foldl_flatMap]
    exact congrArg (List.foldl · {} steps) (funext₂ apply_eq)
  have start : ({} : Fields α).Holds [] :=
    ⟨.nil, fun _ _ => ⟨nofun, fun ⟨_, _, h, _⟩ => by simp at h⟩, nofun, .nil⟩
  exact all ▸ start.foldl _

/-- **Fields are a map that keeps the order of insertion**, whatever was inserted, erased and built. The names are
distinct; a name has the value that it was set to last, if it was not taken away since; the size counts the names that
have a value; and these stand in the order in which they came in, each with its value. -/
theorem holds_history (steps : List (Step α)) :
    let f := steps.foldl Fields.apply {}
    let events := steps.flatMap Step.events
    f.names.Nodup ∧
    (∀ name a, f.get? name = some a ↔ IsLatest events name a) ∧
    (∀ name, f.contains name = true ↔ ∃ a, IsLatest events name a) ∧
    f.size = Set.ncard { name | ∃ a, IsLatest events name a } ∧
    (∀ name a, (name, a) ∈ f.entries ↔ IsLatest events name a) ∧
    (∀ name ∈ f.names, ∃ moment, CameIn events name moment) ∧
    f.names.Pairwise fun name other => ∀ i j, CameIn events name i → CameIn events other j → i < j := by
  intro f events
  have h : f.Holds events := holds_foldl_apply steps
  refine ⟨h.distinct, h.latest, fun name => ?_, ?_, fun name a => ?_, h.cameIn, h.inOrder⟩
  · rw [contains, Option.isSome_iff_exists]
    exact exists_congr (h.latest name)
  · have names : { name | ∃ a, IsLatest events name a } = f.names.toFinset := by
      ext name
      rw [Set.mem_ofPred_eq, ← h.mem_names, Finset.mem_coe, List.mem_toFinset]
    rw [names, Set.ncard_coe_finset, List.toFinset_card_of_nodup h.distinct]
    exact (List.length_map _).symm
  · rw [mem_entries h.distinct, h.latest]

end Trellis.Fields
