import Trellis.Proofs.Run.Beside
import Trellis.Proofs.Run.Grounded
import Trellis.Proofs.Run.Steps
import Trellis.Proofs.Scope.Visible

/-!
# Names in a run

Every step of a run leaves the scopes tidy (`Scopes.Tidy.step`), because a name is exposed only where it has just
been declared, and picked only from a module in which it has just been looked up. So the names that can be looked up
are those that are visible: between the passes of a run, and at every moment of the next one. A suggestion is one of
the visible names, so it can be looked up where the script stands.
-/

namespace Trellis

namespace Scopes

variable {s s' : Scopes}

theorem Tidy.step (h : s.Tidy) (step : s.Step s') : s'.Tidy := by
  cases step with
  | addRoot file => exact h.push none file _
  | addChild parent => exact h.push (some parent) _ _
  | declare v static free => exact h.addBinding v static free
  | assign v hassign => exact h.replace v hassign
  | expose bound => exact h.expose bound
  | pick known linked => exact h.pick (knows_of_lookup known) linked
  | pickAs known linked => exact h.pickAs (knows_of_lookup known) linked
  | importAll id root => exact h.importAll root

theorem Tidy.steps (h : s.Tidy) (steps : s.Steps s') : s'.Tidy := by
  induction steps with
  | refl => exact h
  | tail _ step ih => exact ih.step step

end Scopes

theorem Outcome.AdvancesFrom.steps {α : Type} {m : Machine} {o : Outcome Machine α} (h : o.AdvancesFrom m) :
    o.Ends fun _ m' => m.scopes.Steps m'.scopes := by
  cases o with
  | done a m' => exact h.scopes
  | exhausted => trivial
  | failed f m' =>
    obtain ⟨raised, m₁, advances, travels⟩ := h
    show m.scopes.Steps m'.scopes
    rw [travels.keeps.1]
    exact advances.scopes

theorem Outcome.Ends.and {σ α : Type} {P Q : Bool → σ → Prop} {o : Outcome σ α} (hp : o.Ends P)
    (hq : o.Ends Q) : o.Ends fun whole s => P whole s ∧ Q whole s := by
  cases o with
  | done a s => exact ⟨hp, hq⟩
  | failed fault s => exact ⟨hp, hq⟩
  | exhausted => trivial

namespace Machine

variable {m m' : Machine}

/-! ## Suggestions -/

theorem mem_of_foldl_candidates {candidates : List (Nat × String)} {best : Option (Nat × String)}
    {found : Nat × String}
    (h : candidates.foldl (fun (best : Option (Nat × String)) candidate =>
      match best with
      | some b => if betterCandidate candidate b then some candidate else best
      | none => some candidate) best = some found) : best = some found ∨ found ∈ candidates := by
  induction candidates generalizing best with
  | nil => exact .inl h
  | cons candidate rest ih =>
    rcases ih h with now | later
    -- the candidate is kept, or the best one of before is
    · cases best with
      | none => exact .inr (Option.some.inj now ▸ .head _)
      | some b =>
        dsimp only at now
        split at now
        · exact .inr (Option.some.inj now ▸ .head _)
        · exact .inl now
    · exact .inr (.tail _ later)

theorem mem_visibleNames_of_nearestName? {name other : String} (h : m.nearestName? name = some other) :
    other ∈ m.scopes.visibleNames m.current := by
  unfold nearestName? at h
  obtain ⟨candidate, hfold, rfl⟩ := Option.map_eq_some_iff.mp h
  rcases mem_of_foldl_candidates hfold with none | hmem
  · cases none
  · obtain ⟨visible, hvisible, hcandidate⟩ := List.mem_filterMap.mp hmem
    dsimp only at hcandidate
    split at hcandidate
    · cases hcandidate
      exact hvisible
    · cases hcandidate

theorem suggest_notDeclared (m : Machine) (name : String) :
    m.suggest name (.notDeclared name) =
      match m.nearestName? name with
      | some other => { Fault.notDeclared name with hint := some ("did you mean '" ++ other ++ "'?") }
      | none => .notDeclared name := rfl

/-! ## Machines that are reached -/

/-- **The visible names are those that can be looked up**, and each suggestion is one of them, in whatever
scope the machine stands. -/
structure NamesResolve (m : Machine) : Prop extends m.scopes.NamesResolve where
  suggested : ∀ scope name hint, ((m.moveTo scope).suggest name (.notDeclared name)).hint = some hint →
    ∃ other v, hint = "did you mean '" ++ other ++ "'?" ∧ m.scopes.lookup scope other = .ok v

theorem namesResolve_of_tidy (tidy : m.scopes.Tidy) (ends : m.scopes.LookupEnds) : m.NamesResolve := by
  have names := tidy.namesResolve ends
  refine ⟨names, fun scope name hint h => ?_⟩
  rw [suggest_notDeclared] at h
  cases hnearest : (m.moveTo scope).nearestName? name with
  | none =>
    rw [hnearest] at h
    cases h
  | some other =>
    rw [hnearest] at h
    cases h
    obtain ⟨v, hv⟩ := (names.visible scope other).mpr (mem_visibleNames_of_nearestName? hnearest)
    exact ⟨other, v, rfl, hv⟩

theorem tidy_pass {ev : Evaluator} (hev : ev.Proceeds) (h : m.scopes.Tidy) (p : Program) :
    (pass ev p { m with log := {} }).Ends fun _ m' => m'.scopes.Tidy :=
  (advances_pass hev p { m with log := {} }).steps.imp fun _ _ steps => h.steps steps

theorem Reached.tidy (h : m.Reached) : m.scopes.Tidy := by
  induction h with
  | @start m scopes _ _ _ file =>
    have rooted : (m.scopes.addRoot file).2.Tidy := by
      rw [scopes]
      exact Scopes.Tidy.empty.push none file _
    have added := proceeds_addPrelude (m.enter (m.scopes.addRoot file)) m.scopes.all.size True
    exact rooted.steps added.scopes
  | between _ scopes _ _ _ _ ih =>
    rw [scopes]
    exact ih
  | done _ depth p ends ih =>
    exact (tidy_pass (Evaluator.proceeds_ofDepth depth) ih p).done (pass_of_done ends)
  | failed _ depth p ends ih =>
    obtain ⟨fault, m₁, stopped, -, rfl⟩ := pass_of_failed ends
    have tidy := (tidy_pass (Evaluator.proceeds_ofDepth depth) ih p).failed stopped
    exact tidy

/-- **The visible names are those that can be looked up**: between the passes of a run, and at every moment of
the next one, whatever programs are run and whatever modules they use. -/
theorem Reached.names_resolve (h : m.Reached) :
    m.NamesResolve ∧ ∀ stop depth p,
      (pass (.upTo stop depth) p { m with log := {} }).Ends fun _ m' => m'.NamesResolve := by
  refine ⟨namesResolve_of_tidy h.tidy h.lookup_ends.1, fun stop depth p => ?_⟩
  have tidy := tidy_pass (Evaluator.proceeds_upTo stop depth) h.tidy p
  exact (tidy.and (h.lookup_ends.2 stop depth p)).imp fun _ m' both => namesResolve_of_tidy both.1 both.2

def picking : Program :=
  ⟨2, [⟨1, {}, .useModule "vine:path" none [⟨⟨"join", {}⟩, some ⟨"glue", {}⟩⟩]⟩]⟩

/-- After a pass over the program the new name is visible and the old one is not, and the names that can be
looked up are those that are visible, in this pass and in the next one. -/
theorem names_resolve_picking :
    ∃ v m', (({} : Machine).start none).Reached ∧
      interpretTo 3 picking (({} : Machine).start none) = .done v m' ∧
      "glue" ∈ m'.scopes.visibleNames 0 ∧ "join" ∉ m'.scopes.visibleNames 0 ∧ m'.NamesResolve ∧
      ∀ stop, (pass (.upTo stop 3) picking { m' with log := {} }).Ends fun _ m'' => m''.NamesResolve := by
  have fresh : (({} : Machine).start none).Reached := .start rfl rfl rfl rfl none
  have run : (interpretTo 3 picking (({} : Machine).start none)).doneWith (fun m =>
      m.scopes.visibleNames 0 == ["glue", "print"]) = true := by
    decide +kernel
  obtain ⟨v, m', done, checked⟩ := Outcome.of_doneWith run
  rw [beq_iff_eq] at checked
  have reached : m'.Reached := .done fresh 3 picking done
  refine ⟨v, m', fresh, done, ?_, ?_, reached.names_resolve.1,
    fun stop => reached.names_resolve.2 stop 3 picking⟩
  · rw [checked]
    decide
  · rw [checked]
    decide

end Machine

end Trellis
