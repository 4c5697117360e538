import Trellis.Proofs.Run.Course

/-!
# Two runs side by side

Two runs of the same code are compared step by step. They go *beside* each other (`Run.Beside`) if they lead from
related machines to related machines: both are done with the same value, or both fail with the same fault, or both
are exhausted.

The relations of interest are *likenesses* (`Machine.Likeness`). Two machines that are alike differ at most in who
observes them and in what was written, and nothing but these two, and the modules, decides whether they are alike. So
an action that neither looks at the observer and the transcript nor changes any of the three (`Run.IsBlind`) leaves
machines alike.
-/

namespace Trellis

/-! ## Outcomes -/

section

variable {σ α β : Type} {R S : σ → σ → Prop} {o o' : Outcome σ α} {x x' : Action σ α}

/-- **Two outcomes go together**: both are done with the same value or failed with the same fault, and the
states behind them are related, or both are exhausted. -/
def Outcome.Beside (R : σ → σ → Prop) : Outcome σ α → Outcome σ α → Prop
  | .done a s, o => ∃ s', o = .done a s' ∧ R s s'
  | .failed fault s, o => ∃ s', o = .failed fault s' ∧ R s s'
  | .exhausted, o => o = .exhausted

@[elab_as_elim]
theorem Outcome.Beside.elim {motive : Outcome σ α → Outcome σ α → Prop} (h : o.Beside R o')
    (done : ∀ a s s', R s s' → motive (.done a s) (.done a s'))
    (failed : ∀ fault s s', R s s' → motive (.failed fault s) (.failed fault s'))
    (exhausted : motive .exhausted .exhausted) : motive o o' := by
  cases o with
  | done a s =>
    obtain ⟨s', rfl, hs⟩ := h
    exact done a s s' hs
  | failed fault s =>
    obtain ⟨s', rfl, hs⟩ := h
    exact failed fault s s' hs
  | exhausted =>
    obtain rfl : o' = .exhausted := h
    exact exhausted

theorem Outcome.Beside.imp (h : o.Beside R o') (hRS : ∀ s s', R s s' → S s s') : o.Beside S o' :=
  h.elim (fun _ s s' hs => ⟨s', rfl, hRS s s' hs⟩) (fun _ s s' hs => ⟨s', rfl, hRS s s' hs⟩) rfl

theorem Outcome.Beside.of_done {a : α} {s : σ} (h : o.Beside R o') (ho : o = .done a s) :
    ∃ s', o' = .done a s' ∧ R s s' := by
  subst ho
  exact h

def Outcome.doneWith (check : σ → Bool) : Outcome σ α → Bool
  | .done _ s => check s
  | .failed _ _ => false
  | .exhausted => false

theorem Outcome.of_doneWith {o : Outcome σ α} {check : σ → Bool} (h : o.doneWith check = true) :
    ∃ a s, o = .done a s ∧ check s = true := by
  cases o with
  | done a s => exact ⟨a, s, rfl, h⟩
  | failed fault s => cases h
  | exhausted => cases h

def Outcome.failedWith (check : Fault → σ → Bool) : Outcome σ α → Bool
  | .done _ _ => false
  | .failed fault s => check fault s
  | .exhausted => false

theorem Outcome.of_failedWith {o : Outcome σ α} {check : Fault → σ → Bool} (h : o.failedWith check = true) :
    ∃ fault s, o = .failed fault s ∧ check fault s = true := by
  cases o with
  | done a s => cases h
  | failed fault s => exact ⟨fault, s, rfl, h⟩
  | exhausted => cases h

theorem Action.beside_bind {f f' : α → Action σ β} {s s' : σ} (hx : (x s).Beside S (x' s'))
    (stop : ∀ t t', S t t' → R t t') (next : ∀ a t t', S t t' → (f a t).Beside R (f' a t')) :
    ((x >>= f) s).Beside R ((x' >>= f') s') := by
  rw [Action.bind_apply, Action.bind_apply]
  exact hx.elim next (fun _ t t' ht => ⟨t', rfl, stop t t' ht⟩) rfl

theorem Action.beside_ending {f f' : σ → σ} {s s' : σ} (hx : (x s).Beside S (x' s'))
    (behind : ∀ t t', S t t' → R (f t) (f' t')) : (x.ending f s).Beside R (x'.ending f' s') := by
  unfold Action.ending
  exact hx.elim (fun _ t t' ht => ⟨f' t', rfl, behind t t' ht⟩) (fun _ t t' ht => ⟨f' t', rfl, behind t t' ht⟩) rfl

theorem Action.beside_onFault {g g' : Fault → σ → Fault × σ} {s s' : σ} (hx : (x s).Beside S (x' s'))
    (done : ∀ t t', S t t' → R t t')
    (failed : ∀ fault t t', S t t' → (g' fault t').1 = (g fault t).1 ∧ R (g fault t).2 (g' fault t').2) :
    (x.onFault g s).Beside R (x'.onFault g' s') := by
  unfold Action.onFault
  refine hx.elim (fun _ t t' ht => ⟨t', rfl, done t t' ht⟩) (fun fault t t' ht => ?_) rfl
  obtain ⟨hfault, hR⟩ := failed fault t t' ht
  exact ⟨(g' fault t').2, congrArg (Outcome.failed · _) hfault, hR⟩

end

/-! ## Likenesses -/

namespace Machine

/-- The machine as it is if somebody else observes it and something else was written. -/
def seenBy (m : Machine) (o : Observer) (t : Transcript) : Machine :=
  { m with observer := o, transcript := t }

/-- **Telling the observer** changes nothing but the observer and the transcript, also if the run is ended. -/
theorem exists_observe (m : Machine) (s : Stmt) : ∃ o t,
    Run.observe s m = .done () (m.seenBy o t) ∨ Run.observe s m = .failed (.managing .ended) (m.seenBy o t) := by
  unfold Run.observe
  split
  · exact ⟨_, _, .inl rfl⟩
  · exact ⟨_, _, .inl rfl⟩
  · dsimp only
    split
    · split
      · exact ⟨_, _, .inr rfl⟩
      · exact ⟨_, _, .inl rfl⟩
    · exact ⟨_, _, .inl rfl⟩

/-- **A likeness of machines.** Machines that are alike differ in the observer and the transcript only, and
whether they are alike is decided by these two and by the modules. -/
structure Likeness (R : Machine → Machine → Prop) : Prop where
  same : ∀ {m m'}, R m m' → ∃ o t, m' = m.seenBy o t
  carry : ∀ {m n o t}, R m (m.seenBy o t) → n.modules = m.modules → n.observer = m.observer →
    n.transcript = m.transcript → R n (n.seenBy o t)
  write : ∀ {m m'}, R m m' → ∀ text, R (m.write .script text) (m'.write .script text)

theorem Likeness.having {R : Machine → Machine → Prop} (hR : Likeness R) (P : ModuleTable → Prop) :
    Likeness fun m m' => R m m' ∧ P m.modules where
  same h := hR.same h.1
  carry h modules observer transcript :=
    ⟨hR.carry h.1 modules observer transcript, modules ▸ h.2⟩
  write h text := ⟨hR.write h.1 text, h.2⟩

/-- What a blind action leaves of two machines that differ in the observer and the transcript. -/
structure Unseen (m : Machine) (o : Observer) (t : Transcript) (n n' : Machine) : Prop where
  eq : n' = n.seenBy o t
  modules : n.modules = m.modules
  observer : n.observer = m.observer
  transcript : n.transcript = m.transcript

theorem Unseen.refl (m : Machine) (o : Observer) (t : Transcript) : m.Unseen o t m (m.seenBy o t) :=
  ⟨rfl, rfl, rfl, rfl⟩

theorem Unseen.trans {m n k k' : Machine} {o : Observer} {t : Transcript}
    (h₁ : m.Unseen o t n (n.seenBy o t)) (h₂ : n.Unseen o t k k') : m.Unseen o t k k' where
  eq := h₂.eq
  modules := h₂.modules.trans h₁.modules
  observer := h₂.observer.trans h₁.observer
  transcript := h₂.transcript.trans h₁.transcript

end Machine

namespace Run

variable {α β : Type} {R : Machine → Machine → Prop}

def Beside (R : Machine → Machine → Prop) (x x' : Run α) : Prop :=
  ∀ m m', R m m' → (x m).Beside R (x' m')

/-- **A blind action** neither looks at the observer and the transcript nor changes them or the modules. -/
def IsBlind (x : Run α) : Prop :=
  ∀ m o t, (x m).Beside (m.Unseen o t) (x (m.seenBy o t))

namespace IsBlind

theorem pure (a : α) : IsBlind (Pure.pure a) := fun m o t => ⟨_, rfl, .refl m o t⟩

theorem fail (cause : Cause) (span : Span) : IsBlind (Run.fail cause span : Run α) :=
  fun m o t => ⟨_, rfl, .refl m o t⟩

theorem raise (fault : Fault) : IsBlind (Action.fail fault : Run α) :=
  fun m o t => ⟨_, rfl, .refl m o t⟩

theorem read {f : Machine → α} (h : ∀ (m : Machine) o t, f (m.seenBy o t) = f m) : IsBlind (Action.read f) :=
  fun m o t => ⟨_, congrArg (Outcome.done · _) (h m o t), .refl m o t⟩

theorem change {f : Machine → Machine}
    (h : ∀ (m : Machine) o t, m.Unseen o t (f m) (f (m.seenBy o t))) :
    IsBlind (Action.change f) :=
  fun m o t => ⟨_, rfl, h m o t⟩

theorem alloc (f : Heap → α × Heap) : IsBlind (Run.alloc f) :=
  fun _ _ _ => ⟨_, rfl, rfl, rfl, rfl, rfl⟩

theorem newScope : IsBlind Run.newScope :=
  fun _ _ _ => ⟨_, rfl, rfl, rfl, rfl, rfl⟩

theorem bind {x : Run α} {f : α → Run β} (hx : IsBlind x) (hf : ∀ a, IsBlind (f a)) : IsBlind (x >>= f) := by
  intro m o t
  refine Action.beside_bind (hx m o t) (fun _ _ h => h) ?_
  rintro a n _ ⟨rfl, modules, observer, transcript⟩
  have first : m.Unseen o t n (n.seenBy o t) := ⟨rfl, modules, observer, transcript⟩
  exact (hf a n o t).imp fun _ _ second => first.trans second

theorem beside (hR : Machine.Likeness R) {x : Run α} (h : IsBlind x) : Beside R x x := by
  intro m m' hm
  obtain ⟨o, t, rfl⟩ := hR.same hm
  refine (h m o t).imp ?_
  rintro n _ ⟨rfl, modules, observer, transcript⟩
  exact hR.carry hm modules observer transcript

theorem declare (scope : ScopeId) (name : String) (v : Value) (static : Bool) :
    IsBlind (Run.declare scope name v static) := by
  intro m o t
  unfold Run.declare
  dsimp only [Machine.seenBy]
  cases m.scopes.declareFault? scope name <;> exact ⟨_, rfl, rfl, rfl, rfl, rfl⟩

theorem onScopes (f : Scopes → Except Fault Scopes) : IsBlind (Run.onScopes f) := by
  intro m o t
  unfold Run.onScopes
  dsimp only [Machine.seenBy]
  cases f m.scopes <;> exact ⟨_, rfl, rfl, rfl, rfl, rfl⟩

end IsBlind

theorem within_eq (scope : ScopeId) (x : Run α) (m : Machine) :
    Run.within scope x m = x.ending (·.moveTo m.current) (m.moveTo scope) := by
  unfold Run.within Action.ending
  dsimp only [Machine.moveTo]
  cases x _ <;> rfl

namespace Beside

theorem pure (hR : Machine.Likeness R) (a : α) : Beside R (Pure.pure a) (Pure.pure a) :=
  (IsBlind.pure a).beside hR

theorem exhaust : Beside R (Action.exhaust : Run α) Action.exhaust := fun _ _ _ => rfl

theorem bind {x x' : Run α} {f f' : α → Run β} (hx : Beside R x x')
    (hf : ∀ a, Beside R (f a) (f' a)) : Beside R (x >>= f) (x' >>= f') :=
  fun m m' hm => Action.beside_bind (hx m m' hm) (fun _ _ h => h) hf

theorem write (hR : Machine.Likeness R) (text : String) : Beside R (Run.write text) (Run.write text) :=
  fun _ _ hm => ⟨_, rfl, hR.write hm text⟩

theorem within (hR : Machine.Likeness R) {x x' : Run α} (h : Beside R x x') (scope : ScopeId) :
    Beside R (Run.within scope x) (Run.within scope x') := by
  intro m m' hm
  obtain ⟨o, t, rfl⟩ := hR.same hm
  have entered : R (m.moveTo scope) ((m.moveTo scope).seenBy o t) := hR.carry hm rfl rfl rfl
  rw [within_eq, within_eq]
  refine Action.beside_ending (h _ _ entered) fun n n' hn => ?_
  obtain ⟨o', t', rfl⟩ := hR.same hn
  exact hR.carry (n := n.moveTo m.current) hn rfl rfl rfl

theorem recorded (hR : Machine.Likeness R) {x x' : Run α} (h : Beside R x x') (span : Span) :
    Beside R (Run.recorded span x) (Run.recorded span x') := by
  intro m m' hm
  refine Action.beside_onFault (h m m' hm) (fun _ _ hn => hn) fun fault n n' hn => ?_
  obtain ⟨o, t, rfl⟩ := hR.same hn
  exact ⟨rfl, hR.carry (n := (Run.record span fault n).2) hn rfl rfl rfl⟩

end Beside

end Run

end Trellis
