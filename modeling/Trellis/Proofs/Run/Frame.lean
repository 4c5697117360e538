import Trellis.Proofs.Run.Following
import Trellis.Proofs.Scope.Alike

/-!
# Scopes do not leak

Whatever an expression does, and whatever runs in the course of it, the scopes that were there before bind the same
names as before, and all that can have changed in them are the values of variables. The same holds for statements
that declare nothing themselves. The proof is an induction on courses: each bracket of a course goes on in a scope
that it has just made, and declarations are made in the current scope only.
-/

namespace Trellis

theorem Course.alikeBelow {w : Bool} {r : Reach} {whole : Bool} {m m' : Machine} {n : Nat}
    (h : Course w r whole m m') (hn : n ≤ m.scopes.all.size) (hr : r = .here → n ≤ m.current) :
    m.scopes.AlikeBelow n m'.scopes := by
  -- what is done in a scope that was just made goes on behind the first ones
  have inChild {m m₁ : Machine} (parent : ScopeId) (hn : n ≤ m.scopes.all.size)
      (ih : n ≤ (m.scopes.addChild parent).2.all.size →
        (Reach.here = .here → n ≤ (m.scopes.addChild parent).1) →
        (m.scopes.addChild parent).2.AlikeBelow n m₁.scopes) :
      m.scopes.AlikeBelow n m₁.scopes := by
    have made := Scopes.AlikeBelow.addChild parent hn
    exact made.trans (ih (Nat.le_trans hn made.size) fun _ => hn)
  have inRoot {m m₁ : Machine} (file : Option Path) (hn : n ≤ m.scopes.all.size)
      (ih : n ≤ (m.scopes.addRoot file).2.all.size →
        (Reach.here = .here → n ≤ (m.scopes.addRoot file).1) →
        (m.scopes.addRoot file).2.AlikeBelow n m₁.scopes) :
      m.scopes.AlikeBelow n m₁.scopes := by
    have made := Scopes.AlikeBelow.addRoot file hn
    exact made.trans (ih (Nat.le_trans hn made.size) fun _ => hn)
  induction h with
  | quiet h => rw [h.scopes]; exact .refl n _
  | seq first _ ih₁ ih₂ =>
    have kept := ih₁ hn hr
    refine kept.trans (ih₂ (Nat.le_trans hn kept.size) fun here => ?_)
    rw [first.current]
    exact hr here
  | stop _ ih => exact ih hn hr
  | pass _ record ih => rw [record.scopes]; exact ih hn hr
  | widen _ ih => exact ih hn nofun
  | assign name v h => exact .replace v h
  | function f _ _ => exact .refl n _
  | schedule _ _ _ _ => exact .refl n _
  | work _ _ _ ih => exact ih hn nofun
  | workStopped _ _ ih => exact ih hn nofun
  | block _ ih => exact inChild _ hn ih
  | call f _ _ ih => exact inChild _ hn ih
  | declare name v static _ => exact .modify _ (hr rfl)
  | expose name => exact .modify _ (hr rfl)
  | link name _ h => exact .link (hr rfl) h
  | setAlias name remote => exact .setAlias name remote (hr rfl)
  | builtin name _ _ ih => exact inRoot none hn ih
  | builtinStopped name _ _ ih => exact inRoot none hn ih
  | load path _ _ _ _ ih => exact inRoot (some path) hn ih
  | loadStopped path _ _ _ _ ih => exact inRoot (some path) hn ih
  | unread _ _ _ => exact .refl n _

namespace Evaluator

/-- **Scopes do not leak.** However the evaluation of an expression ends, all scopes that were there before
are still there and are alike: they bind the same names, linked names are linked to the same modules, and
aliases, constants, exposed names, imports and files are the same, so that nothing but the value of a
variable can have changed. So it is with statements that declare nothing themselves. -/
theorem alikeBelow_ofDepth (depth : Nat) (m : Machine) :
    (∀ e : Expr, ((ofDepth depth).evaluate e m).Ends fun _ m' =>
      m.scopes.AlikeBelow m.scopes.all.size m'.scopes) ∧
    (∀ s : Stmt, s.staysInside = true → ((ofDepth depth).execute s m).Ends fun _ m' =>
      m.scopes.AlikeBelow m.scopes.all.size m'.scopes) := by
  have follows := follows_ofDepth depth
  constructor
  · intro e
    exact (follows.evaluate (w := true) rfl m).imp fun _ _ course =>
      course.alikeBelow (Nat.le_refl _) nofun
  · intro s inside
    have reach : s.reach = .inside := if_pos inside
    refine (follows.execute (w := true) rfl m).imp fun _ _ course => ?_
    rw [reach] at course
    exact course.alikeBelow (Nat.le_refl _) nofun

end Evaluator

def declaringBranch : Stmt :=
  ⟨2, {}, .branch ⟨{}, .literal (.bool true)⟩
    ⟨1, {}, [⟨0, {}, .declare ⟨"x", {}⟩ false ⟨{}, .literal .nil⟩⟩]⟩ none⟩

/-- The branch is executed to its end in a scope that has no names, and makes a scope for the name that it
declares. -/
theorem alikeBelow_declaringBranch :
    let m : Machine := { scopes := { all := #[{}] } }
    declaringBranch.staysInside = true ∧
      (∃ v m', (Evaluator.ofDepth 6).execute declaringBranch m = .done v m' ∧
        m'.scopes.all.size = 2 ∧ (m'.scopes.get 1).binds "x" = true) ∧
      ((Evaluator.ofDepth 6).execute declaringBranch m).Ends fun _ m' =>
        m.scopes.AlikeBelow 1 m'.scopes := by
  intro m
  refine ⟨rfl, ⟨_, _, rfl, ?_, ?_⟩, (Evaluator.alikeBelow_ofDepth 6 m).2 declaringBranch rfl⟩
  · rfl
  · decide

end Trellis
