/-!
# Sets of code points

A property of characters, as the character standard publishes it, is long to list and short to
describe by the places where it starts and stops to hold. `CodePoints` keeps just these places, in
increasing order: before the first one no character belongs, from the first to the second all do,
and so on in turns. A character therefore belongs exactly when an odd number of places lies at or
below it, and that is the definition of membership.

The tables below `Trellis.Text.Table` are values of this type. They are written as the lengths of
the runs between two places (`CodePoints.ofRuns`), which are small numbers. They describe the
characters outside ASCII only; the predicates built on them answer for ASCII by themselves.
-/

namespace Trellis.Text

/-- **A set of code points.** Given by the code points at which membership turns, so that a table of
several hundred ranges stays a plain list of numbers. -/
structure CodePoints where
  /-- The code points at which membership turns, the first of them into the set. -/
  turns : List Nat

namespace CodePoints

/-- The places behind runs of the given lengths, one behind the other. -/
def turnsFrom (start : Nat) : List Nat → List Nat
  | [] => []
  | length :: rest => (start + length) :: turnsFrom (start + length) rest

/-- The set with runs of the given lengths: the first of them does not belong, the second one does,
and so on in turns. -/
def ofRuns (lengths : List Nat) : CodePoints :=
  ⟨turnsFrom 0 lengths⟩

/-- A character belongs when an odd number of turns lies at or below it. -/
def contains (s : CodePoints) (c : Char) : Bool :=
  s.turns.countP (fun p => p ≤ c.toNat) % 2 == 1

end CodePoints

end Trellis.Text
