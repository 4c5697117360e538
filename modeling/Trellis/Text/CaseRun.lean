/-!
# Runs of case mappings

Case mappings come in runs: the letters of an alphabet all move by one distance, and in alphabets that
alternate upper and lower case every second character does. A `CaseRun` describes such a stretch, and a
list of them is a mapping of single characters.
-/

namespace Trellis.Text

/-- **A run of characters that move by one distance.** The run holds `first`, `first + step`, … up to
`last`. -/
structure CaseRun where
  first : Nat
  last : Nat
  /-- The distance between neighbours of the run: one, or two where cases alternate. -/
  step : Nat
  /-- The distance from a character of the run to its partner. -/
  shift : Int

namespace CaseRun

def run (first last : Nat) (shift : Int) : CaseRun :=
  ⟨first, last, 1, shift⟩

def one (n : Nat) (shift : Int) : CaseRun :=
  ⟨n, n, 1, shift⟩

/-- A run in which cases alternate, so that every second character moves to its neighbour. -/
def pairs (first last : Nat) : CaseRun :=
  ⟨first, last, 2, 1⟩

def back (r : CaseRun) : CaseRun :=
  ⟨(r.first + r.shift).toNat, (r.last + r.shift).toNat, r.step, -r.shift⟩

def holds (r : CaseRun) (n : Nat) : Bool :=
  r.first ≤ n && n ≤ r.last && (n - r.first) % r.step == 0

def find? (runs : List CaseRun) (n : Nat) : Option Nat :=
  (runs.find? (·.holds n)).map fun r => ((n : Int) + r.shift).toNat

end CaseRun

end Trellis.Text
