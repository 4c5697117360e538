/-!
# Edit distance

How many single-character insertions, deletions and replacements turn one word into another? The
distance is computed row by row: the row of a word's prefix holds its distances to all prefixes of the
other word, and the next row follows from it.
-/

namespace Trellis.Text

/-- The rest of a row: `diagonal` and `left` are the entries up-left and left of the next one, and the
list pairs each character of the other word with the entry above. -/
def distanceRow (c : Char) (diagonal left : Nat) : List (Char × Nat) → List Nat
  | [] => []
  | (d, above) :: rest =>
    let here := min (diagonal + if c == d then 0 else 1) (min (left + 1) (above + 1))
    here :: distanceRow c above here rest

def nextDistanceRow (other : List Char) (row : List Nat) (c : Char) : List Nat :=
  match row with
  | [] => []
  | first :: rest => (first + 1) :: distanceRow c first (first + 1) (other.zip rest)

def editDistance (a b : String) : Nat :=
  let start := List.range (b.length + 1)
  (a.toList.foldl (nextDistanceRow b.toList) start).getLastD 0

end Trellis.Text
