/-!
# Lines of a text

A line ends at a line feed, and a carriage return right before that line feed is dropped with it. A last
line without a line feed is a line only if it holds a character, and a carriage return at its end is
kept.
-/

namespace Trellis.Text

/-- Drop one carriage return from the end of a line kept in reverse, and put it in order. -/
def closeLine : List Char → List Char
  | '\r' :: line => line.reverse
  | line => line.reverse

def linesFrom (current : List Char) : List Char → List (List Char)
  | [] => if current.isEmpty then [] else [current.reverse]
  | '\n' :: rest => closeLine current :: linesFrom [] rest
  | c :: rest => linesFrom (c :: current) rest

def lines (s : String) : List String :=
  (linesFrom [] s.toList).map String.ofList

/-- Read one line with its line feed from the front of a text; `none` at the end of the text. -/
def readLine? : List Char → Option (List Char × List Char)
  | [] => none
  | cs =>
    let line := cs.takeWhile (· != '\n')
    match cs.dropWhile (· != '\n') with
    | [] => some (line, [])
    | feed :: rest => some (line ++ [feed], rest)

def repeated (n : Nat) (c : Char) : String :=
  String.ofList (List.replicate n c)

def padLeft (width : Nat) (s : String) : String :=
  repeated (width - s.length) ' ' ++ s

def padRight (width : Nat) (s : String) : String :=
  s ++ repeated (width - s.length) ' '

theorem linesFrom_cons_of_ne {c : Char} (h : c ≠ '\n') (current rest : List Char) :
    linesFrom current (c :: rest) = linesFrom (c :: current) rest := by
  rw [linesFrom]
  exact h

/-- A piece without line feeds goes into the line that is being read. -/
theorem linesFrom_append {cs : List Char} (h : '\n' ∉ cs) (current rest : List Char) :
    linesFrom current (cs ++ rest) = linesFrom (cs.reverse ++ current) rest := by
  induction cs generalizing current with
  | nil => rfl
  | cons c cs ih =>
    obtain ⟨hc, hcs⟩ := not_or.mp (mt List.mem_cons.mpr h)
    rw [List.cons_append, linesFrom_cons_of_ne (Ne.symm hc), ih hcs, List.reverse_cons, List.append_assoc]
    rfl

end Trellis.Text
