/-!
# Paths

A path keeps the text it was written as, because messages show it; what it *means* are its components.
Repeated slashes and dots between them carry no meaning, and a dot in front of a relative path does. Two
paths are the same if their components are.
-/

namespace Trellis

structure Path where
  text : String

inductive PathStep where
  | root
  /-- A dot in front of a relative path. -/
  | here
  | up
  | name (s : String)
deriving DecidableEq, Repr

def PathStep.text : PathStep → String
  | .root => "/"
  | .here => "."
  | .up => ".."
  | .name s => s

namespace Path

def cut (current : List Char) : List Char → List (List Char)
  | [] => [current.reverse]
  | c :: cs => if c == '/' then current.reverse :: cut [] cs else cut (c :: current) cs

def isAbsolute (p : Path) : Bool :=
  p.text.toList.head? == some '/'

/-- The pieces between the slashes, without the empty one in front of an absolute path. -/
def pieces (p : Path) : List String :=
  let all := (cut [] p.text.toList).map String.ofList
  if p.isAbsolute then all.drop 1 else all

def isIdle (piece : String) : Bool :=
  piece == "" || piece == "."

def stepOf (piece : String) : PathStep :=
  if piece == ".." then .up else .name piece

def steps (p : Path) : List PathStep :=
  let body := (p.pieces.filter fun piece => !isIdle piece).map stepOf
  if p.isAbsolute then .root :: body
  else if p.pieces.head? == some "." then .here :: body
  else body

/-- Two paths are the same if their steps are. -/
instance : BEq Path where
  beq a b := a.steps == b.steps

/-- Drop the pieces at the end that carry no meaning. A dot in front of a relative path stays. -/
def dropIdle (absolute : Bool) (pieces : List String) : List String :=
  match pieces with
  | [] => []
  | first :: others =>
    let kept := (others.reverse.dropWhile isIdle).reverse
    if kept.isEmpty && (first == "" || (absolute && first == ".")) then [] else first :: kept

def ofPieces (absolute : Bool) (pieces : List String) : Path :=
  ⟨(if absolute then "/" else "") ++ "/".intercalate pieces⟩

def parent? (p : Path) : Option Path :=
  match dropIdle p.isAbsolute p.pieces with
  | [] => none
  | pieces => some (ofPieces p.isAbsolute (dropIdle p.isAbsolute pieces.dropLast))

def fileName? (p : Path) : Option String :=
  match p.steps.getLast? with
  | some (.name s) => some s
  | _ => none

/-- The part of a name before its last dot and the part behind it. A name that starts with its only dot
has no such parts. -/
def splitName? (name : String) : Option (String × String) :=
  let reversed := name.toList.reverse
  let behind := reversed.takeWhile (· != '.')
  match reversed.dropWhile (· != '.') with
  | [] => none
  | _ :: before =>
    if before.isEmpty || name == ".." then none
    else some (String.ofList before.reverse, String.ofList behind.reverse)

def extension? (p : Path) : Option String :=
  (p.fileName?.bind splitName?).map (·.2)

/-- Give the name at the end of a path an extension in place of its own. -/
def withExtension (p : Path) (extension : String) : Path :=
  match p.fileName? with
  | none => p
  | some name =>
    let stem := ((splitName? name).map (·.1)).getD name
    let full := if extension == "" then stem else stem ++ "." ++ extension
    ofPieces p.isAbsolute ((dropIdle p.isAbsolute p.pieces).dropLast ++ [full])

/-- Continue a path by the text of another one. An absolute one replaces it. -/
def join (p : Path) (other : String) : Path :=
  if (Path.mk other).isAbsolute then ⟨other⟩
  else if p.text == "" || p.text.toList.getLast? == some '/' then ⟨p.text ++ other⟩
  else ⟨p.text ++ "/" ++ other⟩

/-- Take one step in the folded form of a path: a step up undoes the last step if there is one. -/
def foldStep (folded : Path) (step : PathStep) : Path :=
  match step with
  | .here => folded
  | .up => folded.parent?.getD (folded.join "..")
  | other => folded.join other.text

/-- **Fold a path**: take its steps one by one, undoing a step at every step up. A path that folds to
nothing is a dot. -/
def fold (p : Path) : Path :=
  let folded := p.steps.foldl foldStep ⟨""⟩
  if folded.text == "" then ⟨"."⟩ else folded

/-- The directory that a file is in, or the empty path for no file. -/
def directoryOf (file : Option Path) : Path :=
  (file.bind parent?).getD ⟨""⟩

end Path

end Trellis
