import Trellis.Files.Fault
import Trellis.Path

/-!
# File trees

The files that a run works on are a value: every file and directory under its *location*, the list of
names that lead to it from the root, together with the location of the working directory. A path is
followed name by name, and every name but the last has to lead to a directory.
-/

namespace Trellis

/-- Where something is: the names that lead to it from the root. -/
abbrev Location := List String

inductive FileNode where
  | directory
  | file (content : ByteArray)

structure FileTree where
  nodes : List (Location × FileNode) := []
  working : Location := []

/-- The last step of a path that is to be changed. -/
inductive LastStep where
  /-- A name, and whether a slash follows it. -/
  | name (s : String) (slash : Bool)
  | here
  | up
  | root

namespace FileTree

def node? (t : FileTree) (place : Location) : Option FileNode :=
  if place.isEmpty then some .directory
  else (t.nodes.find? (·.1 == place)).map (·.2)

def put (t : FileTree) (place : Location) (node : FileNode) : FileTree :=
  if t.nodes.any (·.1 == place) then
    { t with nodes := t.nodes.map fun entry => if entry.1 == place then (place, node) else entry }
  else { t with nodes := t.nodes ++ [(place, node)] }

def erase (t : FileTree) (place : Location) : FileTree :=
  { t with nodes := t.nodes.filter (·.1 != place) }

def isEmptyDirectory (t : FileTree) (place : Location) : Bool :=
  !t.nodes.any fun entry => place.isPrefixOf entry.1 && entry.1 != place

/-! ## Following paths -/

def nameLimit : Nat := 255

def pathLimit : Nat := 4096

/-- Follow the pieces of a path. The last of them need not exist. -/
def follow (t : FileTree) : Location → List String → Except FileFault Location
  | current, [] => .ok current
  | current, piece :: rest =>
    match t.node? current with
    | none => .error .missing
    | some (.file _) => .error .notDirectory
    | some .directory =>
      if Path.isIdle piece then t.follow current rest
      else if piece == ".." then t.follow current.dropLast rest
      else if piece.utf8ByteSize > nameLimit then .error .nameTooLong
      else t.follow (current ++ [piece]) rest

def start (t : FileTree) (p : Path) : Except FileFault Location :=
  if p.text == "" then .error .missing
  else if p.text.toList.contains '\x00' then .error .nulInName
  else if p.text.utf8ByteSize ≥ pathLimit then .error .nameTooLong
  else .ok (if p.isAbsolute then [] else t.working)

def locate (t : FileTree) (p : Path) : Except FileFault Location := do
  t.follow (← t.start p) p.pieces

def find (t : FileTree) (p : Path) : Except FileFault (Location × FileNode) := do
  let location ← t.locate p
  match t.node? location with
  | some node => return (location, node)
  | none => .error .missing

/-- The directory part and the last step of a path that is to be changed. -/
def lastStep (p : Path) : List String × LastStep :=
  let reversed := p.pieces.reverse
  let slash := reversed.head? == some ""
  match reversed.dropWhile (· == "") with
  | [] => ([], .root)
  | last :: before =>
    (before.reverse,
      if last == "." then .here else if last == ".." then .up else .name last slash)

/-- The location of the directory part of a path, which has to be a directory, and the last step. -/
def locateLast (t : FileTree) (p : Path) : Except FileFault (Location × LastStep) := do
  let (before, last) := lastStep p
  let directory ← t.follow (← t.start p) before
  match t.node? directory with
  | none => .error .missing
  | some (.file _) => .error .notDirectory
  | some .directory =>
    match last with
    | .name s _ => if s.utf8ByteSize > nameLimit then .error .nameTooLong else return (directory, last)
    | _ => return (directory, last)

/-! ## Operations -/

def canonical (t : FileTree) (p : Path) : Except FileFault Path := do
  let (location, _) ← t.find p
  return ⟨"/" ++ "/".intercalate location⟩

def workingPath (t : FileTree) : Path :=
  ⟨"/" ++ "/".intercalate t.working⟩

def exists? (t : FileTree) (p : Path) : Bool :=
  (t.find p).toBool

def read (t : FileTree) (p : Path) : Except FileFault String := do
  match (← t.find p).2 with
  | .directory => .error .isDirectory
  | .file content =>
    match String.fromUTF8? content with
    | some text => return text
    | none => .error .notText

def write (t : FileTree) (p : Path) (text : String) : Except FileFault FileTree := do
  match ← t.locateLast p with
  | (directory, .name s false) =>
    let location := directory ++ [s]
    match t.node? location with
    | some .directory => .error .isDirectory
    | _ => return t.put location (.file text.toUTF8)
  | _ => .error .isDirectory

def deleteFile (t : FileTree) (p : Path) : Except FileFault FileTree := do
  match ← t.locateLast p with
  | (directory, .name s slash) =>
    let location := directory ++ [s]
    match t.node? location with
    | none => .error .missing
    | some .directory => .error .isDirectory
    | some (.file _) => if slash then .error .notDirectory else return t.erase location
  | _ => .error .isDirectory

def makeDirectory (t : FileTree) (p : Path) : Except FileFault FileTree := do
  match ← t.locateLast p with
  | (directory, .name s _) =>
    let location := directory ++ [s]
    match t.node? location with
    | some _ => .error .present
    | none => return t.put location .directory
  | _ => .error .present

def deleteDirectory (t : FileTree) (p : Path) : Except FileFault FileTree := do
  match ← t.locateLast p with
  | (directory, .name s _) =>
    let location := directory ++ [s]
    match t.node? location with
    | none => .error .missing
    | some (.file _) => .error .notDirectory
    | some .directory =>
      if t.isEmptyDirectory location then return t.erase location else .error .notEmpty
  | (_, .here) => .error .invalid
  | (_, .up) => .error .notEmpty
  | (_, .root) => .error .busy

def way (before : Location) : Location → List Location
  | [] => []
  | name :: rest => (before ++ [name]) :: way (before ++ [name]) rest

def ensureDirectory (t : FileTree) (place : Location) : FileTree :=
  if (t.node? place).isSome then t else t.put place .directory

/-- Put a file or a directory below the working directory, with all directories that lead to it. -/
def plant (t : FileTree) (names : List String) (node : FileNode) : FileTree :=
  let prepared := (way t.working names.dropLast).foldl ensureDirectory t
  prepared.put (t.working ++ names) node

/-- What is below the working directory, under its names from there. -/
def below (t : FileTree) : List (Location × FileNode) :=
  t.nodes.filterMap fun entry =>
    if t.working.isPrefixOf entry.1 && entry.1 != t.working then
      some (entry.1.drop t.working.length, entry.2)
    else none

/-- A tree with nothing but a working directory and what leads to it. -/
def empty (working : Location) : FileTree :=
  { nodes := (way [] working).map fun location => (location, .directory), working }

end FileTree

end Trellis
