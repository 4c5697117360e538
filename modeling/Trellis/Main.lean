import Std.Time.DateTime.Timestamp
import Trellis.Command
import Trellis.Files.Change

/-!
# The program

The program takes a picture of the files around it, lets the command work on that picture, and carries
out what changed. A session that is typed in is answered line by line.
-/

namespace Trellis

def locationOf (path : String) : Location :=
  (path.splitOn "/").filter (· != "")

def pathOf (place : Location) : String :=
  "/" ++ "/".intercalate place

/-- Add what is in a directory to a tree. What cannot be read is left out. -/
partial def addDirectory (tree : FileTree) (place : Location) : IO FileTree := do
  let mut tree := tree
  for entry in ← (← IO.FS.realPath (pathOf place)).readDir do
    let inner := place ++ [entry.fileName]
    try
      match (← entry.path.symlinkMetadata).type with
      | .dir => tree ← addDirectory (tree.put inner .directory) inner
      | _ => tree := tree.put inner (.file (← IO.FS.readBinFile entry.path))
    catch _ => pure ()
  return tree

def addSurroundings (tree : FileTree) (file : String) : IO FileTree := do
  try
    let place := (locationOf (← IO.FS.realPath file).toString).dropLast
    if (tree.node? place).isSome && place != [] then return tree
    addDirectory ((FileTree.way [] place).foldl FileTree.ensureDirectory tree) place
  catch _ => return tree

/-- A picture of the files below the working directory, and of those next to the files that an invocation
names. -/
def readTree (i : Invocation) : IO FileTree := do
  let working := locationOf (← IO.currentDir).toString
  let script :=
    match i.activity with
    | .converse => []
    | .run path => [path]
    | .debug path _ => [path]
    | .layOut path _ => [path]
    | .tokens path => [path]
  (i.keywords.toList ++ i.settings.toList ++ script).foldlM addSurroundings
    (← addDirectory (.empty working) working)

def FileChange.apply : FileChange → IO Unit
  | removeFile place => IO.FS.removeFile (pathOf place)
  | removeDirectory place => IO.FS.removeDir (pathOf place)
  | makeDirectory place => IO.FS.createDir (pathOf place)
  | writeFile place content => IO.FS.writeBinFile (pathOf place) content

def applyChanges (before after : FileTree) : IO Unit :=
  (before.changes after).forM FileChange.apply

def presentClock : IO Clock := do
  return { now := (← Std.Time.Timestamp.now).toMillisecondsSinceUnixEpoch.val }

/-- All of the input. -/
partial def readInput (stream : IO.FS.Stream) (before : String) : IO String := do
  let line ← stream.getLine
  if line.isEmpty then return before else readInput stream (before ++ line)

/-- Answer a session line by line. -/
partial def converseWith (stream : IO.FS.Stream) (terminal : Bool) (s : Session) : IO Unit := do
  if terminal then
    IO.print (if s.gathered.isEmpty then "> " else "| ")
    (← IO.getStdout).flush
  let line ← stream.getLine
  if line.isEmpty then return
  let next := s.feedAll line
  IO.print next.machine.output
  IO.eprint next.reports
  applyChanges s.machine.files next.machine.files
  converseWith stream terminal
    { next with machine := { next.machine with transcript := {} }, reports := "" }

def deliver (before : FileTree) (d : Delivery) : IO UInt32 := do
  applyChanges before d.files
  IO.print d.output
  IO.eprint d.errors
  return d.code.toUInt32

def serve (i : Invocation) : IO UInt32 := do
  let stdin ← IO.getStdin
  let surroundings : Surroundings := { files := ← readTree i, clock := ← presentClock }
  match i.activity with
  | .converse =>
    match surroundings.machine i with
    | .ok m =>
      converseWith stdin (← stdin.isTty) (Session.start m)
      return 0
    | .error fault => deliver surroundings.files (.failing surroundings.files fault.message)
  | .debug _ _ =>
    let input ← readInput stdin ""
    deliver surroundings.files (i.perform { surroundings with input })
  | _ => deliver surroundings.files (i.perform surroundings)

end Trellis

def main (arguments : List String) : IO UInt32 := do
  match Trellis.Invocation.read? arguments with
  | some invocation => Trellis.serve invocation
  | none =>
    IO.eprint Trellis.Invocation.usage
    return 2
