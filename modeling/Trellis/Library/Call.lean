import Trellis.Machine

/-!
# Calling built-in functions

What the built-in functions do to a machine. Paths given to the functions on files are relative to the
directory of the calling script, and those given to the functions on paths to the working directory.
-/

namespace Trellis

namespace Library

def textArgument (name : String) (arguments : List Value) (i : Nat) : Except LibraryFault String :=
  match arguments[i]? with
  | some (.text s) => .ok s
  | _ => .error (.notText name i)

def textArguments (name : String) (arguments : List Value) : Except LibraryFault (List String) :=
  (List.range arguments.length).mapM (textArgument name arguments)

@[inline] def settle {α : Type} (span : Span) (x : Except LibraryFault α) : Run α :=
  match x with
  | .ok a => pure a
  | .error fault => Run.fail (.library fault) span

/-! ## Files -/

/-- What a function on files is doing, for the message of a failure. -/
def doing : FileFunction → String
  | .read => "reading"
  | .write => "writing"
  | .exists => "reading"
  | .delete => "deleting"
  | .makeDirectory => "creating"
  | .deleteDirectory => "removing"
  | .info => "reading info of"

def attempt {α : Type} (f : FileFunction) (path : Path) (x : Except FileFault α) : Except LibraryFault α :=
  x.mapError fun reason => .file (doing f) path reason

def directorySize : Nat := 4096

def infoFields (node : FileNode) (time : Value) : Fields Value :=
  let (size, isFile) :=
    match node with
    | .file content => (content.size, true)
    | .directory => (directorySize, false)
  .ofList [("size", .ofNat size), ("mtimeMs", time), ("atimeMs", time), ("birthtimeMs", time),
    ("readonly", .bool false), ("isFile", .bool isFile), ("isDirectory", .bool !isFile),
    ("isSymbolicLink", .bool false)]

def changeFiles (f : FileFunction) (path : Path) (span : Span)
    (change : FileTree → Except FileFault FileTree) : Run Value := do
  let files ← settle span (attempt f path (change (← Action.read (·.files))))
  Action.change fun m => { m with files }
  return .nil

def callFile (f : FileFunction) (arguments : List Value) (span : Span) : Run Value := do
  let raw ← settle span (textArgument f.name arguments 0)
  let path := (Path.directoryOf (← Action.read (·.currentFile))).join raw
  match f with
  | .read =>
    let text ← settle span (attempt f path ((← Action.read (·.files)).read path))
    return .text text
  | .write =>
    let content ← Run.textOf ((arguments[1]?).getD .nil)
    changeFiles f path span fun files => files.write path content
  | .exists => return .bool ((← Action.read (·.files)).exists? path)
  | .delete => changeFiles f path span fun files => files.deleteFile path
  | .makeDirectory => changeFiles f path span fun files => files.makeDirectory path
  | .deleteDirectory => changeFiles f path span fun files => files.deleteDirectory path
  | .info =>
    let (_, node) ← settle span (attempt f path ((← Action.read (·.files)).find path))
    let time := Value.number (Float.ofInt (← Action.read (·.clock.now)))
    Run.alloc fun h => h.newObject (infoFields node time)

/-! ## Paths -/

def withoutSlashes (s : String) : String :=
  String.ofList (s.toList.dropWhile (· == '/'))

def callPath (f : PathFunction) (arguments : List Value) (span : Span) : Run Value := do
  let file ← Action.read (·.currentFile)
  match f with
  | .file => return ((file.bind Path.fileName?).map Value.text).getD .nil
  | .directory => return .text (Path.directoryOf file).text
  | .extension =>
    return .text (((file.bind Path.extension?).map fun e => "." ++ e).getD "")
  | .resolve =>
    let parts ← settle span (textArguments f.name arguments)
    let start := (← Action.read (·.files)).workingPath
    return .text (parts.foldl Path.join start).fold.text
  | .join =>
    let parts ← settle span (textArguments f.name arguments)
    return .text ((parts.map withoutSlashes).foldl Path.join ⟨""⟩).fold.text
  | .isAbsolute =>
    let raw ← settle span (textArgument f.name arguments 0)
    return .bool (Path.mk raw).isAbsolute

/-! ## Dates -/

def partNumber (t : CivilTime) : DatePart → Float
  | .day => Float.ofNat t.day
  | .weekday => Float.ofNat t.weekday
  | .year => Float.ofInt t.year
  | .hours => Float.ofNat t.hour
  | .milliseconds => Float.ofNat t.millisecond
  | .minutes => Float.ofNat t.minute
  | .month => Float.ofNat (t.month - 1)
  | .seconds => Float.ofNat t.second

def formatInstant (clock : Clock) (instant : Int) : DateFormat → String
  | .iso => (CivilTime.ofInstant instant).isoText
  | .json => (CivilTime.ofInstant instant).isoText
  | .date => (clock.localTime instant).dateText
  | .time => (clock.localTime instant).timeText ++ " GMT" ++ clock.zoneText
  | .utc => (CivilTime.ofInstant instant).utcText
  | .locale => (clock.localTime instant).shortText

def callDate (anchor : Ref) (f : DateFunction) : Run Value := do
  let clock ← Action.read (·.clock)
  let instant ← Action.read fun m => (m.heap.anchors[anchor]?).getD 0
  match f with
  | .now => return .number (Float.ofInt clock.now)
  | .reset =>
    Action.change fun m =>
      { m with heap := { m.heap with anchors := m.heap.anchors.setIfInBounds anchor clock.now } }
    return .nil
  | .part p => return .number (partNumber (clock.localTime instant) p)
  | .instant => return .number (Float.ofInt instant)
  | .zone => return .number (Float.ofInt (-clock.zone))
  | .utcPart p => return .number (partNumber (CivilTime.ofInstant instant) p)
  | .format format => return .text (formatInstant clock instant format)

/-- Write the texts of values, with blanks between them, on a line. -/
def print (arguments : List Value) : Run Value := do
  let texts ← Action.read fun m => arguments.map m.heap.text
  Run.write (" ".intercalate texts ++ "\n")
  return .nil

def call (b : Builtin) (arguments : List Value) (span : Span) : Run Value :=
  match b with
  | .print => print arguments
  | .file f => callFile f arguments span
  | .path f => callPath f arguments span
  | .date anchor f => callDate anchor f

end Library

end Trellis
