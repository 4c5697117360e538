import Trellis.Value

/-!
# Built-in functions

The functions that a host provides: writing a line, working with files and paths, and reading the clock.
Each has a name, by which scripts call it, and the least number of arguments it takes, if it insists on
one. What they do is said elsewhere; here they are only named.
-/

namespace Trellis

inductive FileFunction where
  | read
  | write
  | exists
  | delete
  | makeDirectory
  | deleteDirectory
  | info
deriving DecidableEq, Repr

def FileFunction.name : FileFunction → String
  | .read => "read"
  | .write => "write"
  | .exists => "exists"
  | .delete => "delete"
  | .makeDirectory => "mkdir"
  | .deleteDirectory => "deleteDir"
  | .info => "info"

def FileFunction.all : List FileFunction :=
  [.read, .write, .exists, .delete, .makeDirectory, .deleteDirectory, .info]

inductive PathFunction where
  | file
  | directory
  | extension
  | resolve
  | join
  | isAbsolute
deriving DecidableEq, Repr

def PathFunction.name : PathFunction → String
  | .file => "file"
  | .directory => "dir"
  | .extension => "extname"
  | .resolve => "resolve"
  | .join => "join"
  | .isAbsolute => "isAbsolute"

def PathFunction.all : List PathFunction :=
  [.file, .directory, .extension, .resolve, .join, .isAbsolute]

/-- The parts of a date that can be asked for. -/
inductive DatePart where
  | day
  | weekday
  | year
  | hours
  | milliseconds
  | minutes
  | month
  | seconds
deriving DecidableEq, Repr

/-- The name of a part of a date, as it stands in the name of a function. -/
def DatePart.name : DatePart → String
  | .day => "Date"
  | .weekday => "Day"
  | .year => "FullYear"
  | .hours => "Hours"
  | .milliseconds => "Milliseconds"
  | .minutes => "Minutes"
  | .month => "Month"
  | .seconds => "Seconds"

def DatePart.all : List DatePart :=
  [.day, .weekday, .year, .hours, .milliseconds, .minutes, .month, .seconds]

/-- The ways of writing a date as a text. -/
inductive DateFormat where
  | iso
  | json
  | date
  | time
  | utc
  | locale
deriving DecidableEq, Repr

def DateFormat.name : DateFormat → String
  | .iso => "toISOString"
  | .json => "toJSON"
  | .date => "toDateString"
  | .time => "toTimeString"
  | .utc => "toUTCString"
  | .locale => "toLocaleString"

/-- **The functions on dates.** All but `now` are about an instant that was fixed when the module was
made, or when it was last reset. -/
inductive DateFunction where
  | now
  | reset
  /-- A part of the date in the local zone. -/
  | part (p : DatePart)
  | instant
  /-- How far the local zone is behind the reference one. -/
  | zone
  /-- A part of the date in the reference zone. -/
  | utcPart (p : DatePart)
  | format (f : DateFormat)
deriving DecidableEq, Repr

def DateFunction.name : DateFunction → String
  | .now => "now"
  | .reset => "reset"
  | .part p => "get" ++ p.name
  | .instant => "getTime"
  | .zone => "getTimezoneOffset"
  | .utcPart p => "getUTC" ++ p.name
  | .format f => f.name

/-- All functions on dates but the one that writes them as the locale has it. -/
def DateFunction.listed : List DateFunction :=
  [.now, .reset] ++ DatePart.all.map .part ++ [.instant, .zone] ++ DatePart.all.map .utcPart ++
    [.format .iso, .format .json, .format .date, .format .time, .format .utc]

def DateFunction.all : List DateFunction :=
  listed ++ [.format .locale]

inductive Builtin where
  | print
  | file (f : FileFunction)
  | path (f : PathFunction)
  /-- A function on dates, with the place where its instant is kept. -/
  | date (anchor : Ref) (f : DateFunction)
deriving DecidableEq, Repr

namespace Builtin

def name : Builtin → String
  | print => "print"
  | file f => f.name
  | path f => f.name
  | date _ f => f.name

def leastArguments? : Builtin → Option Nat
  | print => none
  | file .write => some 2
  | file _ => some 1
  | path .resolve => none
  | path .join => none
  | path .isAbsolute => some 1
  | path _ => some 0
  | date _ _ => some 0

end Builtin

end Trellis
