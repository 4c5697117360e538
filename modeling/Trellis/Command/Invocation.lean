import Trellis.Number.Reading

/-!
# Invocations

An invocation is what the arguments of the command ask for: an activity, with the script it is about, and
the options that hold for every activity. Options may stand before the name of the activity and behind it;
if one is given in both places, the later one counts, and giving it twice in one place is a mistake.

An option is written in one of the usual ways: `--keywords table.json`, `--keywords=table.json`,
`-k table.json`, `-ktable.json`, `-k=table.json`. Short ones without a value can be run together. Behind
`--` nothing is an option any more.
-/

namespace Trellis

inductive Activity where
  | converse
  | run (script : String)
  /-- Run a script under the debugger, with breakpoints at lines. -/
  | debug (script : String) (breakpoints : List Nat)
  /-- Lay out a script, in its file or on the output. -/
  | layOut (script : String) (inPlace : Bool)
  | tokens (script : String)
deriving DecidableEq, Repr

structure Invocation where
  activity : Activity := .converse
  /-- The file with the spellings of keywords. -/
  keywords : Option String := none
  settings : Option String := none
  /-- Skip unexpected tokens, whatever the settings say. -/
  lenient : Bool := false
deriving DecidableEq, Repr

/-- An option that the command knows. -/
inductive Switch where
  | keywords
  | settings
  | logLevel
  | lenient
  | breakpoint
  | inPlace
deriving DecidableEq, Repr

namespace Switch

def ofLong? : String → Option Switch
  | "keywords" => some keywords
  | "config" => some settings
  | "log-level" => some logLevel
  | "lenient-match" => some lenient
  | "breakpoint" => some breakpoint
  | "write" => some inPlace
  | _ => none

def ofShort? : Char → Option Switch
  | 'k' => some keywords
  | 'b' => some breakpoint
  | 'w' => some inPlace
  | _ => none

def takesValue : Switch → Bool
  | lenient => false
  | inPlace => false
  | _ => true

def repeats : Switch → Bool
  | breakpoint => true
  | _ => false

def isGeneral : Switch → Bool
  | breakpoint => false
  | inPlace => false
  | _ => true

end Switch

/-- A piece of the arguments. -/
inductive Argument where
  | switch (s : Switch) (value : String)
  | word (text : String)
deriving DecidableEq, Repr

namespace Argument

def isValue (text : String) : Bool :=
  !"-".toList.isPrefixOf text.toList || text == "-"

/-- Read short options that are run together, from the characters behind the dash. A value is in the rest
of the characters, or in the next argument. -/
def readShort? (rest : List String) : List Char → Option (List Argument × List String)
  | [] => some ([], rest)
  | c :: cs => do
    let s ← Switch.ofShort? c
    if s.takesValue then
      match cs with
      | [] =>
        match rest with
        | value :: rest => if isValue value then some ([.switch s value], rest) else none
        | [] => none
      | '=' :: value => some ([.switch s (String.ofList value)], rest)
      | value => some ([.switch s (String.ofList value)], rest)
    else
      let (more, rest) ← readShort? rest cs
      some (.switch s "" :: more, rest)

/-- Read a long option, from the characters behind the two dashes. -/
def readLong? (rest : List String) (text : List Char) : Option (List Argument × List String) := do
  let s ← Switch.ofLong? (String.ofList (text.takeWhile (· != '=')))
  match text.dropWhile (· != '='), s.takesValue with
  | _ :: value, true => some ([.switch s (String.ofList value)], rest)
  | [], true =>
    match rest with
    | value :: rest => if isValue value then some ([.switch s value], rest) else none
    | [] => none
  | [], false => some ([.switch s ""], rest)
  | _ :: _, false => none

def readFirst? (first : String) (rest : List String) : Option (List Argument × List String) :=
  match first.toList with
  | '-' :: '-' :: text => readLong? rest text
  | ['-'] => some ([.word first], rest)
  | '-' :: text => readShort? rest text
  | _ => some ([.word first], rest)

/-- Read the arguments up to the first word, which is part of what is read, or to the end. `none` if they
are not well formed. The number bounds the steps. -/
def readUpToWord? : Nat → List String → Option (List Argument × List String)
  | _, [] => some ([], [])
  | 0, _ => none
  | steps + 1, first :: rest => do
    if first == "--" then none
    else
      let (arguments, rest) ← readFirst? first rest
      match arguments with
      | [.word _] => some (arguments, rest)
      | _ =>
        let (more, rest) ← readUpToWord? steps rest
        some (arguments ++ more, rest)

def readAll? : Nat → List String → Option (List Argument)
  | _, [] => some []
  | 0, _ => none
  | steps + 1, first :: rest => do
    if first == "--" then some (rest.map .word)
    else
      let (arguments, rest) ← readFirst? first rest
      return arguments ++ (← readAll? steps rest)

def words (arguments : List Argument) : List String :=
  arguments.filterMap fun
    | .word text => some text
    | .switch _ _ => none

def valuesOf (s : Switch) (arguments : List Argument) : List String :=
  arguments.filterMap fun
    | .word _ => none
    | .switch t value => if s == t then some value else none

/-- Is every option allowed, and given once unless it may be repeated? -/
def areProper (allowed : Switch → Bool) (arguments : List Argument) : Bool :=
  arguments.all fun
    | .word _ => true
    | .switch s _ => (allowed s && (s.repeats || (valuesOf s arguments).length == 1))

end Argument

namespace Invocation

def script? : List String → Option String
  | [script] => if script.isEmpty then none else some script
  | _ => none

def allows (name : String) (s : Switch) : Bool :=
  s.isGeneral || (name == "debug" && s == .breakpoint) || (name == "fmt" && s == .inPlace)

/-- The activity with a name, with the arguments that follow the name. -/
def activity? (name : String) (arguments : List Argument) : Option Activity := do
  let words := Argument.words arguments
  match name with
  | "repl" => if words.isEmpty then some .converse else none
  | "run" => return .run (← script? words)
  | "debug" =>
    let lines ← (Argument.valuesOf .breakpoint arguments).mapM Number.readNat?
    return .debug (← script? words) lines
  | "fmt" => return .layOut (← script? words) !(Argument.valuesOf .inPlace arguments).isEmpty
  | "tokens" => return .tokens (← script? words)
  | _ => none

def ofArguments (activity : Activity) (before after : List Argument) : Invocation :=
  let last (s : Switch) : Option String := (Argument.valuesOf s (before ++ after)).getLast?
  { activity
    keywords := last .keywords
    settings := last .settings
    lenient := (last .lenient).isSome }

/-- **Read the arguments of the command**; `none` if they make no sense. -/
def read? (arguments : List String) : Option Invocation := do
  let (before, rest) ← Argument.readUpToWord? arguments.length arguments
  if !Argument.areProper Switch.isGeneral before then none
  else
    match Argument.words before with
    | [] => some (ofArguments .converse before [])
    | name :: _ =>
      let after ← Argument.readAll? rest.length rest
      if !Argument.areProper (allows name) after then none
      else return ofArguments (← activity? name after) before after

def usage : String :=
  "Usage: trellis [OPTIONS] [repl | run <SCRIPT> | debug [-b <LINE>]... <SCRIPT> | " ++
    "fmt [-w] <SCRIPT> | tokens <SCRIPT>]\n" ++
  "Options: [-k, --keywords <FILE>] [--config <FILE>] [--log-level <LEVEL>] [--lenient-match]\n"

end Invocation

end Trellis
