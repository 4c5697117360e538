import Trellis.Text.Lines

/-!
# The calendar

An instant is a number of milliseconds since the start of 1970 in the reference zone. Read in a zone, it
is a date and a time of day. Years are those of the Gregorian calendar, carried on in both directions.

The days are counted in periods of 400 years, all of which are equally long, and years are taken to start
in March, so that the day that is only there in some years is the last one of a year.
-/

namespace Trellis

structure CivilTime where
  year : Int
  month : Nat
  day : Nat
  /-- From zero, which is Sunday, to six. -/
  weekday : Nat
  hour : Nat
  minute : Nat
  second : Nat
  millisecond : Nat
deriving DecidableEq, Repr

namespace CivilTime

def dayLength : Int := 86400000

def periodLength : Int := 146097

/-- The days from the March at the start of a period to the start of 1970. -/
def epochDay : Int := 719468

/-- The year within a period, counted from its first March, of a day of the period. -/
def yearOfPeriod (day : Int) : Int :=
  (day - day / 1460 + day / 36524 - day / 146096) / 365

/-- **The date and the time of day** that an instant is in the reference zone. -/
def ofInstant (instant : Int) : CivilTime :=
  let days := instant / dayLength
  let rest := (instant % dayLength).toNat
  let shifted := days + epochDay
  let period := shifted / periodLength
  let dayOfPeriod := shifted % periodLength
  let year := yearOfPeriod dayOfPeriod
  let dayOfYear := dayOfPeriod - (365 * year + year / 4 - year / 100)
  let march := (5 * dayOfYear + 2) / 153
  let month := if march < 10 then march + 3 else march - 9
  { year := year + 400 * period + (if month ≤ 2 then 1 else 0)
    month := month.toNat
    day := (dayOfYear - (153 * march + 2) / 5 + 1).toNat
    weekday := ((days + 4) % 7).toNat
    hour := rest / 3600000
    minute := rest / 60000 % 60
    second := rest / 1000 % 60
    millisecond := rest % 1000 }

/-! ## Texts -/

def digits (width n : Nat) : String :=
  let text := toString n
  Text.repeated (width - text.length) '0' ++ text

/-- A year: four digits, and a sign if it needs one or has more digits than four. -/
def yearText (year : Int) : String :=
  if year < 0 then "-" ++ digits 4 year.natAbs
  else if year > 9999 then "+" ++ digits 4 year.natAbs
  else digits 4 year.natAbs

def monthName (month : Nat) : String :=
  ((["Jan", "Feb", "Mar", "Apr", "May", "Jun", "Jul", "Aug", "Sep", "Oct", "Nov",
    "Dec"])[month - 1]?).getD ""

def weekdayName (weekday : Nat) : String :=
  ((["Sun", "Mon", "Tue", "Wed", "Thu", "Fri", "Sat"])[weekday]?).getD ""

def timeText (t : CivilTime) : String :=
  digits 2 t.hour ++ ":" ++ digits 2 t.minute ++ ":" ++ digits 2 t.second

def isoText (t : CivilTime) : String :=
  yearText t.year ++ "-" ++ digits 2 t.month ++ "-" ++ digits 2 t.day ++ "T" ++ t.timeText ++ "." ++
    digits 3 t.millisecond ++ "Z"

def dateText (t : CivilTime) : String :=
  weekdayName t.weekday ++ " " ++ monthName t.month ++ " " ++ digits 2 t.day ++ " " ++
    yearText t.year

def utcText (t : CivilTime) : String :=
  weekdayName t.weekday ++ ", " ++ digits 2 t.day ++ " " ++ monthName t.month ++ " " ++
    yearText t.year ++ " " ++ t.timeText ++ " GMT"

def shortText (t : CivilTime) : String :=
  digits 2 t.month ++ "/" ++ digits 2 t.day ++ "/" ++ digits 2 (t.year % 100).toNat ++ ", " ++
    t.timeText

end CivilTime

/-- **A clock that stands still**: the present instant, and how many minutes the local zone is ahead of the
reference zone. -/
structure Clock where
  now : Int := 0
  zone : Int := 0

namespace Clock

/-- The date and the time of day that an instant is in the local zone. -/
def localTime (c : Clock) (instant : Int) : CivilTime :=
  CivilTime.ofInstant (instant + c.zone * 60000)

def zoneText (c : Clock) : String :=
  (if c.zone < 0 then "-" else "+") ++ CivilTime.digits 2 (c.zone.natAbs / 60) ++
    CivilTime.digits 2 (c.zone.natAbs % 60)

end Clock

end Trellis
