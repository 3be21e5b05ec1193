import SpeedTrial.Decimal.Layout

/-!
# Dates and times of day

An instant is counted from the start of 1970 in UTC.  The calendar is the Gregorian one
extended to all years, whose pattern repeats every 400 years, that is every 146097 days.

* `Instant.civil` is the date and the time of day.
* `Instant.timestamp` and `Instant.fileStamp` write an instant for a report and for the name
  of a file.
-/

namespace SpeedTrial.Time

open SpeedTrial.Decimal

/-- A point in time: seconds since the start of 1970, and nanoseconds within the second. -/
structure Instant where
  seconds : Int
  nanos : Nat
  deriving DecidableEq, Repr, Inhabited

/-- A date and a time of day. -/
structure Civil where
  year : Int
  month : Nat
  day : Nat
  hour : Nat
  minute : Nat
  second : Nat
  deriving DecidableEq, Repr

/-- The date of a day counted from the start of 1970.  Years are taken to begin in March, so
that the leap day is the last of its year and the lengths of the months follow one rule. -/
def dateOfDay (day : Int) : Int × Nat × Nat :=
  let shifted := day + 719468
  let era := shifted / 146097
  let dayOfEra := (shifted % 146097).toNat
  let yearOfEra := (dayOfEra - dayOfEra / 1460 + dayOfEra / 36524 - dayOfEra / 146096) / 365
  let dayOfYear := dayOfEra - (365 * yearOfEra + yearOfEra / 4 - yearOfEra / 100)
  let monthFromMarch := (5 * dayOfYear + 2) / 153
  let dayOfMonth := dayOfYear - (153 * monthFromMarch + 2) / 5 + 1
  let month := if monthFromMarch < 10 then monthFromMarch + 3 else monthFromMarch - 9
  let year := era * 400 + yearOfEra + (if month ≤ 2 then 1 else 0)
  (year, month, dayOfMonth)

/-- The date and the time of day of an instant. -/
def Instant.civil (t : Instant) : Civil :=
  let (year, month, day) := dateOfDay (t.seconds / 86400)
  let s := (t.seconds % 86400).toNat
  ⟨year, month, day, s / 3600, s / 60 % 60, s % 60⟩

/-- A year: four digits, or a sign and at least four digits outside 0 to 9999. -/
def yearText (year : Int) : String :=
  let digits := padZeros 4 (toString year.natAbs)
  if 0 ≤ year ∧ year ≤ 9999 then digits else (if year < 0 then "-" else "+") ++ digits

/-- A number of two digits. -/
def twoDigits (n : Nat) : String := padZeros 2 (toString n)

/-- The fraction of a second, in as many groups of three digits as it needs. -/
def fractionText (nanos : Nat) : String :=
  if nanos = 0 then ""
  else if nanos % 1000000 = 0 then "." ++ padZeros 3 (toString (nanos / 1000000))
  else if nanos % 1000 = 0 then "." ++ padZeros 6 (toString (nanos / 1000))
  else "." ++ padZeros 9 (toString nanos)

/-- An instant in a report, such as `2024-03-09T12:05:07+00:00`. -/
def Instant.timestamp (t : Instant) : String :=
  let c := t.civil
  yearText c.year ++ "-" ++ twoDigits c.month ++ "-" ++ twoDigits c.day ++ "T" ++
    twoDigits c.hour ++ ":" ++ twoDigits c.minute ++ ":" ++ twoDigits c.second ++
    fractionText t.nanos ++ "+00:00"

/-- An instant in the name of a file, such as `20240309_120507`. -/
def Instant.fileStamp (t : Instant) : String :=
  let c := t.civil
  yearText c.year ++ twoDigits c.month ++ twoDigits c.day ++ "_" ++
    twoDigits c.hour ++ twoDigits c.minute ++ twoDigits c.second

end SpeedTrial.Time
