/-!
# Dates

The date of a moment given in seconds since the start of 1970, in the calendar that repeats every
400 years, and its text: weekday, month, day, time of day, offset from universal time, year.

The examples are the first day, a leap day and the last day of a year.
-/

namespace CommandConsole.Calendar

/-- A day of a year. -/
structure Date where
  year : Nat
  month : Nat
  day : Nat
  deriving DecidableEq, Repr

/-- The date of a day given by its number since 1970. Years are counted from March, so that a leap
day is the last of its year. -/
def dateOf (days : Nat) : Date :=
  let z := days + 719468
  let era := z / 146097
  let dayOfEra := z % 146097
  let yearOfEra := (dayOfEra - dayOfEra / 1460 + dayOfEra / 36524 - dayOfEra / 146096) / 365
  let dayOfYear := dayOfEra - (365 * yearOfEra + yearOfEra / 4 - yearOfEra / 100)
  let m := (5 * dayOfYear + 2) / 153
  let month := if m < 10 then m + 3 else m - 9
  ⟨yearOfEra + era * 400 + (if month ≤ 2 then 1 else 0), month, dayOfYear - (153 * m + 2) / 5 + 1⟩

/-- Weekdays from that of the first day of 1970 on. -/
def weekdays : List String :=
  ["Thu", "Fri", "Sat", "Sun", "Mon", "Tue", "Wed"]

/-- Months in order. -/
def months : List String :=
  ["Jan", "Feb", "Mar", "Apr", "May", "Jun", "Jul", "Aug", "Sep", "Oct", "Nov", "Dec"]

/-- A number with zeros in front up to a width. -/
def padded (width n : Nat) : String :=
  let digits := toString n
  String.ofList (List.replicate (width - digits.length) '0') ++ digits

/-- The text of a moment, given in seconds since 1970 in universal time. -/
def render (seconds : Nat) : String :=
  let days := seconds / 86400
  let time := seconds % 86400
  let date := dateOf days
  let clock :=
    ":".intercalate [padded 2 (time / 3600), padded 2 (time / 60 % 60), padded 2 (time % 60)]
  " ".intercalate [weekdays.getD (days % 7) "", months.getD (date.month - 1) "",
    padded 2 date.day, clock, "+00:00", padded 4 date.year]

example :
    dateOf 0 = ⟨1970, 1, 1⟩ ∧ dateOf 11016 = ⟨2000, 2, 29⟩ ∧ dateOf 19722 = ⟨2023, 12, 31⟩ := by
  decide

end CommandConsole.Calendar
