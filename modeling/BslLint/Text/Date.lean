/-!
# Dates and spans of time as texts

A moment is a number of seconds since the beginning of 1970, and its date is told in the Gregorian
calendar, for the meridian of Greenwich. Leap days are reckoned as the last days of years that begin
with March.

Of a span of time, less than a second is told in milliseconds, less than a minute in seconds with
three decimal places, and all else in minutes and seconds.
-/

namespace BslLint.Text

/-- A day of the calendar. -/
structure Day where
  year : Nat
  month : Nat
  day : Nat
  deriving DecidableEq, Repr

/-- The day that is a number of days after the first of January 1970. -/
def Day.ofNumber (n : Nat) : Day :=
  let days := n + 719468
  let era := days / 146097
  let dayOfEra := days % 146097
  let yearOfEra := (dayOfEra - dayOfEra / 1460 + dayOfEra / 36524 - dayOfEra / 146096) / 365
  let dayOfYear := dayOfEra - (365 * yearOfEra + yearOfEra / 4 - yearOfEra / 100)
  let month := (5 * dayOfYear + 2) / 153
  let year := 400 * era + yearOfEra
  let day := dayOfYear - (153 * month + 2) / 5 + 1
  if month < 10 then ⟨year, month + 3, day⟩ else ⟨year + 1, month - 9, day⟩

/-- A number with at least some digits. -/
def padded (width n : Nat) : String :=
  let ds := Nat.toDigits 10 n
  String.ofList (List.replicate (width - ds.length) '0' ++ ds)

/-- The date and the time of day of a moment. -/
def date (seconds : Nat) : String :=
  let d := Day.ofNumber (seconds / 86400)
  let t := seconds % 86400
  padded 4 d.year ++ "-" ++ padded 2 d.month ++ "-" ++ padded 2 d.day ++ "T" ++
    padded 2 (t / 3600) ++ ":" ++ padded 2 (t / 60 % 60) ++ ":" ++ padded 2 (t % 60) ++ "Z"

/-- The first moment of all. -/
example : date 0 = "1970-01-01T00:00:00Z" := by decide +kernel

/-- A leap day. -/
example : Day.ofNumber 11016 = ⟨2000, 2, 29⟩ := by decide +kernel

/-- A number of milliseconds as a text. -/
def duration (ms : Nat) : String :=
  let seconds := ms / 1000
  if seconds = 0 then toString ms ++ "ms"
  else if seconds < 60 then toString seconds ++ "." ++ padded 3 (ms % 1000) ++ "s"
  else toString (seconds / 60) ++ "m " ++ toString (seconds % 60) ++ "s"

end BslLint.Text
