-- SUMMARY: Points in time as RFC 3339 texts.

/-!
# Timestamps

A point in time is kept as the text that RFC 3339 gives it, in universal time.
-/

namespace TidyImports

/-- A point in time, as RFC 3339 writes it. -/
abbrev Timestamp := String

namespace Timestamp

/-- A number with zeros in front up to a width. -/
def padded (width n : Nat) : String :=
  let digits := toString n
  "".pushn '0' (width - digits.length) ++ digits

/-- Year, month and day of a day counted from 1970-01-01. Years are taken to begin in March, so that
a leap day comes last; 400 of them have 146097 days. -/
def civil (day : Nat) : Nat × Nat × Nat :=
  let shifted := day + 719468
  let inEra := shifted % 146097
  let yearOfEra := (inEra - inEra / 1460 + inEra / 36524 - inEra / 146096) / 365
  let dayOfYear := inEra - (365 * yearOfEra + yearOfEra / 4 - yearOfEra / 100)
  let march := (5 * dayOfYear + 2) / 153
  let month := if march < 10 then march + 3 else march - 9
  let year := yearOfEra + shifted / 146097 * 400 + if month ≤ 2 then 1 else 0
  (year, month, dayOfYear - (153 * march + 2) / 5 + 1)

/-- The fraction of a second in thousandths, millionths or billionths, whichever is exact first. -/
def fraction (nanoseconds : Nat) : String :=
  if nanoseconds = 0 then ""
  else if nanoseconds % 1000000 = 0 then "." ++ padded 3 (nanoseconds / 1000000)
  else if nanoseconds % 1000 = 0 then "." ++ padded 6 (nanoseconds / 1000)
  else "." ++ padded 9 nanoseconds

/-- The point in time so many nanoseconds after the start of 1970. -/
def ofNanoseconds (n : Nat) : Timestamp :=
  let seconds := n / 1000000000
  let (year, month, day) := civil (seconds / 86400)
  let inDay := seconds % 86400
  padded 4 year ++ "-" ++ padded 2 month ++ "-" ++ padded 2 day ++ "T" ++
    padded 2 (inDay / 3600) ++ ":" ++ padded 2 (inDay / 60 % 60) ++ ":" ++ padded 2 (inDay % 60) ++
    fraction (n % 1000000000) ++ "Z"

end Timestamp

end TidyImports
