import CommitLog.Time.Calendar

/-!
# Instants and offsets

An instant counts seconds from the start of 1970 in UTC.  A leap second is the second before it with
a billion or more nanoseconds.  An offset is the number of seconds that local time is ahead of UTC.
-/

namespace CommitLog.Time

structure Instant where
  seconds : Int
  nanoseconds : Nat
  deriving DecidableEq, Repr

def dayLength : Int := 86400

/-- The first second of the least year. -/
def earliest : Int := -8334601228800

/-- The last second of the greatest year. -/
def latest : Int := 8210266876799

/-- Whether the calendar has a date for this second. -/
def inRange (seconds : Int) : Bool := earliest ≤ seconds && seconds ≤ latest

namespace Instant

def ofSeconds (seconds : Int) : Instant := ⟨seconds, 0⟩

def notAfter (a b : Instant) : Bool :=
  a.seconds < b.seconds || (a.seconds == b.seconds && a.nanoseconds ≤ b.nanoseconds)

/-- The fraction of a second with three, six or nine digits, left out when it is zero. -/
def fractionText (nanoseconds : Nat) : String :=
  if nanoseconds == 0 then ""
  else if nanoseconds % 1000000 == 0 then "." ++ Text.padded 3 (nanoseconds / 1000000)
  else if nanoseconds % 1000 == 0 then "." ++ Text.padded 6 (nanoseconds / 1000)
  else "." ++ Text.padded 9 nanoseconds

/-- The instant in UTC, such as `2023-11-14T22:13:20+00:00`.  A leap second is written as
second 60. -/
def text (instant : Instant) : String :=
  let days := instant.seconds / dayLength
  let second := (instant.seconds % dayLength).toNat
  let date := Date.ofDayNumber days
  let leap := if 1000000000 ≤ instant.nanoseconds then 1 else 0
  yearText date.year ++ "-" ++ Text.padded 2 date.month ++ "-" ++ Text.padded 2 date.day ++ "T" ++
    Text.padded 2 (second / 3600) ++ ":" ++ Text.padded 2 (second / 60 % 60) ++ ":" ++
    Text.padded 2 (second % 60 + leap) ++ fractionText (instant.nanoseconds % 1000000000) ++
    "+00:00"

end Instant

/-- An offset as sign, hours and minutes; seconds are rounded to the nearest minute. -/
def offsetText (offset : Int) : String :=
  let minutes := (offset.natAbs + 30) / 60
  (if offset < 0 then "-" else "+") ++ Text.padded 2 (minutes / 60) ++ Text.padded 2 (minutes % 60)

/-- A second as local time, such as `Tue Nov 14 22:13:20 2023 +0000`. -/
def readable (seconds offset : Int) : String :=
  let there := seconds + offset
  let days := there / dayLength
  let date := Date.ofDayNumber days
  weekdayName (weekday days) ++ " " ++ monthName date.month ++ " " ++ toString date.day ++ " " ++
    clockText (there % dayLength).toNat ++ " " ++ yearText date.year ++ " " ++ offsetText offset

end CommitLog.Time
