import CommitLog.Text.Blank
import CommitLog.Time.Instant

/-!
# Reading times

`offset?` reads a time zone such as `+0200`, `timestamp?` the internet format of a time
(`2023-11-14T22:13:20Z`), and `date?` a date whose numbers need not be filled up with zeros.  Each
reader takes a whole text or refuses it.
-/

namespace CommitLog.Time

open CommitLog.Text (digit? isBlank trimStart)

/-- Between `least` and `most` digits and the text after them. -/
def takeDigits? (least : Nat) (most : Option Nat) (text : List Char) :
    Option (Nat × List Char) :=
  let digits := (match most with
    | some most => text.take most
    | none => text).takeWhile fun c => (digit? c).isSome
  if digits.length < least then none
  else some (digits.foldl (fun n c => n * 10 + (digit? c).getD 0) 0, text.drop digits.length)

def takeChar? (c : Char) : List Char → Option (List Char)
  | [] => none
  | d :: rest => if c = d then some rest else none

/-- A sign, hyphen and minus sign alike, and whether it is negative. -/
def takeSign? : List Char → Option (Bool × List Char)
  | '+' :: rest => some (false, rest)
  | '-' :: rest => some (true, rest)
  | '\u2212' :: rest => some (true, rest)
  | _ => none

/-- An offset in seconds: a sign, two digits of hours, what `separator?` takes, and two digits of
minutes below 60. -/
def takeOffset? (separator? : List Char → Option (List Char)) (text : List Char) :
    Option (Int × List Char) := do
  let (negative, text) ← takeSign? text
  let (hours, text) ← takeDigits? 2 (some 2) text
  let text ← separator? text
  let (minutes, text) ← takeDigits? 2 (some 2) text
  guard (minutes < 60)
  let seconds : Int := hours * 3600 + minutes * 60
  return (if negative then -seconds else seconds, text)

/-- The offset of a time zone.  Colons and blanks may stand between hours and minutes and blanks
before the sign; the offset is shorter than a day. -/
def offset? (text : List Char) : Option Int := do
  let (offset, rest) ←
    takeOffset? (fun t => some (t.dropWhile fun c => c == ':' || isBlank c)) (trimStart text)
  guard (rest.isEmpty ∧ offset.natAbs < 86400)
  return offset

/-- The fraction after a decimal point in nanoseconds; digits after the ninth are dropped. -/
def takeFraction? : List Char → Option (Nat × List Char)
  | '.' :: text => do
    let (value, rest) ← takeDigits? 1 (some 9) text
    let count := text.length - rest.length
    return (value * Nat.pow 10 (9 - count), rest.dropWhile fun c => (digit? c).isSome)
  | text => some (0, text)

/-- The instant of a time in internet format.  Second 60 is the leap second after second 59. -/
def timestamp? (text : List Char) : Option Instant := do
  let (year, text) ← takeDigits? 4 (some 4) text
  let text ← takeChar? '-' text
  let (month, text) ← takeDigits? 2 (some 2) text
  let text ← takeChar? '-' text
  let (day, text) ← takeDigits? 2 (some 2) text
  let text ← match text with
    | 'T' :: rest | 't' :: rest | ' ' :: rest => some rest
    | _ => none
  let (hour, text) ← takeDigits? 2 (some 2) text
  let text ← takeChar? ':' text
  let (minute, text) ← takeDigits? 2 (some 2) text
  let text ← takeChar? ':' text
  let (second, text) ← takeDigits? 2 (some 2) text
  let (fraction, text) ← takeFraction? text
  let (offset, text) ← match text with
    | 'Z' :: rest | 'z' :: rest => some (0, rest)
    | _ => takeOffset? (takeChar? ':') text
  guard (text.isEmpty ∧ offset.natAbs < 86400 ∧ hour < 24 ∧ minute < 60 ∧ second ≤ 60)
  let date ← Date.of? year month day
  let clock : Int := hour * 3600 + minute * 60 + min second 59
  return ⟨date.dayNumber * dayLength + clock - offset,
    fraction + if second = 60 then 1000000000 else 0⟩

/-- A year: up to four digits, or any number of them after a sign. -/
def takeYear? : List Char → Option (Int × List Char)
  | '-' :: text => (takeDigits? 1 none text).map fun (year, rest) => (-(year : Int), rest)
  | '+' :: text => (takeDigits? 1 none text).map fun (year, rest) => ((year : Int), rest)
  | text => (takeDigits? 1 (some 4) text).map fun (year, rest) => ((year : Int), rest)

/-- Year, month and day with hyphens between them; blanks may stand before each number. -/
def date? (text : List Char) : Option Date := do
  let (year, text) ← takeYear? (trimStart text)
  let text ← takeChar? '-' text
  let (month, text) ← takeDigits? 1 (some 2) (trimStart text)
  let text ← takeChar? '-' text
  let (day, text) ← takeDigits? 1 (some 2) (trimStart text)
  guard text.isEmpty
  Date.of? year month day

end CommitLog.Time
