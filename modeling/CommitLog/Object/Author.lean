import CommitLog.Fault
import CommitLog.Time.Reading

/-!
# Authors

An author is a name and an address with the second and the time zone of the work.  In the header of
a commit the four stand in one line, `Ada <ada@example.com> 1700000000 +0200`.  The line is read
from its end: zone and time are the last two words, the address reaches from the first opening to
the last closing angle bracket, and the name is what stands before it.
-/

namespace CommitLog

/-- Who worked, and when. -/
structure Author where
  name : String
  email : String
  /-- Seconds since the start of 1970. -/
  time : Int
  /-- Seconds that local time is ahead. -/
  offset : Int
  deriving DecidableEq, Repr

namespace Author

/-- Name and address. -/
def displayName (author : Author) : String := author.name ++ " <" ++ author.email ++ ">"

/-- The author as a line of a commit header. -/
def display (author : Author) : String :=
  author.displayName ++ " " ++ toString author.time ++ " " ++ Time.offsetText author.offset

/-- The author's time for people to read. -/
def readableTime (author : Author) : String := Time.readable author.time author.offset

def instant (author : Author) : Time.Instant := .ofSeconds author.time

/-- Cuts a text before its last two words. -/
def splitWords? (text : List Char) : Option (List Char × List Char × List Char) := do
  let (before, zone) ← Text.splitLast ' ' text
  let (identity, time) ← Text.splitLast ' ' before
  return (identity, time, zone)

/-- Reads an author from a line of a commit header. -/
def parse (text : String) : Except Fault Author := do
  let some (identity, time, zone) := splitWords? text.toList | throw (.author text)
  let some seconds := Text.signed? time | throw (.authorTime (String.ofList time))
  let some offset := Time.offset? zone | throw (.authorZone (String.ofList zone))
  let some (name, afterName) := Text.splitOnce '<' identity | throw .authorOpening
  let some (beforeLast, _) := Text.splitLast '>' identity | throw .authorClosing
  if beforeLast.length < name.length then throw (.author text)
  if !Time.inRange seconds then throw .authorTimeRange
  return {
    name := String.ofList (Text.trim name)
    email := String.ofList (afterName.take (beforeLast.length - name.length - 1))
    time := seconds
    offset := offset }

end Author

end CommitLog
