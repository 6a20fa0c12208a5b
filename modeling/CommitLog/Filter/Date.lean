import CommitLog.Metadata

/-!
# Filtering by date

A filter has a first and a last instant, each optional, and both belong to the window.  A bound is
written in internet format, as a date, or as seconds since the start of 1970, and is tried in that
order.  A date as lower bound is its first second, as upper bound its last.
-/

namespace CommitLog

/-- A window of time. -/
structure DateFilter where
  after : Option Time.Instant
  before : Option Time.Instant
  deriving DecidableEq, Repr

namespace DateFilter

/-- Reads a bound; `clock` is the second of the day that a date stands for. -/
def parseBound (clock : Int) (text : String) : Except Fault Time.Instant :=
  let trimmed := Text.trim text.toList
  match Time.timestamp? trimmed with
  | some instant => .ok instant
  | none =>
    match Time.date? trimmed with
    | some date => .ok (.ofSeconds (date.dayNumber * Time.dayLength + clock))
    | none =>
      match Text.signed? trimmed with
      | some seconds =>
        if Time.inRange seconds then .ok (.ofSeconds seconds)
        else .error (.dateRange (String.ofList trimmed))
      | none => .error (.date (String.ofList trimmed))

def parseSince (text : String) : Except Fault Time.Instant := parseBound 0 text

def parseUntil (text : String) : Except Fault Time.Instant := parseBound 86399 text

def acceptsInstant (filter : DateFilter) (instant : Time.Instant) : Bool :=
  filter.after.all (·.notAfter instant) && filter.before.all (instant.notAfter ·)

/-- Whether the time of a commit's author lies in the window. -/
def accepts (filter : DateFilter) (metadata : Metadata) : Bool :=
  filter.acceptsInstant metadata.author.instant

end DateFilter

end CommitLog
