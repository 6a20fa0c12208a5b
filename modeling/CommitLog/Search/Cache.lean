import CommitLog.Metadata
import Std.Data.HashMap

/-!
# The cache of recent commits

A cache keeps the details of the newest commits, up to its capacity.  The details are found by
number; a second list has the commits by age and says which one goes first when there are too many.
-/

namespace CommitLog

/-- When a commit was made and its number. -/
structure Age where
  time : Int
  index : CommitIndex
  deriving DecidableEq, Repr

/-- Whether a commit is newer than another, or as new with a smaller number. -/
def Age.isBefore (a b : Age) : Bool :=
  b.time < a.time || (a.time == b.time && a.index < b.index)

def Metadata.age (metadata : Metadata) : Age := ⟨metadata.committedAt, metadata.index⟩

/-- The details of the newest commits. -/
structure RecentCache where
  capacity : Nat
  byIndex : Std.HashMap CommitIndex Metadata
  /-- Newest first. -/
  byAge : List Age

namespace RecentCache

def standardCapacity : Nat := 1000

def empty (capacity : Nat) : RecentCache := ⟨capacity, ∅, []⟩

def size (cache : RecentCache) : Nat := cache.byIndex.size

def get? (cache : RecentCache) (index : CommitIndex) : Option Metadata := cache.byIndex[index]?

/-- Puts an age into a list, newest first, unless it is there. -/
def insertAge (age : Age) : List Age → List Age
  | [] => [age]
  | a :: rest =>
    if age.isBefore a then age :: a :: rest
    else if age = a then a :: rest
    else a :: insertAge age rest

/-- Puts a commit in, in place of what was known of it. -/
def put (cache : RecentCache) (metadata : Metadata) : RecentCache :=
  let kept := match cache.byIndex[metadata.index]? with
    | some previous => cache.byAge.filter (· ≠ previous.age)
    | none => cache.byAge
  { cache with
    byIndex := cache.byIndex.insert metadata.index metadata
    byAge := insertAge metadata.age kept }

/-- Drops the oldest commits that are too many. -/
def trim (cache : RecentCache) : RecentCache :=
  { cache with
    byIndex := (cache.byAge.drop cache.capacity).foldl (fun table age => table.erase age.index)
      cache.byIndex
    byAge := cache.byAge.take cache.capacity }

/-- Puts commits in, one after the other, and drops the oldest afterwards. -/
def store (cache : RecentCache) (batch : List Metadata) : RecentCache :=
  (batch.foldl put cache).trim

end RecentCache

end CommitLog
