import CommitLog.Filter.Basic

/-!
# Sources of commits

A source looks for commits in a history itself, which takes longer than looking at what is loaded
but misses nothing.  It answers with as many commits as asked for, newest first, or fails.
-/

namespace CommitLog

structure FoundCommit where
  hash : ObjectId
  parents : List ObjectId
  /-- When the commit was made, in seconds since the start of 1970. -/
  time : Int

/-- Why a source cannot answer. -/
inductive SourceFault where
  /-- Reading failed. -/
  | reading (root : Path) (cause : Fault)
  /-- What was read makes no sense. -/
  | corrupt (root : Path) (cause : Fault)
  /-- The source is that of another repository. -/
  | unknownRoot (root : Path)

namespace SourceFault

/-- The fault of a source in whose repository something has gone wrong. -/
def ofFault (root : Path) (fault : Fault) : SourceFault :=
  match fault.chain.find? Fault.isReadFailure with
  | some cause => .reading root cause
  | none => .corrupt root fault

def message : SourceFault → String
  | .reading root cause => "I/O error in " ++ root.text ++ ": " ++ cause.message
  | .corrupt root cause => "Corrupt repository data in " ++ root.text ++ ": " ++ cause.fullMessage
  | .unknownRoot root => "Unknown repository root: " ++ root.text

end SourceFault

/-- A question to a source: which commits of a repository pass the filters, at most so many. -/
structure SourceRequest where
  root : Path
  filters : Filters
  limit : Nat

structure LogSource where
  find : SourceRequest → Except SourceFault (List FoundCommit)

end CommitLog
