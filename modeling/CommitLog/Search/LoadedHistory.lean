import CommitLog.BranchName
import CommitLog.Graph.Permanent

/-!
# Loaded histories
-/

namespace CommitLog

/-- A branch of a repository, or its head, and the commit that it points to. -/
structure NamedHead where
  name : BranchName
  commit : CommitIndex
  root : Path

/-- All that is loaded of the repositories of a session. -/
structure LoadedHistory where
  graph : PermanentGraph
  heads : List NamedHead
  /-- The repositories, in ascending order of their roots. -/
  roots : List Path

namespace LoadedHistory

def namesOf (history : LoadedHistory) (index : CommitIndex) : List BranchName :=
  (history.heads.filter (·.commit == index)).map (·.name)

end LoadedHistory

end CommitLog
