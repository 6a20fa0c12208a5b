import CommitLog.Graph.CommitSet

/-!
# Matching sets

What one axis of a search allows: all commits, or the members of a set.
-/

namespace CommitLog

/-- The commits that an axis of a search allows. -/
inductive MatchingSet where
  /-- The axis has no filter. -/
  | unconstrained
  /-- Only these commits. -/
  | only (set : CommitSet)
  deriving DecidableEq

namespace MatchingSet

def allowsNothing : MatchingSet → Bool
  | .unconstrained => false
  | .only set => set.isEmpty

/-- The set, where there is a constraint. -/
def set? : MatchingSet → Option CommitSet
  | .unconstrained => none
  | .only set => some set

def contains (matching : MatchingSet) (index : CommitIndex) : Bool :=
  matching.set?.all (·.contains index)

/-- What either allows. -/
def union : MatchingSet → CommitSet → MatchingSet
  | .unconstrained, _ => .unconstrained
  | .only set, other => .only (set.union other)

end MatchingSet

end CommitLog
