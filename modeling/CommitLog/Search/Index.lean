import CommitLog.Filter.Basic
import CommitLog.Graph.CommitSet
import CommitLog.Path.Table

/-!
# Indexes of details

An index answers filters of details for the repositories it covers, from the details of all their
commits.  Paths can be filtered as long as it is known of every indexed commit what it changes.
-/

namespace CommitLog

/-- The details of all commits of some repositories. -/
structure MetadataIndex where
  /-- The commits of each repository by its root. -/
  commits : PathTable (List Metadata)
  /-- The kinds of filters that can be answered. -/
  supported : List DetailKind

namespace MetadataIndex

def empty : MetadataIndex := ⟨.empty, DetailKind.all⟩

/-- The index with the commits of one more repository, in place of what it had of it. -/
def indexRoot (index : MetadataIndex) (root : Path) (commits : List Metadata) : MetadataIndex where
  commits := index.commits.insert root commits
  supported :=
    if commits.any (·.changedPaths.isNone) then index.supported.filter (· ≠ .paths)
    else index.supported

/-- Whether filters of all these kinds can be answered. -/
def canFilter (index : MetadataIndex) (kinds : List DetailKind) : Bool :=
  kinds.all index.supported.contains

def isIndexed (index : MetadataIndex) (root : Path) : Bool := (index.commits.get? root).isSome

/-- The commits of the given repositories that the filters of details let through. -/
def filter (index : MetadataIndex) (roots : List Path) (filters : Filters) : CommitSet :=
  CommitSet.ofList (((roots.filterMap index.commits.get?).flatten.filter filters.acceptsDetails).map
    (·.index))

end MetadataIndex

/-- What a search can look up: nothing, or an index. -/
inductive DetailsIndex where
  | none
  | metadata (index : MetadataIndex)

namespace DetailsIndex

/-- Whether filters of all these kinds can be answered. -/
def canFilter : DetailsIndex → List DetailKind → Bool
  | .none, _ => false
  | .metadata index, kinds => index.canFilter kinds

def isIndexed : DetailsIndex → Path → Bool
  | .none, _ => false
  | .metadata index, root => index.isIndexed root

/-- The commits of the given repositories that the filters of details let through. -/
def filter : DetailsIndex → List Path → Filters → CommitSet
  | .none, _, _ => .empty
  | .metadata index, roots, filters => index.filter roots filters

end DetailsIndex

end CommitLog
