import CommitLog.Metadata

/-!
# Filtering by root and by path

A root filter has the repositories to show.  A structure filter has absolute paths: one inside a
repository selects what lies at it or below it, one at or above the root of a repository the whole
of it.
-/

namespace CommitLog

/-- The repositories to show, in ascending order of their roots. -/
structure RootFilter where
  roots : List Path

namespace RootFilter

def ofRoots (roots : List Path) : RootFilter := ⟨sortPaths roots⟩

def contains (filter : RootFilter) (root : Path) : Bool := filter.roots.any (· == root)

end RootFilter

/-- The paths to show, in ascending order. -/
structure StructureFilter where
  paths : List Path

namespace StructureFilter

def ofPaths (paths : List Path) : StructureFilter := ⟨sortPaths paths⟩

/-- The paths of the filter relative to a root, in ascending order.  An empty path stands for the
whole repository. -/
def filesForRoot (filter : StructureFilter) (root : Path) : List Path :=
  if filter.paths.any root.startsWith then [⟨""⟩]
  else (filter.paths.filterMap (·.stripBase? root)).foldl (fun set p => insertPath p set) []

/-- Whether a path of the filter lies in a repository or above it. -/
def touchesRoot (filter : StructureFilter) (root : Path) : Bool :=
  filter.paths.any fun path => path.startsWith root || root.startsWith path

/-- The filter with the paths that touch a repository only. -/
def forRoot (filter : StructureFilter) (root : Path) : StructureFilter :=
  .ofPaths ((filter.filesForRoot root).map root.join)

/-- Whether a commit is known to change something at or below a path of the filter. -/
def accepts (filter : StructureFilter) (metadata : Metadata) : Bool :=
  match metadata.changedPaths with
  | none => false
  | some changed =>
    let files := filter.filesForRoot metadata.root
    changed.any fun path => files.any path.startsWith

end StructureFilter

/-- The roots that both filters let through, in ascending order. -/
def visibleRoots (roots : List Path) (rootFilter : Option RootFilter)
    (structureFilter : Option StructureFilter) : List Path :=
  sortPaths (roots.filter fun root =>
    rootFilter.all (·.contains root) && structureFilter.all (·.touchesRoot root))

end CommitLog
