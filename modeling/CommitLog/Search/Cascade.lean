import CommitLog.Graph.CommitStore
import CommitLog.Graph.Visible
import CommitLog.Search.Cache
import CommitLog.Search.Index
import CommitLog.Search.LoadedHistory
import CommitLog.Search.MatchingSet
import CommitLog.Search.MetadataStore
import CommitLog.Search.Source
import CommitLog.Search.Stage

/-!
# The search

A search turns a loaded history and filters into the graph to show:

* a hash filter decides alone: the commits that its hashes name are shown;
* filters of branches, roots and paths select heads, and a commit has to be reached from one of
  them;
* filters of details are answered by the index for the repositories that it covers, and by a cascade
  for the others: first from the details in memory, then, when these give too few commits, by the
  sources with a wider limit.

When heads or details allow nothing, `VisibleGraph.nothing` is shown.
-/

namespace CommitLog

/-- What a search can draw on. -/
structure Searcher where
  store : CommitStore
  recent : RecentCache
  loaded : MetadataStore
  sources : PathTable LogSource
  index : DetailsIndex
  budget : Budget

/-- The commits that filters of details let through. -/
structure DetailsResult where
  matching : MatchingSet
  /-- Whether a wider stage may find more. -/
  canWiden : Bool
  /-- The stage that gave the result. -/
  stage : Stage
  /-- What the sources were asked. -/
  requests : List SourceRequest

/-- What a search shows. -/
structure SearchResult where
  graph : VisibleGraph
  /-- The filters that counted. -/
  filters : Filters
  /-- Whether a wider stage may find more. -/
  canWiden : Bool
  /-- The stage that gave the result. -/
  stage : Stage
  /-- What the sources were asked. -/
  requests : List SourceRequest

/-- The heads in the given repositories that the branch filter lets through; no constraint when no
filter looks at heads. -/
def LoadedHistory.matchingHeads (history : LoadedHistory) (roots : List Path) (filters : Filters) :
    MatchingSet :=
  if filters.branch.isNone && filters.root.isNone && filters.paths.isNone then .unconstrained
  else .only (.ofList ((history.heads.filter fun head =>
    roots.contains head.root && filters.branch.all (·.accepts head.name.text)).map (·.commit)))

namespace Searcher

/-! ## Details in memory -/

def details? (searcher : Searcher) (index : CommitIndex) : Option Metadata :=
  (searcher.recent.get? index).or (searcher.loaded.get? index)

/-- The rows with their details, up to the first row whose details are not in memory. -/
def loadedRun (searcher : Searcher) : List GraphCommit → List (CommitIndex × Metadata)
  | [] => []
  | row :: rest =>
    match searcher.details? row.index with
    | some metadata => (row.index, metadata) :: searcher.loadedRun rest
    | none => []

/-- The commits of the given repositories, among those whose details are in memory, that pass the
filters of details and are reached from the heads. -/
def filterInMemory (searcher : Searcher) (graph : PermanentGraph) (filters : Filters)
    (roots : List Path) (heads : MatchingSet) : CommitSet :=
  let isReached : CommitIndex → Bool := match heads with
    | .unconstrained => fun _ => true
    | .only heads =>
      let table := graph.headTable
      fun index => table[index]?.any (·.meets heads)
  .ofList (((searcher.loadedRun graph.rows).filter fun (index, metadata) =>
    roots.contains metadata.root && filters.acceptsDetails metadata && isReached index).map (·.1))

/-! ## Sources -/

/-- The filters as a repository's source gets them: paths outside the repository are left out. -/
def filtersFor (filters : Filters) (root : Path) : Filters :=
  { filters with paths := filters.paths.map (·.forRoot root) }

/-- Whether the user filter has a name in a repository. -/
def hasUserNames (filters : Filters) (root : Path) : Bool :=
  filters.user.all fun user => !(user.userNames root).isEmpty

/-- What the sources of the given repositories are asked. -/
def requestsFor (searcher : Searcher) (filters : Filters) (roots : List Path) (limit : Nat) :
    List SourceRequest :=
  (searcher.sources.paths.filter fun root => roots.contains root && hasUserNames filters root).map
    fun root => ⟨root, filtersFor filters root, limit⟩

/-- The commits that a source finds.  Commits that the session does not know are left out, and a
source that fails finds nothing. -/
def answer (searcher : Searcher) (request : SourceRequest) : List CommitIndex :=
  match searcher.sources.get? request.root with
  | none => []
  | some source =>
    match source.find request with
    | .ok found => found.filterMap fun commit => searcher.store.indexOf? ⟨commit.hash, request.root⟩
    | .error _ => []

/-- The commits that the sources of the given repositories find at a stage. -/
def filterWithSources (searcher : Searcher) (filters : Filters) (roots : List Path)
    (stage : Stage) : DetailsResult :=
  let limit := stage.limit searcher.budget
  let requests := searcher.requestsFor filters roots limit
  let found := CommitSet.ofList (requests.flatMap searcher.answer)
  ⟨.only found, limit ≤ found.size, stage, requests⟩

/-! ## The cascade -/

/-- The commits of the given repositories that the filters of details let through.  The first stage
is content with what is in memory, if that is enough. -/
def cascade (searcher : Searcher) (graph : PermanentGraph) (filters : Filters)
    (roots : List Path) (heads : MatchingSet) (stage : Stage) : DetailsResult :=
  if stage.isInitial then
    let found := searcher.filterInMemory graph filters roots heads
    if stage.limit searcher.budget ≤ found.size then ⟨.only found, true, stage, []⟩
    else searcher.filterWithSources filters roots stage.next
  else searcher.filterWithSources filters roots stage

/-- The commits that the filters of details let through, from the index and from the cascade. -/
def filterDetails (searcher : Searcher) (history : LoadedHistory) (filters : Filters)
    (stage : Stage) (roots : List Path) (heads : MatchingSet) : DetailsResult :=
  if filters.details.isEmpty then ⟨.unconstrained, false, stage, []⟩
  else
    let indexed := roots.filter searcher.index.isIndexed
    if !searcher.index.canFilter filters.detailKinds || indexed.isEmpty then
      searcher.cascade history.graph filters roots heads stage
    else
      let found := searcher.index.filter indexed filters
      let others := roots.filter fun root => !searcher.index.isIndexed root
      if others.isEmpty then ⟨.only found, false, stage, []⟩
      else
        let rest := searcher.cascade history.graph filters others
          (history.matchingHeads others filters) stage
        { rest with matching := rest.matching.union found }

/-! ## What is shown -/

def resolveHashes (searcher : Searcher) (filter : HashFilter) : CommitSet :=
  .ofList (filter.hashes.flatMap searcher.store.resolve)

def search (searcher : Searcher) (history : LoadedHistory) (sort : SortOrder) (filters : Filters)
    (stage : Stage) : SearchResult :=
  match filters.activeHash? with
  | some hashes =>
    ⟨history.graph.visible sort none (searcher.resolveHashes hashes), filters.hashOnly, false,
      stage, []⟩
  | none =>
    let roots := visibleRoots history.roots filters.root filters.paths
    let heads := history.matchingHeads roots filters
    let result := searcher.filterDetails history filters stage roots heads
    let graph :=
      if heads.allowsNothing || result.matching.allowsNothing then .nothing
      else history.graph.visible sort heads.set? result.matching.set?
    ⟨graph, filters, result.canWiden, result.stage, result.requests⟩

end Searcher

end CommitLog
