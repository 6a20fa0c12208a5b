import CommitLog.Search.Cascade
import CommitLog.Session.Source

/-!
# Sessions

A session opens some repositories, reads their histories, and answers searches in them.  All commits
are numbered and their links and refs are known; the details of the newest are kept, and the details
of others are read again when they are asked for.
-/

namespace CommitLog

/-- How a session works. -/
structure SessionSettings where
  budget : Budget
  cacheSize : Nat
  /-- The repositories to be indexed. -/
  indexedRoots : List Path
  /-- Who `me` is. -/
  currentUser : Option String

def SessionSettings.standard : SessionSettings :=
  ⟨.standard, RecentCache.standardCapacity, [], none⟩

/-- Opened repositories and what is loaded of them. -/
structure Session where
  repositories : PathTable Repository
  history : LoadedHistory
  store : CommitStore
  recent : RecentCache
  /-- The details that have been read again. -/
  loaded : MetadataStore
  index : DetailsIndex
  budget : Budget
  currentUser : Option String

/-- What has been read of some repositories. -/
structure LoadedRoots where
  store : CommitStore
  commits : List GraphCommit
  metadata : List Metadata
  heads : List NamedHead
  index : MetadataIndex

namespace LoadedRoots

def empty : LoadedRoots := ⟨.empty, [], [], [], .empty⟩

/-- Numbers the commits of a walk in their order; gives the commits and the store with them. -/
def number (root : Path) (store : CommitStore) :
    List (Except Fault ReadCommit) → Except Fault (List ReadCommit × CommitStore)
  | [] => .ok ([], store)
  | visit :: rest => do
    let read ← visit.mapError (.walk root)
    let (_, store) ← store.register ⟨read.id, root⟩
    let (reads, store) ← number root store rest
    return (read :: reads, store)

/-- The details of a commit, with the files it changes if the repository is to be indexed. -/
def details (reader : ObjectReader) (isIndexed : Bool) (metadata : Metadata) (commit : Commit) :
    Except Fault Metadata :=
  if isIndexed then
    (reader.changesOf commit .everything).map metadata.withChangedPaths
  else .ok metadata

/-- Reads the history of one more repository. -/
def add (disk : Disk) (indexed : List Path) (loaded : LoadedRoots) (repository : Repository) :
    Except Fault LoadedRoots := do
  let root := repository.root
  let reader := repository.reader disk
  let isIndexed := indexed.contains root
  let tips ← repository.tips disk none
  let (reads, store) ← number root loaded.store (reader.history (tips.map (·.2)))
  let metadata ← reads.filterMapM fun read =>
    (store.metadata? root read).mapM fun metadata => details reader isIndexed metadata read.commit
  let heads := tips.filterMap fun (name, id) =>
    (store.indexOf? ⟨id, root⟩).map fun index => ⟨name, index, root⟩
  return {
    store := store
    commits := loaded.commits ++ metadata.map fun m => ⟨m.index, m.parents, m.committedAt⟩
    metadata := loaded.metadata ++ metadata
    heads := loaded.heads ++ heads
    index := if isIndexed then loaded.index.indexRoot root metadata else loaded.index }

end LoadedRoots

namespace Session

/-- Opens the repositories at the given paths. -/
def openAt (paths : List Path) (settings : SessionSettings) (disk : Disk) :
    Except Fault Session := do
  let indexed ← settings.indexedRoots.mapM fun path =>
    (disk.canonical path).mapError fun fault => .indexedRootMissing path (.disk fault)
  let opened ← paths.mapM fun path => Repository.openAt path disk
  let repositories := PathTable.ofList (opened.map fun repository => (repository.root, repository))
  if opened.isEmpty then throw .noRoots
  let loaded ← (repositories.entries.map (·.2)).foldlM (LoadedRoots.add disk indexed) .empty
  let graph := PermanentGraph.ofCommits loaded.commits (loaded.heads.map (·.commit))
  return {
    repositories := repositories
    history := ⟨graph, loaded.heads, repositories.paths⟩
    store := loaded.store
    recent := (RecentCache.empty settings.cacheSize).store loaded.metadata
    loaded := .empty
    index := if indexed.isEmpty then .none else .metadata loaded.index
    budget := settings.budget
    currentUser := settings.currentUser }

/-- What searches draw on; sources read the disk as it is now. -/
def searcher (session : Session) (disk : Disk) : Searcher where
  store := session.store
  recent := session.recent
  loaded := session.loaded
  sources := ⟨session.repositories.entries.map fun (root, repository) =>
    (root, repository.source disk session.store)⟩
  index := session.index
  budget := session.budget

/-- The filters with the current user in all repositories. -/
def resolveUser (session : Session) (filters : Filters) : Filters :=
  match filters.user, session.currentUser with
  | some user, some name =>
    { filters with
      user := some (session.repositories.paths.foldl (·.withCurrentUser · name) user) }
  | _, _ => filters

def search (session : Session) (disk : Disk) (sort : SortOrder) (filters : Filters)
    (stage : Stage) : SearchResult :=
  (session.searcher disk).search session.history sort (session.resolveUser filters) stage

/-- The details of a commit that are in memory. -/
def known? (session : Session) (index : CommitIndex) : Option Metadata :=
  (session.recent.get? index).or (session.loaded.get? index)

/-- Reads the details of a commit from its repository. -/
def readDetails (session : Session) (disk : Disk) (index : CommitIndex) :
    Except Fault Metadata := do
  let some id := session.store.commitId? index | throw (.unknownCommit index)
  let some repository := session.repositories.get? id.root | throw (.unknownRoot id.root)
  let commit ← (repository.reader disk).commit id.hash
  return .ofCommit index id (session.history.graph.parents index) commit

/-- The details of a commit, and the session with what had to be read for them. -/
def details (session : Session) (disk : Disk) (index : CommitIndex) :
    Except Fault (Metadata × Session) :=
  match session.known? index with
  | some metadata => .ok (metadata, session)
  | none => (session.readDetails disk index).map fun metadata =>
    (metadata, { session with loaded := session.loaded.insert metadata })

def resolve (session : Session) (text : String) : List CommitId :=
  (session.store.resolve text).filterMap session.store.commitId?

end Session

end CommitLog
