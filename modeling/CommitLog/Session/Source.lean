import CommitLog.Graph.CommitStore
import CommitLog.History.Changes
import CommitLog.Repository.Basic
import CommitLog.Search.Source

/-!
# Repositories as sources of commits

A repository finds commits by walking its history from its branches and its head, newest first.  It
reads every commit once, and compares trees only for filters of paths.
-/

namespace CommitLog

namespace Repository

/-- How the objects of a repository are read. -/
def reader (repository : Repository) (disk : Disk) : ObjectReader where
  commit := repository.objects.readCommit disk
  tree := repository.objects.readTree disk

/-- The branches of a repository and then its head, as far as the filter lets them through, with
their commits. -/
def tips (repository : Repository) (disk : Disk) (filter : Option BranchFilter) :
    Except Fault (List (BranchName × ObjectId)) := do
  let branches ← repository.refs.branches disk
  let head ← repository.refs.readHead disk
  return (branches ++ head.toList.map (BranchName.head, ·)).filter fun (name, _) =>
    filter.all (·.accepts name.text)

end Repository

/-- The numbers of the parents of a commit, as far as the store knows them. -/
def CommitStore.parentsOf (store : CommitStore) (root : Path) (commit : Commit) :
    List CommitIndex :=
  commit.parents.filterMap fun parent => store.indexOf? ⟨parent, root⟩

/-- The details of a commit that the store knows. -/
def CommitStore.metadata? (store : CommitStore) (root : Path) (read : ReadCommit) :
    Option Metadata :=
  (store.indexOf? ⟨read.id, root⟩).map fun index =>
    .ofCommit index ⟨read.id, root⟩ (store.parentsOf root read.commit) read.commit

/-- A commit as a source reports it. -/
def ReadCommit.found (read : ReadCommit) : FoundCommit := ⟨read.id, read.commit.parents, read.time⟩

/-- The first visits that are judged good, up to a limit.  A visit that fails, or whose judgement
does, is a fault unless the limit is reached before it. -/
def takeFound (judge : ReadCommit → Except Fault Bool) :
    Nat → List (Except Fault ReadCommit) → Except Fault (List FoundCommit)
  | 0, _ => .ok []
  | _, [] => .ok []
  | limit + 1, visit :: rest => do
    let read ← visit
    if ← judge read then return read.found :: (← takeFound judge limit rest)
    else takeFound judge (limit + 1) rest

namespace Repository

/-- Whether the filters of details let a commit through.  Commits that the store does not know are
turned away. -/
def judge (repository : Repository) (disk : Disk) (store : CommitStore) (filters : Filters)
    (read : ReadCommit) : Except Fault Bool :=
  match store.metadata? repository.root read with
  | none => .ok false
  | some metadata =>
    match filters.paths with
    | none => .ok (filters.acceptsDetails metadata)
    | some paths => do
      let selection := PathSelection.ofPaths (paths.filesForRoot repository.root)
      let changed ← (repository.reader disk).changesOf read.commit selection
      return filters.acceptsDetails (metadata.withChangedPaths changed)

/-- The commits that pass the filters, newest first, up to a limit. -/
def findCommits (repository : Repository) (disk : Disk) (store : CommitStore) (filters : Filters)
    (limit : Nat) : Except Fault (List FoundCommit) := do
  let tips ← repository.tips disk filters.branch
  takeFound (repository.judge disk store filters) limit
    ((repository.reader disk).history (tips.map (·.2)))

/-- The repository as a source; it answers for its own root only. -/
def source (repository : Repository) (disk : Disk) (store : CommitStore) : LogSource where
  find request :=
    if request.root == repository.root then
      (repository.findCommits disk store request.filters request.limit).mapError
        (.ofFault request.root)
    else .error (.unknownRoot request.root)

end Repository

end CommitLog
