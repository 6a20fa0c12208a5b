import CommitLog.Repository.ObjectStore
import CommitLog.Repository.Refs

/-!
# Repositories

A repository is a directory with a subdirectory `.git`, which holds its objects and its refs.
-/

namespace CommitLog

/-- A repository, by the absolute path of its directory. -/
structure Repository where
  root : Path

namespace Repository

/-- The directory of objects and refs. -/
def gitPath (root : Path) : Path := root.child ".git"

def objects (repository : Repository) : ObjectStore := ⟨(gitPath repository.root).child "objects"⟩

def refs (repository : Repository) : Refs := ⟨gitPath repository.root⟩

/-- Opens the repository at a path. -/
def openAt (path : Path) (disk : Disk) : Except Fault Repository := do
  let root ← (disk.canonical path).mapError fun fault => .repositoryMissing path (.disk fault)
  if !disk.isDirectory (gitPath root) then throw (.notRepository root)
  return ⟨root⟩

/-- The branch that a new repository starts with. -/
def firstBranch : BranchName := ⟨"main"⟩

def create (path : Path) : DiskAction Repository := do
  let git := gitPath path
  for directory in [git.child "objects", (git.child "refs").child "heads"] do
    (DiskAction.makeDirectories directory).within (.makeDirectory directory)
  let repository ← DiskAction.look (openAt path)
  repository.refs.setHead firstBranch
  return repository

end Repository

end CommitLog
