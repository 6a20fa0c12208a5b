import CommitLog.Object.Commit

/-!
# Metadata of commits

What a session knows about one commit.  Commits are numbered, and the same commit in two
repositories is two commits.
-/

namespace CommitLog

/-- The number of a commit in a session. -/
abbrev CommitIndex := Nat

/-- A commit of one repository: its id and the root of the repository. -/
structure CommitId where
  hash : ObjectId
  root : Path

namespace CommitId

/-- Equal ids at the same root. -/
def same (a b : CommitId) : Bool := a.hash == b.hash && a.root == b.root

instance : BEq CommitId := ⟨same⟩

instance : Hashable CommitId := ⟨fun id => mixHash (Hashable.hash id.hash) (Hashable.hash id.root)⟩

end CommitId

structure Metadata where
  index : CommitIndex
  hash : ObjectId
  root : Path
  parents : List CommitIndex
  author : Author
  /-- When the commit was made, in seconds since the start of 1970. -/
  committedAt : Int
  message : String
  /-- The files that the commit changes, relative to the root, where they are known. -/
  changedPaths : Option (List Path)

namespace Metadata

/-- The details of a commit that has been read; what it changes is not known yet. -/
def ofCommit (index : CommitIndex) (id : CommitId) (parents : List CommitIndex)
    (commit : Commit) : Metadata where
  index := index
  hash := id.hash
  root := id.root
  parents := parents
  author := commit.author
  committedAt := commit.committer.time
  message := commit.message
  changedPaths := none

def withChangedPaths (metadata : Metadata) (paths : List Path) : Metadata :=
  { metadata with changedPaths := some paths }

def shortMessage (metadata : Metadata) : String := Text.firstLine metadata.message

end Metadata

end CommitLog
