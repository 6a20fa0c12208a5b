import CommitLog.Metadata
import CommitLog.Unicode.Case

/-!
# Filtering by author

A filter has the names of authors.  A name matches an author's name, address, or both as they are
displayed; case does not count.  The name `me` stands for the current user of a repository, and for
nobody where there is none.
-/

namespace CommitLog

structure UserFilter where
  names : List String
  /-- The current users by the roots of their repositories. -/
  currentUsers : List (Path × String)

namespace UserFilter

/-- The filter of the given names, without current users. -/
def ofNames (names : List String) : UserFilter := ⟨names, []⟩

/-- The filter with the current user of a repository. -/
def withCurrentUser (filter : UserFilter) (root : Path) (name : String) : UserFilter :=
  { filter with
    currentUsers := (root, name) :: filter.currentUsers.filter fun (r, _) => !(r == root) }

def currentUser? (filter : UserFilter) (root : Path) : Option String :=
  (filter.currentUsers.find? fun (r, _) => r == root).map (·.2)

def isMe (name : String) : Bool := name.toList.map Char.toLower == ['m', 'e']

/-- The names that count in a repository. -/
def userNames (filter : UserFilter) (root : Path) : List String :=
  filter.names.filterMap fun name => if isMe name then filter.currentUser? root else some name

def lowered (text : String) : String := String.ofList (Unicode.lowercase text.toList)

/-- The texts that a name may match. -/
def candidates (author : Author) : List String :=
  [lowered author.name, lowered author.email, lowered author.displayName]

/-- Whether the author of a commit has one of the names. -/
def accepts (filter : UserFilter) (metadata : Metadata) : Bool :=
  (filter.userNames metadata.root).any fun name =>
    (candidates metadata.author).contains (lowered (Text.trimmed name))

end UserFilter

end CommitLog
