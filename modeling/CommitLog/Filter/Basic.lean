import CommitLog.Filter.Branch
import CommitLog.Filter.Date
import CommitLog.Filter.Hash
import CommitLog.Filter.Kind
import CommitLog.Filter.Structure
import CommitLog.Filter.Text
import CommitLog.Filter.User

/-!
# Filters

A collection holds at most one filter of each sort; a missing filter lets everything through.
Branches, roots and hashes are judged by refs and ids alone.  Users, dates, texts and paths are
details of a commit, and all filters of details have to let it through.
-/

namespace CommitLog

inductive DetailFilter where
  | user (filter : UserFilter)
  | date (filter : DateFilter)
  | text (filter : TextFilter)
  | paths (filter : StructureFilter)

namespace DetailFilter

/-- What a filter looks at. -/
def kind : DetailFilter → DetailKind
  | .user _ => .user
  | .date _ => .date
  | .text _ => .text
  | .paths _ => .paths

def accepts : DetailFilter → Metadata → Bool
  | .user filter, metadata => filter.accepts metadata
  | .date filter, metadata => filter.accepts metadata
  | .text filter, metadata => filter.accepts metadata
  | .paths filter, metadata => filter.accepts metadata

end DetailFilter

structure Filters where
  branch : Option BranchFilter
  root : Option RootFilter
  paths : Option StructureFilter
  hash : Option HashFilter
  user : Option UserFilter
  date : Option DateFilter
  text : Option TextFilter

namespace Filters

def none : Filters := ⟨.none, .none, .none, .none, .none, .none, .none⟩

/-- The hash filter, if it has a hash; it overrides all others. -/
def activeHash? (filters : Filters) : Option HashFilter := filters.hash.filter (!·.isEmpty)

def hashOnly (filters : Filters) : Filters := { none with hash := filters.hash }

/-- The filters of details: user, date, text, paths. -/
def details (filters : Filters) : List DetailFilter :=
  (filters.user.map DetailFilter.user).toList ++ (filters.date.map DetailFilter.date).toList ++
    (filters.text.map DetailFilter.text).toList ++
    (filters.paths.map DetailFilter.paths).toList

/-- What the filters of details look at. -/
def detailKinds (filters : Filters) : List DetailKind := filters.details.map (·.kind)

def acceptsDetails (filters : Filters) (metadata : Metadata) : Bool :=
  filters.details.all (·.accepts metadata)

/-- Whether no filter can turn a commit away. -/
def isEmpty (filters : Filters) : Bool :=
  filters.branch.isNone && filters.root.isNone && filters.activeHash?.isNone &&
    filters.details.isEmpty

end Filters

end CommitLog
