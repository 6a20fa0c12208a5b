import CommitLog.Metadata
import Std.Data.HashMap

/-!
# Loaded details

A `MetadataStore` has the details that have been loaded so far.
-/

namespace CommitLog

structure MetadataStore where
  entries : Std.HashMap CommitIndex Metadata

namespace MetadataStore

def empty : MetadataStore := ⟨∅⟩

/-- The store with the details of one more commit, in place of what it had of it. -/
def insert (store : MetadataStore) (metadata : Metadata) : MetadataStore :=
  ⟨store.entries.insert metadata.index metadata⟩

def get? (store : MetadataStore) (index : CommitIndex) : Option Metadata := store.entries[index]?

def size (store : MetadataStore) : Nat := store.entries.size

end MetadataStore

end CommitLog
