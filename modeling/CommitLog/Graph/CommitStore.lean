import CommitLog.Metadata
import Std.Data.HashMap

/-!
# Numbering of commits

A store gives every commit a number, in the order in which the commits are first seen, and finds
commits by number, by id, and by the first digits of their hashes, with a table for each of them.
Ids are looked up by hash and by the components of the root.  In the last table, hashes are kept in
ascending order: those that begin with some digits stand next to each other there.
-/

namespace CommitLog

/-- The commits of a session with their numbers. -/
structure CommitStore where
  /-- The commits by number. -/
  ids : Array CommitId
  /-- The numbers of the commits. -/
  indices : Std.HashMap CommitId CommitIndex
  /-- The numbers of the commits of each hash, in ascending order of hashes. -/
  byHash : List (ObjectId × List CommitIndex)

namespace CommitStore

def empty : CommitStore := ⟨#[], ∅, []⟩

def size (store : CommitStore) : Nat := store.ids.size

/-- The number of a commit. -/
def indexOf? (store : CommitStore) (id : CommitId) : Option CommitIndex :=
  store.indices[id]?

def commitId? (store : CommitStore) (index : CommitIndex) : Option CommitId := store.ids[index]?

/-- Adds a number under a hash. -/
def addHash (hash : ObjectId) (index : CommitIndex) :
    List (ObjectId × List CommitIndex) → List (ObjectId × List CommitIndex)
  | [] => [(hash, [index])]
  | (h, indices) :: rest =>
    match hash.order h with
    | .lt => (hash, [index]) :: (h, indices) :: rest
    | .eq => (h, indices ++ [index]) :: rest
    | .gt => (h, indices) :: addHash hash index rest

/-- The number of a commit and the store with it; a commit seen for the first time gets the next
number. -/
def insert (store : CommitStore) (id : CommitId) : CommitIndex × CommitStore :=
  match store.indexOf? id with
  | some index => (index, store)
  | none =>
    let index := store.size
    (index, ⟨store.ids.push id, store.indices.insert id index, addHash id.hash index store.byHash⟩)

/-- The number of numbers there are for commits. -/
def capacity : Nat := 4294967296

/-- `insert`, as long as there is a number left for a commit seen for the first time. -/
def register (store : CommitStore) (id : CommitId) : Except Fault (CommitIndex × CommitStore) :=
  if (store.indexOf? id).isNone && capacity ≤ store.size then
    .error (.storeFull store.size .numberRange)
  else .ok (store.insert id)

/-- The numbers of the commits whose hashes begin with the digits.  The scan starts at the first
hash that does and stops at the next one that does not. -/
def candidates (store : CommitStore) (digits : List Char) : List CommitIndex :=
  ((store.byHash.dropWhile fun (hash, _) =>
      compare hash.digits digits == .lt).takeWhile fun (hash, _) =>
        hash.startsWith digits).flatMap (·.2)

def root? (store : CommitStore) (index : CommitIndex) : Option Path :=
  (store.commitId? index).map (·.root)

/-- The commits that a partial hash names, in ascending order.  In every repository it names the one
commit whose hash begins with it, if there is just one. -/
def resolve (store : CommitStore) (text : String) : List CommitIndex :=
  match ObjectId.normalPrefix? text with
  | none => []
  | some digits =>
    let found := store.candidates digits
    let alone (index : CommitIndex) : Bool :=
      (found.filter fun other => store.root? other == store.root? index).length == 1
    (found.filter alone).mergeSort (· ≤ ·)

end CommitStore

end CommitLog
