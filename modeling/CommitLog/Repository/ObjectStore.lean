import CommitLog.Compression.Zlib
import CommitLog.Disk.Action
import CommitLog.Object.Commit
import CommitLog.Object.Tree

/-!
# Stores of objects

A store keeps every object in a file of its own, compressed, under a name made from its id.  An
object is stored once; what is there already is not written again.
-/

namespace CommitLog

structure ObjectStore where
  directory : Path

namespace ObjectStore

def pathOf (store : ObjectStore) (id : ObjectId) : Path := store.directory.child id.fileName

def directoryOf (store : ObjectStore) (id : ObjectId) : Path :=
  store.directory.child (String.ofList (id.digits.take 2))

/-! ## Reading -/

/-- Takes header and body of an object apart; the body has to be as long as the header says. -/
def openContent (id : ObjectId) (content : List UInt8) : Except Fault RawObject := do
  let (kind, size, body) ← parseHeader content
  if body.length ≠ size then throw (.objectSize id size body.length)
  return ⟨kind, body⟩

def read (store : ObjectStore) (disk : Disk) (id : ObjectId) : Except Fault RawObject := do
  let path := store.pathOf id
  let file ← (disk.readFile path).mapError fun fault => .readObject path (.disk fault)
  let some content := Compression.decompress? file | throw (.decompress .compressed)
  openContent id content

def readCommit (store : ObjectStore) (disk : Disk) (id : ObjectId) : Except Fault Commit := do
  let object ← store.read disk id
  match object.kind with
  | .commit => (Commit.parse object.body).mapError (.corruptCommit id)
  | kind => throw (.otherKind id kind .commit)

def readTree (store : ObjectStore) (disk : Disk) (id : ObjectId) : Except Fault Tree := do
  let object ← store.read disk id
  match object.kind with
  | .tree => (Tree.parse object.body).mapError (.corruptTree id)
  | kind => throw (.otherKind id kind .tree)

/-- Whether there is a file for an object. -/
def contains (store : ObjectStore) (disk : Disk) (id : ObjectId) : Bool :=
  disk.isFile (store.pathOf id)

/-! ## Writing -/

/-- Stores an object unless its name is taken, and gives its id. -/
def write (store : ObjectStore) (object : RawObject) : DiskAction ObjectId := do
  let id := object.id
  let path := store.pathOf id
  if !(← get).isPresent path then
    let directory := store.directoryOf id
    (DiskAction.makeDirectories directory).within (.objectDirectory directory)
    (DiskAction.step fun disk =>
      disk.writeFile path (Compression.compress object.serialize)).within (.placeObject path)
  return id

end ObjectStore

end CommitLog
