import CommitLog.BranchName
import CommitLog.Disk.Action
import CommitLog.Repository.RefFile

/-!
# Refs

A ref is a file that holds an object id or, after `ref: `, the name of another ref.  Many refs may
stand together in the file `packed-refs`, one in a line; a ref with a file of its own counts before
a packed one.  Branches are the refs below `refs/heads`, and `HEAD` is the ref that is checked out.
-/

namespace CommitLog

/-- The refs below a directory. -/
structure Refs where
  directory : Path

/-- What the file of a ref holds. -/
inductive RefTarget where
  /-- The name of another ref. -/
  | symbolic (name : String)
  | object (id : ObjectId)
  deriving DecidableEq

namespace RefTarget

/-- How the name of another ref begins. -/
def marker : List Char := "ref: ".toList

/-- The name in the content of a symbolic ref, which is a single line. -/
def symbolicName? (content : List Char) : Option (List Char) :=
  let name := content.drop marker.length
  if marker.isPrefixOf content && !name.isEmpty && !name.contains '\n' then some name else none

/-- Reads the content of a ref file; a blank file holds nothing. -/
def parse (content : List Char) : Except Fault (Option RefTarget) :=
  let content := Text.trim content
  if content.isEmpty then .ok none
  else match symbolicName? content with
    | some name => .ok (some (.symbolic (String.ofList name)))
    | none =>
      ((ObjectId.parse (String.ofList content)).mapError .objectId).map fun id => some (.object id)

end RefTarget

def Disk.readText (disk : Disk) (path : Path) : Except CommitLog.Fault (List Char) := do
  let bytes ← (disk.readFile path).mapError .disk
  (Utf8.decode bytes).mapError fun _ => .notText

namespace Refs

/-! ## Reading -/

def headPath (refs : Refs) : Path := refs.directory.child BranchName.headText

def headsPath (refs : Refs) : Path := (refs.directory.child "refs").child "heads"

/-- How the names of branches begin among refs. -/
def headsPrefix : List Char := "refs/heads/".toList

/-- What a ref file holds; nothing where there is no file. -/
def readFile (disk : Disk) (path : Path) : Except Fault (Option RefTarget) :=
  if disk.isFile path then do
    RefTarget.parse (← (disk.readText path).mapError (.readRef path))
  else .ok none

/-- Reads a line of packed refs: an id, a space and a name. -/
def parsePackedLine (line : List Char) : Except Fault (Option (String × ObjectId)) :=
  if line.head? = some '#' ∨ line.head? = some '^' then .ok none
  else match Text.splitOnce ' ' line with
    | none => .ok none
    | some (id, name) => do
      let id ← (ObjectId.parse (String.ofList id)).mapError .objectId
      return some (String.ofList (Text.trim name), id)

/-- Reads packed refs in the order of their lines. -/
def parsePacked (content : List Char) : Except Fault (List (String × ObjectId)) := do
  return (← (Text.lines content).mapM parsePackedLine).filterMap id

def packed (refs : Refs) (disk : Disk) : Except Fault (List (String × ObjectId)) :=
  let path := refs.directory.child "packed-refs"
  if disk.isFile path then do
    parsePacked (← (disk.readText path).mapError (.readPackedRefs path))
  else .ok []

/-- The object of a packed ref; of several lines for one name the last counts. -/
def findPacked? (lines : List (String × ObjectId)) (name : String) : Option ObjectId :=
  lines.reverse.lookup name

/-- The greatest number of refs that lead from one to the next. -/
def longestChain : Nat := 8

/-- Follows a ref, through at most so many others, to its object; nothing where there is no such
ref. -/
def resolve (refs : Refs) (disk : Disk) : Nat → String → Except Fault (Option ObjectId)
  | 0, name => .error (.refLoop name)
  | links + 1, name => do
    match ← readFile disk (refs.directory.child name) with
    | some (.symbolic target) => refs.resolve disk links target
    | some (.object id) => return some id
    | none => return findPacked? (← refs.packed disk) name

/-- The commit that is checked out; nothing for a branch without commits. -/
def readHead (refs : Refs) (disk : Disk) : Except Fault (Option ObjectId) :=
  refs.resolve disk (longestChain + 1) BranchName.headText

/-- Puts a ref into an ascending list, in place of what the list has for the name. -/
def insertRef (name : String) (id : ObjectId) :
    List (String × ObjectId) → List (String × ObjectId)
  | [] => [(name, id)]
  | (n, i) :: rest =>
    match compare name n with
    | .lt => (name, id) :: (n, i) :: rest
    | .eq => (name, id) :: rest
    | .gt => (n, i) :: insertRef name id rest

/-- The packed branches, in ascending order of names. -/
def packedBranches (lines : List (String × ObjectId)) : List (String × ObjectId) :=
  lines.foldl (fun branches (name, id) =>
    if headsPrefix.isPrefixOf name.toList then
      insertRef (String.ofList (name.toList.drop headsPrefix.length)) id branches
    else branches) []

/-- Takes in the file of a branch. -/
def addBranchFile (refs : Refs) (disk : Disk) (branches : List (String × ObjectId))
    (place : Place) : Except Fault (List (String × ObjectId)) := do
  let name := "/".intercalate place
  let path := if place.isEmpty then refs.headsPath else refs.headsPath.child name
  match ← readFile disk path with
  | some (.object id) => return insertRef name id branches
  | some (.symbolic target) =>
    match ← refs.resolve disk longestChain target with
    | some id => return insertRef name id branches
    | none => return branches
  | none => return branches

/-- All branches with their commits, in ascending order of names. -/
def branches (refs : Refs) (disk : Disk) : Except Fault (List (BranchName × ObjectId)) := do
  let start := packedBranches (← refs.packed disk)
  let all ← (disk.filesBelow refs.headsPath).foldlM (refs.addBranchFile disk) start
  all.mapM fun (name, id) => return (← BranchName.parse name, id)

/-! ## Writing -/

def writeFile (path : Path) (content : String) : DiskAction Unit := do
  if let some directory := path.directory? then
    DiskAction.makeDirectories directory
  (DiskAction.step fun disk => disk.writeFile path (RefFile.written (Utf8.ofString content))).within
    (.openRef path)

/-- Lets a branch point to a commit. -/
def updateBranch (refs : Refs) (name : BranchName) (id : ObjectId) : DiskAction Unit :=
  writeFile (refs.headsPath.child name.text) id.text

/-- Checks a branch out. -/
def setHead (refs : Refs) (name : BranchName) : DiskAction Unit :=
  writeFile refs.headPath (String.ofList (RefTarget.marker ++ headsPrefix) ++ name.text)

end Refs

end CommitLog
