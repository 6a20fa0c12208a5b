import CommitLog.Repository.ObjectStore

/-!
# Storing files

Files with paths are stored as blobs, and their directories as trees.
-/

namespace CommitLog

/-- A file by the names on the way to it. -/
abbrev PlacedFile := List String × List UInt8

namespace PlacedFile

/-- Adds a file to the directory it is in, which is the first name of its path. -/
def addTo (directory : String) (file : PlacedFile) :
    List (String × List PlacedFile) → List (String × List PlacedFile)
  | [] => [(directory, [file])]
  | (name, files) :: rest =>
    if name = directory then (name, files ++ [file]) :: rest
    else (name, files) :: addTo directory file rest

/-- The files that lie in directories, by directory. -/
def directories (files : List PlacedFile) : List (String × List PlacedFile) :=
  files.foldl (fun found file =>
    match file with
    | (directory :: name :: rest, content) => addTo directory (name :: rest, content) found
    | _ => found) []

/-- The file of a path with slashes. -/
def ofPath (path : String) (content : List UInt8) : PlacedFile :=
  ((Text.splitAll '/' path.toList).map String.ofList, content)

/-- The number of directories on the way to the deepest file. -/
def depth (files : List PlacedFile) : Nat := (files.map (·.1.length)).foldl max 0

end PlacedFile

namespace ObjectStore

/-- Stores files and the trees of at most so many levels of directories. -/
def writeLevels (store : ObjectStore) : Nat → List PlacedFile → DiskAction ObjectId
  | 0, _ => store.write Tree.empty.toRaw
  | levels + 1, files => do
    let blobs ← files.filterMapM fun file => do
      match file with
      | ([name], content) => return some (name, ← store.write ⟨.blob, content⟩)
      | _ => return none
    let trees ← (PlacedFile.directories files).mapM fun (name, below) => do
      return (name, ← store.writeLevels levels below)
    let tree := blobs.foldl (fun tree (name, id) => tree.insert name ⟨.regular, id⟩) Tree.empty
    store.write (trees.foldl (fun tree (name, id) => tree.insert name ⟨.directory, id⟩) tree).toRaw

/-- Stores files, and gives the id of the tree that has them all. -/
def writeFiles (store : ObjectStore) (files : List PlacedFile) : DiskAction ObjectId :=
  store.writeLevels (PlacedFile.depth files + 1) files

end ObjectStore

end CommitLog
