import CommitLog.Disk.Basic

/-!
# Changes of the file system

A single change happens or leaves the disk alone.  `makeDirectories` makes several directories, and
those made before a fault stay.
-/

namespace CommitLog.Disk

/-- The last name of a path. -/
inductive Ending where
  /-- The path ends in dots, or names the root: what it names is there already. -/
  | present
  /-- A name in a directory, and whether a slash follows it. -/
  | name (directory : Place) (name : String) (slash : Bool)

/-- Follows a path up to its last name. -/
def ending (disk : Disk) (path : Path) : Except Fault Ending := do
  let segments ← segmentsOf path
  let kept := (segments.reverse.dropWhile List.isEmpty).reverse
  match kept.getLast?.bind Component.ofSegment? with
  | some (.normal name) =>
    match ← disk.follow path kept.dropLast with
    | (place, .directory) => return .name place name (kept.length < segments.length)
    | (_, .file _) => throw .notDirectory
  | _ =>
    let _ ← disk.follow path kept
    return .present

def put (disk : Disk) (place : Place) (node : Node) : Disk :=
  { disk with nodes := disk.nodes.insert place node }

/-- Makes a directory where nothing is. -/
def makeDirectory (disk : Disk) (path : Path) : Except Fault Disk := do
  match ← disk.ending path with
  | .present => throw .exists
  | .name place name _ =>
    match disk.child place name with
    | .ok _ => throw .exists
    | .error .notFound => return disk.put (place ++ [name]) .directory
    | .error fault => throw fault

/-- Makes a directory and those above it, at most so many; what is there already is fine. -/
def makeDirectoriesUpTo : Nat → Path → Disk → Except Fault Unit × Disk
  | 0, _, disk => (.error .notFound, disk)
  | count + 1, path, disk =>
    match disk.makeDirectory path with
    | .ok disk => (.ok (), disk)
    | .error .notFound =>
      match path.directory? with
      | none => (.error .notFound, disk)
      | some above =>
        match makeDirectoriesUpTo count above disk with
        | (.error fault, disk) => (.error fault, disk)
        | (.ok (), disk) =>
          match disk.makeDirectory path with
          | .ok disk => (.ok (), disk)
          | .error fault => (if disk.isDirectory path then .ok () else .error fault, disk)
    | .error fault => (if disk.isDirectory path then .ok () else .error fault, disk)

/-- Makes a directory and those above it. -/
def makeDirectories (path : Path) (disk : Disk) : Except Fault Unit × Disk :=
  if path.text.isEmpty then (.ok (), disk)
  else makeDirectoriesUpTo (path.components.length + 1) path disk

/-- Writes a file, in place of what it held. -/
def writeFile (disk : Disk) (path : Path) (content : List UInt8) : Except Fault Disk := do
  match ← disk.ending path with
  | .present => throw .isDirectory
  | .name place name slash =>
    if slash then throw .isDirectory
    match disk.child place name with
    | .ok (_, .directory) => throw .isDirectory
    | .ok (_, .file _) | .error .notFound => return disk.put (place ++ [name]) (.file content)
    | .error fault => throw fault

def removeFile (disk : Disk) (path : Path) : Except Fault Disk := do
  match ← disk.find path with
  | (place, .file _) => return { disk with nodes := disk.nodes.erase place }
  | (_, .directory) => throw .isDirectory

end CommitLog.Disk
