import CommitLog.CommandLine.Run

/-!
# The program

Loads what a command line names into a disk in memory, runs the command line on it, and writes what
comes out.
-/

namespace CommitLog.Program

open CommandLine

def variableNames : List String :=
  [CountSpec.initial.envName, CountSpec.firstStep.envName, CountSpec.cacheSize.envName,
    userVariable]

def readEnvironment : IO (List (String × String)) :=
  variableNames.filterMapM fun name => return (← IO.getEnv name).map (name, ·)

/-- Notes what a place holds, the content of files only where it is wanted. -/
def loadNode (withContent : Bool) (disk : Disk) (place : Place) : IO Disk := do
  let file := (← IO.currentDir) / (Disk.pathOf place).text
  if ← file.isDir then return disk.put place .directory
  else if ← file.pathExists then
    let content ← if withContent then IO.FS.readBinFile file else pure .empty
    return disk.put place (.file content.toList)
  else return disk

/-- The directories whose files are never read. -/
def isSkipped (place : Place) : Bool := ["objects", "pack"].isSuffixOf place

/-- Notes all that lies below a directory. -/
partial def loadBelow (disk : Disk) (place : Place) : IO Disk := do
  let directory := (← IO.currentDir) / (Disk.pathOf place).text
  if isSkipped place || !(← directory.isDir) then return disk
  let mut disk := disk
  for entry in ← directory.readDir do
    let below := place ++ [entry.fileName]
    disk ← loadNode true disk below
    disk ← loadBelow disk below
  return disk

/-- Notes what lies on the way that a path describes, and where it leads. -/
def loadWay (disk : Disk) (path : Path) : IO (Disk × Place) :=
  path.components.foldlM (fun (disk, place) component =>
    match component with
    | .root => return (disk, [])
    | .current => return (disk, place)
    | .parent => return (disk, place.dropLast)
    | .normal name => return (← loadNode false disk (place ++ [name]), place ++ [name]))
    (disk, disk.here)

def loadRepository (disk : Disk) (path : Path) : IO Disk := do
  let (disk, place) ← loadWay disk path
  let git := place ++ [".git"]
  loadBelow (← loadNode false disk git) git

/-- Notes all that a command line names. -/
def load (disk : Disk) (invocation : Invocation) : IO Disk := do
  let disk ← (repositoriesOr disk invocation.repositories).foldlM loadRepository disk
  invocation.otherPaths.foldlM (fun disk path => return (← loadWay disk path).1) disk

end CommitLog.Program

open CommitLog CommitLog.Program in
def main (arguments : List String) : IO UInt32 := do
  let known ← readEnvironment
  let environment (name : String) : Option String := known.lookup name
  let here : Path := ⟨(← IO.currentDir).toString⟩
  let (start, place) ← loadWay .empty here
  let disk := start.seenFrom place
  let disk ← match CommandLine.parse environment arguments with
    | .ok invocation => load disk invocation
    | .error _ => pure disk
  let outcome := CommandLine.run disk environment (← (← IO.getStdout).isTty) arguments
  IO.print outcome.output
  IO.eprint outcome.errors
  return UInt32.ofNat outcome.code
