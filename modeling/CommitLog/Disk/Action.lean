import CommitLog.Disk.Change
import CommitLog.Fault

/-!
# Operations on the disk

An operation looks at the disk and changes it step by step, and may stop with a fault.  The steps
before a fault have happened.
-/

namespace CommitLog

abbrev DiskAction := ExceptT Fault (StateM Disk)

namespace DiskAction

def look (read : Disk → Except Fault α) : DiskAction α :=
  ExceptT.mk fun disk => (read disk, disk)

/-- A step that happens or leaves the disk alone. -/
def step (change : Disk → Except Disk.Fault Disk) : DiskAction Unit :=
  ExceptT.mk fun disk =>
    match change disk with
    | .ok changed => (.ok (), changed)
    | .error fault => (.error (.disk fault), disk)

/-- Makes a directory and those above it. -/
def makeDirectories (path : Path) : DiskAction Unit :=
  ExceptT.mk fun disk =>
    let (result, disk) := Disk.makeDirectories path disk
    (result.mapError .disk, disk)

/-- An operation whose faults bring another one about. -/
def within (wrap : Fault → Fault) (action : DiskAction α) : DiskAction α :=
  ExceptT.adapt wrap action

/-- The outcome of an operation and the disk afterwards. -/
def runOn (action : DiskAction α) (disk : Disk) : Except Fault α × Disk :=
  StateT.run action.run disk

end DiskAction

end CommitLog
