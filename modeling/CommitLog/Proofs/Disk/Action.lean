import CommitLog.Disk.Action

/-!
# Operations step by step

What an operation made of steps gives and leaves behind: the steps are taken one after the other,
and the first fault ends the operation on the disk that it is met on.
-/

namespace CommitLog.DiskAction

variable {α β : Type} (action : DiskAction α) (next : α → DiskAction β) (disk : Disk)

theorem runOn_pure (a : α) : (pure a : DiskAction α).runOn disk = (.ok a, disk) := rfl

theorem runOn_get : (get : DiskAction Disk).runOn disk = (.ok disk, disk) := rfl

theorem runOn_look (read : Disk → Except Fault α) :
    (look read).runOn disk = (read disk, disk) := rfl

theorem runOn_bind : (action >>= next).runOn disk =
    match action.runOn disk with
    | (.ok a, after) => (next a).runOn after
    | (.error fault, after) => (.error fault, after) := by
  unfold runOn
  rw [ExceptT.run_bind, StateT.run_bind]
  rcases action.run.run disk with ⟨_ | a, after⟩ <;> rfl

theorem runOn_within (wrap : Fault → Fault) : (action.within wrap).runOn disk =
    ((action.runOn disk).1.mapError wrap, (action.runOn disk).2) := rfl

theorem runOn_makeDirectories (path : Path) : (makeDirectories path).runOn disk =
    ((Disk.makeDirectories path disk).1.mapError .disk, (Disk.makeDirectories path disk).2) := rfl

theorem runOn_step (change : Disk → Except Disk.Fault Disk) : (step change).runOn disk =
    match change disk with
    | .ok changed => (.ok (), changed)
    | .error fault => (.error (.disk fault), disk) := rfl

end CommitLog.DiskAction
