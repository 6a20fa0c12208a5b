import CommitLog.Proofs.Repository.RefStore
import CommitLog.Repository.Basic

/-!
# New repositories

A repository that is made in a directory without one gets directories for its objects and branches
(`Repository.Bare`) and then a head.  It stores no commits, and its head names the first branch.

    disk.node? (gitPlace root) = none → ∃ after,
      (create (pathOf root)).runOn disk = (.ok ⟨pathOf root⟩, after) ∧
      Stores (gitPlace root) [] (fun _ => none) firstBranch after
-/

namespace CommitLog.Repository

open Disk Refs

/-- A repository in the making: there are directories for its objects and branches, and nothing
else. -/
structure Bare (git : Place) (disk : Disk) : Prop where
  rooted : disk.Rooted
  heads : disk.node? (git ++ ["refs", "heads"]) = some .directory
  only : ∀ names node, disk.node? (git ++ names) = some node →
    node = .directory ∧ (names <+: ["objects"] ∨ names <+: ["refs", "heads"])

variable {git root : Place} {disk after : Disk} {name : BranchName}

/-- The directories of a repository are made where there is none. -/
theorem exists_bare (rooted : disk.Rooted) (directory : disk.node? root = some .directory)
    (absent : disk.node? (gitPlace root) = none)
    (placeObjects : IsPlace (gitPlace root ++ ["objects"]))
    (placeHeads : IsPlace (gitPlace root ++ ["refs", "heads"])) :
    ∃ middle after,
      makeDirectories (pathOf (gitPlace root ++ ["objects"])) disk = (.ok (), middle) ∧
      makeDirectories (pathOf (gitPlace root ++ ["refs", "heads"])) middle = (.ok (), after) ∧
      Bare (gitPlace root) after := by
  have clear {names front : Place} {content : List UInt8}
      (h : front <+: gitPlace root ++ names) : disk.node? front ≠ some (.file content) := by
    rw [gitPlace, List.append_assoc] at h
    exact ne_file_of_absent rooted directory absent h
  obtain ⟨middle, madeObjects, -, addsObjects, growsObjects⟩ :=
    exists_makeDirectories rooted placeObjects (by simp) fun _ _ h => clear h
  obtain ⟨after, madeHeads, heads, addsHeads, growsHeads⟩ :=
    exists_makeDirectories (addsObjects.rooted rooted) placeHeads (by simp)
      fun _ content h file => clear h (addsObjects.files _ content file)
  refine ⟨middle, after, madeObjects, madeHeads,
    addsHeads.rooted (addsObjects.rooted rooted), heads, fun names node own => ⟨?_, ?_⟩⟩
  · cases node with
    | directory => rfl
    | file content =>
      have old := addsObjects.files _ content (addsHeads.files _ content own)
      rw [rooted.absent_below absent] at old
      cases old
  · rcases growsHeads.fresh _ _ own with old | front
    · rcases growsObjects.fresh _ _ old with old | front
      · rw [rooted.absent_below absent] at old
        cases old
      · exact .inl ((List.prefix_append_right_inj _).1 front)
    · exact .inr ((List.prefix_append_right_inj _).1 front)

namespace Bare

variable (bare : Bare git disk)

include bare

theorem absent {names : Place} (other : ¬ (names <+: ["objects"] ∨ names <+: ["refs", "heads"])) :
    disk.node? (git ++ names) = none :=
  Option.eq_none_iff_forall_ne_some.2 fun node own => other (bare.only names node own).2

/-- With a head the repository stores no commits. -/
theorem stores
    (isPlace : ∀ names ∈ [[BranchName.headText], ["packed-refs"], ["refs", "heads"]],
      IsPlace (git ++ names))
    (run : ((atPlace git).setHead name).runOn disk = (.ok (), after)) :
    Stores git [] (fun _ => none) name after ∧ Tidy git (fun _ => none) after ∧
      after.node? (git ++ ["packed-refs"]) = none := by
  have placed := placed_setHead bare.rooted (isPlace _ (by simp)) run
  have noFile {names : Place} {content : List UInt8} (other : names ≠ [BranchName.headText]) :
      after.node? (git ++ names) ≠ some (.file content) := by
    intro file
    have old := placed.files _ _ (fun same => other (List.append_cancel_left same)) file
    cases (bare.only _ _ old).1
  have folder {names : Place} (own : after.node? (git ++ names) = some .directory) :
      (names <+: ["objects"] ∨ names <+: ["refs", "heads"]) ∨ names <+: [BranchName.headText] :=
    (placed.folders _ own).imp (fun old => (bare.only _ _ old).2)
      (List.prefix_append_right_inj _).1
  refine ⟨⟨placed.rooted, isPlace, ?heads, placed.own, ?packed, nofun, ?only⟩, ?tidy, ?absent⟩
  case heads => exact placed.kept _ _ (by simp) bare.heads
  case packed => exact .absent fun content => noFile (by decide)
  case only =>
    intro names content file
    rw [List.append_assoc] at file
    exact absurd file (noFile (by simp))
  case tidy =>
    intro names ne own
    rw [List.append_assoc] at own
    rcases folder own with (front | front) | front
    · simp at front
    · exact absurd (by simpa using front) ne
    · simp [BranchName.headText] at front
  case absent =>
    refine Option.eq_none_iff_forall_ne_some.2 fun node own => ?_
    cases node with
    | file content => exact noFile (by decide) own
    | directory => exact absurd (folder own) (by decide)

end Bare

/-- **A repository is made in a directory that has none: it stores no commits, and its head names
the first branch.** -/
theorem exists_create (rooted : disk.Rooted) (ne : root ≠ [])
    (directory : disk.node? root = some .directory) (absent : disk.node? (gitPlace root) = none)
    (isPlace : ∀ names ∈ [[BranchName.headText], ["packed-refs"], ["refs", "heads"], ["objects"]],
      IsPlace (gitPlace root ++ names)) :
    ∃ after, (create (pathOf root)).runOn disk = (.ok ⟨pathOf root⟩, after) ∧
      Stores (gitPlace root) [] (fun _ => none) firstBranch after ∧
      Tidy (gitPlace root) (fun _ => none) after ∧
      after.node? (gitPlace root ++ ["packed-refs"]) = none := by
  have placeObjects := isPlace ["objects"] (by simp)
  have placeHeads := isPlace ["refs", "heads"] (by simp)
  have placeGit : IsPlace (gitPlace root) := placeObjects.of_append
  obtain ⟨first, second, madeObjects, madeHeads, bare⟩ :=
    exists_bare rooted directory absent placeObjects placeHeads
  have free : second.node? (gitPlace root ++ [BranchName.headText]) ≠ some .directory := by
    rw [bare.absent (by decide)]
    exact (Option.some_ne_none _).symm
  obtain ⟨after, attached⟩ := exists_setHead bare.rooted (isPlace [BranchName.headText] (by simp))
    (by simp [gitPlace]) bare.heads free firstBranch
  have git : second.node? (gitPlace root) = some .directory :=
    bare.rooted.directory_of_prefix (List.prefix_append _ _) bare.heads
  have opened := openAt_pathOf bare.rooted ne placeGit git
  have places (names : Place)
      (mem : names ∈ [[BranchName.headText], ["packed-refs"], ["refs", "heads"]]) :=
    isPlace names (List.mem_append_left [["objects"]] mem)
  refine ⟨after, ?_, bare.stores places attached⟩
  have path : gitPath (pathOf root) = pathOf (gitPlace root) :=
    gitPath_pathOf placeGit.of_append.names
  have objects : (pathOf (gitPlace root)).child "objects" = pathOf (gitPlace root ++ ["objects"]) :=
    child_name placeGit.names (by decide)
  have branches : ((pathOf (gitPlace root)).child "refs").child "heads" =
      pathOf (gitPlace root ++ ["refs", "heads"]) := headsPath_pathOf placeHeads
  have atGit : (⟨pathOf root⟩ : Repository).refs = atPlace (gitPlace root) := by
    rw [refs, path]
    rfl
  unfold create
  rw [path]
  dsimp only
  rw [objects, branches]
  simp only [List.forIn_cons, List.forIn_nil, bind_assoc, pure_bind, DiskAction.runOn_bind,
    DiskAction.runOn_within, DiskAction.runOn_makeDirectories, DiskAction.runOn_look,
    DiskAction.runOn_pure, madeObjects, madeHeads, opened, Except.mapError]
  rw [atGit, attached]

end CommitLog.Repository
