import CommitLog.Proofs.Repository.Create

/-!
# Refs as a map

Branches that are updated and checked out one after the other are, for whoever lists them or reads
the head, one map from names to commits: a branch has the commit that it got last, or else its
packed one, and the head leads to what the branch has that was checked out last
(`Refs.Changes.branches_eq`).  Changes of branches whose names fit, and of which none is a directory
of another one, succeed (`Refs.exists_changes`).

    Stores git lines (fun _ => none) first start → (atPlace git).Changes start changes disk →
      ∃ list, (atPlace git).branches disk = .ok list ∧ ascending list ∧
        ((name, id) ∈ list ↔ commitAfter? lines changes name = some id)
-/

namespace CommitLog

inductive RefChange where
  /-- A branch points to a commit from now on. -/
  | update (name : BranchName) (id : ObjectId)
  /-- A branch is checked out. -/
  | attach (name : BranchName)

namespace RefChange

def name : RefChange → BranchName
  | .update name _ => name
  | .attach name => name

/-- A change as an operation on the disk. -/
def run (refs : Refs) : RefChange → DiskAction Unit
  | .update name id => refs.updateBranch name id
  | .attach name => refs.setHead name

def commitFor? (name : BranchName) : RefChange → Option ObjectId
  | .update own id => if own = name then some id else none
  | .attach _ => none

/-- The branch that is checked out. -/
def attached? : RefChange → Option BranchName
  | .update _ _ => none
  | .attach name => some name

end RefChange

namespace Refs

open Disk Repository

/-- Changes one after the other, the last one first, each of which has succeeded. -/
inductive Changes (refs : Refs) (start : Disk) : List RefChange → Disk → Prop
  | nil : Changes refs start [] start
  | cons {changes : List RefChange} {disk after : Disk} {change : RefChange}
      (before : Changes refs start changes disk)
      (run : (change.run refs).runOn disk = (.ok (), after)) :
      Changes refs start (change :: changes) after

def lastCommit? (changes : List RefChange) (name : BranchName) : Option ObjectId :=
  changes.findSome? (·.commitFor? name)

def lastHead? (changes : List RefChange) : Option BranchName :=
  changes.findSome? (·.attached?)

/-- The commit of a branch after some changes: the last one that it got, or else the packed one. -/
def commitAfter? (lines : List (String × ObjectId)) (changes : List RefChange) (name : BranchName) :
    Option ObjectId :=
  (lastCommit? changes name).or (findPacked? lines (branchRef name.text))

variable {git : Place} {lines : List (String × ObjectId)} {name first : BranchName}
  {disk start : Disk} {changes : List RefChange}

/-! ## What the changes leave behind -/

theorem lastCommit?_update (changes : List RefChange) (name : BranchName) (id : ObjectId)
    (other : BranchName) : lastCommit? (.update name id :: changes) other =
      if name = other then some id else lastCommit? changes other := by
  have own : (RefChange.update name id).commitFor? other = if name = other then some id else none :=
    rfl
  unfold lastCommit?
  rw [List.findSome?_cons, own]
  by_cases same : name = other
  · rw [if_pos same, if_pos same]
  · rw [if_neg same, if_neg same]

/-- A branch that got a commit is that of a change. -/
theorem exists_change_of_lastCommit? {id : ObjectId} (h : lastCommit? changes name = some id) :
    ∃ change ∈ changes, change.name = name := by
  obtain ⟨change, mem, own⟩ := List.exists_of_findSome?_eq_some h
  refine ⟨change, mem, ?_⟩
  cases change with
  | update own' _ => exact (Option.ite_none_right_eq_some.1 own).1
  | attach _ => cases own

/-- A branch that was checked out is that of a change. -/
theorem exists_change_of_lastHead? (h : lastHead? changes = some name) :
    ∃ change ∈ changes, change.name = name := by
  obtain ⟨change, mem, own⟩ := List.exists_of_findSome?_eq_some h
  refine ⟨change, mem, ?_⟩
  cases change with
  | update _ _ => cases own
  | attach _ => exact Option.some.inj own

/-- Every change keeps what is stored in step with the changes so far. -/
theorem Changes.stores (initial : Stores git lines (fun _ => none) first start)
    (plain : ∀ change ∈ changes, change.name.IsPlain)
    (run : (atPlace git).Changes start changes disk) :
    Stores git lines (lastCommit? changes) ((lastHead? changes).getD first) disk := by
  induction run with
  | nil => exact initial
  | @cons changes disk after change before run ih =>
    have stores := ih fun change mem => plain change (List.mem_cons_of_mem _ mem)
    cases change with
    | update name id =>
      rw [funext (lastCommit?_update changes name id)]
      exact stores.update (plain _ List.mem_cons_self) run
    | attach name => exact stores.attach run

theorem Changes.tidy (initial : Stores git lines (fun _ => none) first start)
    (tidy : Tidy git (fun _ => none) start) (plain : ∀ change ∈ changes, change.name.IsPlain)
    (run : (atPlace git).Changes start changes disk) : Tidy git (lastCommit? changes) disk := by
  induction run with
  | nil => exact tidy
  | @cons changes disk after change before run ih =>
    have others := fun change mem => plain change (List.mem_cons_of_mem _ mem)
    have stores := before.stores initial others
    cases change with
    | update name id =>
      rw [funext (lastCommit?_update changes name id)]
      exact (ih others).update (stores.placed_update (plain _ List.mem_cons_self) run).1
    | attach name => exact (ih others).beside (stores.placed_attach run) (by decide)

/-! ## Changes that succeed -/

/-- Changes of branches with names that fit, none of which is a directory of another one, succeed
one after the other. -/
theorem exists_changes (initial : Stores git lines (fun _ => none) first start)
    (tidy : Tidy git (fun _ => none) start) (ne : git ≠ [])
    (plain : ∀ change ∈ changes, change.name.IsPlain)
    (fits : ∀ change ∈ changes, IsPlace (git ++ ["refs", "heads"] ++ change.name.names))
    (apart : ∀ change ∈ changes, ∀ other ∈ changes,
      change.name.names <+: other.name.names → change.name = other.name) :
    ∃ disk, (atPlace git).Changes start changes disk := by
  induction changes with
  | nil => exact ⟨start, .nil⟩
  | cons change changes ih =>
    have others := fun change mem => plain change (List.mem_cons_of_mem _ mem)
    obtain ⟨disk, before⟩ := ih others (fun change mem => fits change (List.mem_cons_of_mem _ mem))
      fun change mem other memOther =>
        apart change (List.mem_cons_of_mem _ mem) other (List.mem_cons_of_mem _ memOther)
    have stores := before.stores initial others
    obtain ⟨after, run⟩ : ∃ after, (change.run (atPlace git)).runOn disk = (.ok (), after) := by
      cases change with
      | attach name => exact stores.exists_attach ne name
      | update name id =>
        refine stores.exists_update (before.tidy initial tidy others) (fits _ List.mem_cons_self)
          (fun other i known near => ?_) id
        obtain ⟨change, mem, rfl⟩ := exists_change_of_lastCommit? known
        have mem := List.mem_cons_of_mem (.update name id) mem
        rcases near with below | above
        · exact apart _ mem _ List.mem_cons_self below
        · exact (apart _ List.mem_cons_self _ mem above).symm
    exact ⟨after, .cons before run⟩

/-- **After any changes the branches are listed in ascending order, each once, with the last commits
that they got or else their packed ones, and the head leads to the entry of the branch that was
checked out last.** -/
theorem Changes.branches_eq (initial : Stores git lines (fun _ => none) first start)
    (firstPlain : first.IsPlain)
    (packedPlain : ∀ ref ∈ lines, ∀ name : BranchName, ref.1 = branchRef name.text → name.IsPlain)
    (plain : ∀ change ∈ changes, change.name.IsPlain)
    (run : (atPlace git).Changes start changes disk) :
    (∃ list, (atPlace git).branches disk = .ok list ∧
      (list.Pairwise fun a b => compare a.1.text b.1.text = .lt) ∧
      ∀ name id, (name, id) ∈ list ↔ commitAfter? lines changes name = some id) ∧
    (atPlace git).readHead disk =
      .ok (commitAfter? lines changes ((lastHead? changes).getD first)) := by
  have stores := run.stores initial plain
  refine ⟨stores.exists_list packedPlain, stores.readHead_eq_commit ?_⟩
  cases attached : lastHead? changes with
  | none => exact firstPlain
  | some name =>
    obtain ⟨change, mem, rfl⟩ := exists_change_of_lastHead? attached
    exact plain change mem

/-! ## An example -/

namespace Merged

def root : Place := ["a"]

def empty : Disk := .ofNodes [(root, .directory)]

def commit (digit : UInt8) : ObjectId := ⟨List.replicate 20 digit, rfl⟩

def packedRefs : List (Option (String × ObjectId)) :=
  [none, some ("refs/heads/main", commit 0x11), some ("refs/heads/old", commit 0x22),
    some ("refs/tags/v1", commit 0x33)]

def packedText : List Char :=
  "# pack-refs with: peeled\n".toList ++ (commit 0x11).digits ++ " refs/heads/main\n".toList ++
    (commit 0x22).digits ++ " refs/heads/old\n".toList ++ (commit 0x33).digits ++
    " refs/tags/v1\n".toList

def main : BranchName := ⟨"main"⟩

def old : BranchName := ⟨"old"⟩

def login : BranchName := ⟨"feature/login"⟩

/-- A packed branch gets a commit; a branch is checked out before it gets one. -/
def sampleChanges : List RefChange :=
  [.update login (commit 0x55), .attach login, .update main (commit 0x44)]

theorem isPlain : ∀ name ∈ [main, old, login], name.IsPlain := by
  have parsed : ∀ name ∈ [main, old, login],
      (BranchName.parse name.text).toOption = some name := by decide
  have whole : ∀ name ∈ [main, old, login], [] ∉ Text.splitAll '/' name.text.toList := by decide
  have ending : ∀ name ∈ [main, old, login],
      name.text.toList.getLast?.any Text.isBlank = false := by decide
  exact fun name mem => ⟨toOption_eq_some.1 (parsed name mem), whole name mem,
    (Option.any_eq_false _ _).1 (ending name mem)⟩

theorem isPlain_sampleChanges : ∀ change ∈ sampleChanges, change.name.IsPlain := by
  intro change mem
  simp only [sampleChanges, List.mem_cons, List.not_mem_nil, or_false] at mem
  rcases mem with rfl | rfl | rfl
  · exact isPlain login (by simp)
  · exact isPlain login (by simp)
  · exact isPlain main (by simp)

theorem packedLines : List.Forall₂ PackedLine (Text.lines packedText) packedRefs := by
  have cut : Text.lines packedText = ["# pack-refs with: peeled".toList,
      (commit 0x11).digits ++ ' ' :: "refs/heads/main".toList,
      (commit 0x22).digits ++ ' ' :: "refs/heads/old".toList,
      (commit 0x33).digits ++ ' ' :: "refs/tags/v1".toList] := by decide +kernel
  rw [cut]
  exact .cons (.comment _) (.cons (.ref _ _ (by decide)) (.cons (.ref _ _ (by decide))
    (.cons (.ref _ _ (by decide)) .nil)))

/-- The packed branches are plain. -/
theorem packedPlain : ∀ ref ∈ packedRefs.filterMap id, ∀ name : BranchName,
    ref.1 = branchRef name.text → name.IsPlain := by
  have whole (name : BranchName) (other : String)
      (same : String.ofList headsPrefix ++ other = branchRef name.text) : name = ⟨other⟩ := by
    have own : other = name.text := by simpa [branchRef] using same
    cases name
    exact congrArg _ own.symm
  have refs : packedRefs.filterMap id = [("refs/heads/main", commit 0x11),
    ("refs/heads/old", commit 0x22), ("refs/tags/v1", commit 0x33)] := rfl
  rw [refs]
  intro ref mem name same
  simp only [List.mem_cons, List.not_mem_nil, or_false] at mem
  rcases mem with rfl | rfl | rfl
  · rw [whole name "main" same]
    exact isPlain main (by simp)
  · rw [whole name "old" same]
    exact isPlain old (by simp)
  · -- a tag is no branch
    have front : headsPrefix <+: "refs/tags/v1".toList := by
      refine ⟨name.text.toList, ?_⟩
      rw [← String.toList_ofList (l := headsPrefix), ← String.toList_append]
      exact congrArg _ same.symm
    exact absurd front (by decide)

/-- A new repository. -/
theorem exists_new : ∃ made, Stores (gitPlace root) [] (fun _ => none) firstBranch made ∧
    Tidy (gitPlace root) (fun _ => none) made ∧
    made.node? (gitPlace root ++ ["packed-refs"]) = none := by
  have proper : ∀ entry ∈ [(root, Node.directory)], entry.1 ≠ [] := by decide
  have rooted : empty.Rooted := rooted_ofNodes proper (by decide) (by decide)
  have directory : empty.node? root = some .directory :=
    node?_of_mem proper (by decide) List.mem_cons_self
  have absent : empty.node? (gitPlace root) = none :=
    node?_of_not_mem proper (by decide) (by decide)
  obtain ⟨made, -, known⟩ := exists_create rooted (by decide) directory absent (by decide)
  exact ⟨made, known⟩

/-- The changes succeed in a new repository whose refs are packed. -/
theorem exists_changes_sample : ∃ start disk,
    Stores (gitPlace root) (packedRefs.filterMap id) (fun _ => none) firstBranch start ∧
      (atPlace (gitPlace root)).Changes start sampleChanges disk := by
  obtain ⟨made, stores, tidy, free⟩ := exists_new
  have git : made.node? (gitPlace root) = some .directory :=
    stores.rooted.directory_of_prefix (List.prefix_append _ _) stores.heads
  have packed := writeFile_pathOf stores.rooted (stores.isPlace ["packed-refs"] (by simp)) git
    (by rw [free]; exact nofun) (Utf8.encode packedText)
  have start := stores.pack (Utf8.decode_encode packedText) packedLines packed
  obtain ⟨disk, changed⟩ := exists_changes start (tidy.beside (stores.placed_pack packed)
    (by decide)) (by decide) isPlain_sampleChanges (by decide) (by decide)
  exact ⟨_, disk, start, changed⟩

end Merged

open Merged

/-- A packed branch is listed with its new commit, one without a change with its packed commit. -/
theorem Changes.branches_eq_merged : ∃ start disk list,
    (atPlace (gitPlace root)).Changes start sampleChanges disk ∧
    (atPlace (gitPlace root)).branches disk = .ok list ∧ (login, commit 0x55) ∈ list ∧
    (main, commit 0x44) ∈ list ∧ (old, commit 0x22) ∈ list ∧
    (atPlace (gitPlace root)).readHead disk = .ok (some (commit 0x55)) := by
  obtain ⟨start, disk, initial, changed⟩ := exists_changes_sample
  obtain ⟨⟨list, listed, -, members⟩, read⟩ := Changes.branches_eq initial
    (isPlain main (by simp)) packedPlain isPlain_sampleChanges changed
  refine ⟨start, disk, list, changed, listed, (members _ _).2 ?_, (members _ _).2 ?_,
    (members _ _).2 ?_, read.trans (congrArg _ ?_)⟩ <;> decide

end Refs

end CommitLog
