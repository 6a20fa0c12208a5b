import CommitLog.Proofs.Disk.Slashes
import CommitLog.Proofs.Repository.RefChanges

/-!
# One branch in a new repository

A branch of any name can be updated in a repository without refs, unless its name is too long.  It
gets a file strictly below the directory of the branches, where the parts of its name lead that are
not empty.  So it is listed under the name without empty parts, which is another name if two slashes
follow each other in it, and the head finds it again if the name does not end in a blank
(`Refs.updateBranch_lone`).

    (updateBranch name id).runOn start = (.ok (), after) →
      branches after = .ok [(name.joined, id)]
    (setHead name).runOn after = (.ok (), last) →
      readHead last = .ok (if name.endsInBlank then none else some id)
-/

namespace CommitLog.Refs

open Disk Repository

/-- A branch whose names are not too long, and whose path is not. -/
structure Fits (git : Place) (name : BranchName) : Prop where
  parts : ∀ part ∈ name.parts, part.utf8ByteSize ≤ longestName
  short : ((atPlace git).headsPath.child name.text).text.utf8ByteSize < longestPath

def branchSegments (git : Place) (name : BranchName) : List (List Char) :=
  (git ++ ["refs", "heads"]).map String.toList ++ Text.splitAll '/' name.text.toList

variable {git place : Place} {name first : BranchName} {id : ObjectId} {disk start after : Disk}

/-! ## The path of a branch -/

section Path

variable (isPlace : IsPlace (git ++ ["refs", "heads"]))
  (parsed : BranchName.parse name.text = .ok name)

include isPlace parsed

theorem child_eq_slashed :
    (atPlace git).headsPath.child name.text = slashed (branchSegments git name) := by
  have heads : (atPlace git).headsPath = pathOf (git ++ ["refs", "heads"]) :=
    headsPath_pathOf isPlace
  have text : (atPlace git).headsPath.child name.text =
      ⟨(atPlace git).headsPath.text ++ "/" ++ name.text⟩ :=
    @Path.join_of_ne_slash _ ⟨name.text⟩ (BranchName.exists_forward parsed).1 's'
      (getLast?_headsPath _) (by decide)
  have own : (slashed (branchSegments git name)).text.toList =
      (pathOf (git ++ ["refs", "heads"])).text.toList ++ '/' :: name.text.toList := by
    rw [toList_slashed, branchSegments, Text.intercalate_append (by simp)
      (Text.splitAll_ne_nil _ _), Text.intercalate_splitAll, toList_pathOf, List.cons_append]
  rw [text, heads]
  refine congrArg Path.mk (String.toList_inj.1 (Eq.trans ?_ own.symm))
  rw [String.toList_append, String.toList_append, List.append_assoc]
  rfl

/-- What counts of the path of a branch. -/
theorem loud_branchSegments : loud (branchSegments git name) =
    (git ++ ["refs", "heads"] ++ name.parts).map String.toList := by
  have above : loud ((git ++ ["refs", "heads"]).map String.toList) =
      (git ++ ["refs", "heads"]).map String.toList := by
    refine List.filter_eq_self.2 fun segment mem => ?_
    obtain ⟨own, known, rfl⟩ := List.mem_map.1 mem
    rw [Path.isSilent, (isPlace.names own known).ofSegment?.1]
    rfl
  have below : loud (Text.splitAll '/' name.text.toList) =
      (Text.splitAll '/' name.text.toList).filter (· ≠ []) := by
    refine List.filter_congr fun part mem => ?_
    by_cases empty : part = []
    · rw [empty]
      rfl
    · rw [Path.isSilent, BranchName.ofSegment?_of_parse parsed mem empty, decide_eq_true empty]
      rfl
  rw [branchSegments, loud_append, above, below, BranchName.parts_eq]
  simp [Function.comp_def]

theorem slashed_loud_branchSegments : slashed (loud (branchSegments git name)) =
    pathOf (git ++ ["refs", "heads"] ++ name.parts) := by
  rw [loud_branchSegments isPlace parsed, slashed_map]

omit isPlace in
/-- The path of a branch ends in a name. -/
theorem exists_branchSegments : ∃ front last, branchSegments git name = front ++ [last] ∧
    Component.ofSegment? last = some (.normal (String.ofList last)) := by
  obtain ⟨front, last, cut, full, -⟩ := BranchName.exists_split parsed
  have mem : last ∈ Text.splitAll '/' name.text.toList := by simp [cut]
  refine ⟨(git ++ ["refs", "heads"]).map String.toList ++ front, last, ?_,
    BranchName.ofSegment?_of_parse parsed mem full⟩
  rw [branchSegments, cut, List.append_assoc]

theorem steps_branchSegments (fits : Fits git name) : Steps (branchSegments git name) := by
  have short := fits.short
  rw [child_eq_slashed isPlace parsed] at short
  refine ⟨fun segment mem => ?_, fun segment mem => ?_, fun segment mem => ?_, short⟩ <;>
    rcases List.mem_append.1 mem with mem | mem
  · obtain ⟨own, known, rfl⟩ := List.mem_map.1 mem
    exact (isPlace.names own known).ofSegment?.2
  · exact Text.not_mem_of_mem_splitAll mem
  · obtain ⟨own, known, rfl⟩ := List.mem_map.1 mem
    exact (isPlace.names own known).2.1
  · intro null
    have forbidden := BranchName.isForbiddenChar_of_mem parsed (Text.mem_of_mem_splitAll mem null)
    exact absurd forbidden (by decide)
  · obtain ⟨own, known, rfl⟩ := List.mem_map.1 mem
    rw [(isPlace.names own known).ofSegment?.1]
    exact nofun
  · by_cases empty : segment = []
    · rw [empty]
      exact nofun
    · rw [BranchName.ofSegment?_of_parse parsed mem empty]
      exact nofun

/-- A branch that fits has a place. -/
theorem isPlace_of_fits (fits : Fits git name) :
    IsPlace (git ++ ["refs", "heads"] ++ name.parts) := by
  have steps := steps_branchSegments isPlace parsed fits
  refine ⟨fun other mem => ?_, ?_⟩
  · rcases List.mem_append.1 mem with mem | own
    · exact isPlace.names other mem
    have short := fits.parts other own
    rw [BranchName.parts_eq] at own
    obtain ⟨part, known, rfl⟩ := List.mem_map.1 own
    obtain ⟨known, full⟩ := List.mem_filter.1 known
    have segment : part ∈ branchSegments git name := List.mem_append_right _ known
    obtain ⟨text, isName⟩ := Path.isName_of_ofSegment? (steps.noSlash part segment)
      (BranchName.ofSegment?_of_parse parsed known (of_decide_eq_true full))
    refine ⟨isName, ?_, short⟩
    rw [text]
    exact steps.noNull part segment
  · have short := (steps.sublist (loud_sublist _)).short
    rwa [slashed_loud_branchSegments isPlace parsed] at short

theorem find_child (fits : Fits git name) :
    disk.find ((atPlace git).headsPath.child name.text) =
      disk.find (pathOf (git ++ ["refs", "heads"] ++ name.parts)) := by
  have steps := steps_branchSegments isPlace parsed fits
  obtain ⟨front, last, segments, component⟩ := @exists_branchSegments git name parsed
  rw [child_eq_slashed isPlace parsed, ← slashed_loud_branchSegments isPlace parsed, segments]
  rw [segments] at steps
  exact (find_loud steps component).symm

/-- A branch is written as the one without empty parts in its name. -/
theorem updateBranch_joined (fits : Fits git name) (id : ObjectId) :
    ((atPlace git).updateBranch name id).runOn disk = (.ok (), after) ↔
      ((atPlace git).updateBranch name.joined id).runOn disk = (.ok (), after) := by
  have steps := steps_branchSegments isPlace parsed fits
  have path := slashed_loud_branchSegments isPlace parsed
  have names := (isPlace_of_fits isPlace parsed fits).names
  obtain ⟨front, last, segments, component⟩ := @exists_branchSegments git name parsed
  rw [segments] at steps path
  obtain ⟨above, directory, directoryLoud, stepsAbove, endsAbove⟩ :=
    exists_directory?_loud steps component
  have joined : (atPlace git).headsPath.child name.joined.text =
      slashed (loud (front ++ [last])) := by
    rw [← BranchName.names_joined parsed] at names path
    rw [path_branch isPlace names, path]
  rw [updateBranch, updateBranch, child_eq_slashed isPlace parsed, joined, segments,
    runOn_writeFile_eq_ok, runOn_writeFile_eq_ok, directory, directoryLoud]
  simp only [Option.elim_some, makeDirectories_loud stepsAbove endsAbove,
    writeFile_loud steps component]

end Path

/-! ## One file below the branches -/

/-- Below the directory of the branches is one file, with this commit, and no refs are packed. -/
structure Lone (git place : Place) (id : ObjectId) (disk : Disk) : Prop where
  rooted : disk.Rooted
  heads : disk.node? (git ++ ["refs", "heads"]) = some .directory
  own : disk.node? (git ++ ["refs", "heads"] ++ place) = some (.file (branchContent id))
  only : ∀ names content, disk.node? (git ++ ["refs", "heads"] ++ names) = some (.file content) →
    names = place
  packed : PackedFile [] (disk.node? (git ++ ["packed-refs"]))

/-- A branch that is updated in a repository without refs has the only file. -/
theorem Stores.lone_update (initial : Stores git [] (fun _ => none) first start)
    (parsed : BranchName.parse name.text = .ok name)
    (run : ((atPlace git).updateBranch name id).runOn start = (.ok (), after)) :
    Placed start after (git ++ ["refs", "heads"] ++ name.parts) (branchContent id) ∧
      Fits git name ∧ Lone git name.parts id after := by
  obtain ⟨absolute, forward, leads⟩ :=
    leads_child (initial.isPlace ["refs", "heads"] (by simp)) parsed
  obtain ⟨placed, names, short⟩ := placed_of_runOn initial.rooted absolute forward leads run
  have differ {names : Place} (few : names.length < 3) :
      git ++ names ≠ git ++ ["refs", "heads"] ++ name.parts := by
    rw [← BranchName.names_joined parsed]
    exact ne_branch few
  refine ⟨placed, ⟨fun part mem => (names part (List.mem_append_right _ mem)).2.2, short⟩,
    placed.rooted, placed.kept _ _ (differ (by simp)) initial.heads, placed.own,
    fun names content file => ?_, initial.packed.placed (differ (by simp)) placed⟩
  by_contra other
  have old := placed.files _ _ (fun same => other (List.append_cancel_left same)) file
  obtain ⟨_, _, known, -⟩ := initial.only names content old
  cases known

namespace Lone

variable (lone : Lone git place id disk)

include lone

/-- A head that is written changes nothing below the branches. -/
theorem attach (isPlace : IsPlace (git ++ [BranchName.headText]))
    (run : ((atPlace git).setHead name).runOn disk = (.ok (), after)) :
    Lone git place id after ∧
      after.node? (git ++ [BranchName.headText]) = some (.file (headContent name)) := by
  have placed := placed_setHead lone.rooted isPlace run
  have apart (names : Place) :
      git ++ ["refs", "heads"] ++ names ≠ git ++ [BranchName.headText] := by
    simp [BranchName.headText]
  have differ : git ++ ["refs", "heads"] ≠ git ++ [BranchName.headText] := by
    simp [BranchName.headText]
  refine ⟨⟨placed.rooted, placed.kept _ _ differ lone.heads, placed.kept _ _ (apart _) lone.own,
    fun names content file => ?_, lone.packed.placed (by simp [BranchName.headText]) placed⟩,
    placed.own⟩
  exact lone.only names content (placed.files _ _ (apart _) file)

variable (isPlace : ∀ names ∈ [["packed-refs"], ["refs", "heads"]], IsPlace (git ++ names))

include isPlace

theorem packed_eq : (atPlace git).packed disk = .ok [] :=
  lone.packed.packed_eq lone.rooted (isPlace _ (by simp))

theorem looseBranch_eq (fits : IsPlace (git ++ ["refs", "heads"] ++ name.names))
    (own : name.names = place) : (atPlace git).looseBranch disk name.text = .ok (some id) := by
  have file : disk.node? (git ++ ["refs", "heads"] ++ name.names) =
      some (.file (branchContent id)) := by rw [own, lone.own]
  have read : readFile disk ((atPlace git).headsPath.child name.text) =
      .ok (some (.object id)) := by
    rw [path_branch (isPlace _ (by simp)) fits.names,
      readFile_ref lone.rooted fits (by simp) file (RefFile.decode_written id.text)]
    exact RefTarget.parse_object id
  exact bind_eq_ok.2 ⟨_, read, rfl⟩

/-- The branch of the file is the only one that is listed. -/
theorem list_eq (parsed : BranchName.parse name.text = .ok name)
    (whole : [] ∉ Text.splitAll '/' name.text.toList)
    (fits : IsPlace (git ++ ["refs", "heads"] ++ name.names)) (own : name.names = place) :
    (atPlace git).branches disk = .ok [(name, id)] := by
  have packed := lone.packed_eq isPlace
  have loose := lone.looseBranch_eq isPlace fits own
  have files (names : Place) (mem : names ∈ disk.filesBelow (atPlace git).headsPath) :
      "/".intercalate names = name.text := by
    obtain ⟨content, file⟩ :=
      (mem_filesBelow_heads lone.rooted (isPlace _ (by simp)) lone.heads).1 mem
    rw [lone.only names content file, ← own, name.intercalate_names]
  obtain ⟨list, listed⟩ := exists_branches packed nofun fun names mem => by
    refine ⟨?_, ⟨some id, ?_⟩, name, ?_⟩
    · rintro rfl
      exact (BranchName.parse_eq_ok.1 parsed).1 (files _ mem).symm
    · rw [files names mem]
      exact loose
    · rw [files names mem]
      exact parsed
  obtain ⟨_, _, same, again, members⟩ := mem_branches parsed whole listed
  obtain rfl := Except.ok.inj (same.symm.trans packed)
  obtain rfl := Except.ok.inj (again.symm.trans loose)
  have each : ∀ entry ∈ list, entry = (name, id) := by
    rintro ⟨other, i⟩ mem
    rcases name_of_mem_branches packed listed mem with ⟨_, found⟩ | ⟨names, known, text⟩
    · cases found
    · obtain rfl : name = other := by
        cases name
        cases other
        exact congrArg _ ((files names known).symm.trans text)
      rw [Option.some.inj ((members i).1 mem)]
  have distinct : list.Nodup := (ascending_branches listed).imp fun less same => by
    rw [same, Std.ReflOrd.compare_self] at less
    cases less
  refine listed.trans (congrArg _ (by_contra fun differ => ?_))
  rcases (distinct.ne_singleton_iff _).1 differ with none | ⟨entry, mem, other⟩
  · have first : (name, id) ∈ list := (members id).2 rfl
    rw [none] at first
    cases first
  · exact other (each entry mem)

/-- A head that names the branch leads to its commit, unless the name ends in a blank. -/
theorem head_eq (parsed : BranchName.parse name.text = .ok name) (fits : Fits git name)
    (own : name.parts = place) (placeHead : IsPlace (git ++ [BranchName.headText]))
    (headFile : disk.node? (git ++ [BranchName.headText]) = some (.file (headContent name))) :
    (atPlace git).readHead disk = .ok (if name.endsInBlank then none else some id) := by
  have placeHeads := isPlace ["refs", "heads"] (by simp)
  have packed := lone.packed_eq isPlace
  obtain ⟨relative, leads⟩ := BranchName.components_asRead parsed
  have branch : readFile disk ((atPlace git).directory.child (branchRef name.asRead.text)) =
      .ok (if name.endsInBlank then none else some (.object id)) := by
    rw [child_branchRef _ relative]
    cases blank : name.endsInBlank with
    | false =>
      have found : disk.find ((atPlace git).headsPath.child name.text) =
          .ok (git ++ ["refs", "heads"] ++ name.parts, .file (branchContent id)) := by
        rw [find_child placeHeads parsed fits]
        refine find_of_node? lone.rooted (isPlace_of_fits placeHeads parsed fits) (by simp) ?_
        rw [own, lone.own]
      rw [BranchName.asRead_eq_self blank,
        readFile_of_find found (RefFile.decode_written id.text)]
      exact RefTarget.parse_object id
    | true =>
      refine if_neg fun isFile => BranchName.parts_asRead_ne blank ?_
      obtain ⟨found, content, run⟩ := exists_file_of_isFile isFile
      have file := lone.rooted.node?_of_find run
      rw [place_of_find run, placeFrom_child placeHeads leads.1 leads.2] at file
      rw [lone.only _ _ file, own]
  refine bind_eq_ok.2 ⟨_, readFile_headPath lone.rooted placeHead parsed headFile,
    bind_eq_ok.2 ⟨_, branch, ?_⟩⟩
  cases name.endsInBlank with
  | false => rfl
  | true => exact bind_eq_ok.2 ⟨_, packed, rfl⟩

end Lone

/-! ## The branch that is updated and checked out -/

/-- A branch can be updated in a repository without refs when it fits, and only then. -/
theorem exists_updateBranch_iff (initial : Stores git [] (fun _ => none) first start)
    (tidy : Tidy git (fun _ => none) start) (parsed : BranchName.parse name.text = .ok name)
    (id : ObjectId) :
    (∃ after, ((atPlace git).updateBranch name id).runOn start = (.ok (), after)) ↔
      Fits git name := by
  constructor
  · rintro ⟨after, run⟩
    exact (initial.lone_update parsed run).2.1
  · intro fits
    have placeHeads := initial.isPlace ["refs", "heads"] (by simp)
    have isPlace := isPlace_of_fits placeHeads parsed fits
    rw [← BranchName.names_joined parsed] at isPlace
    obtain ⟨after, run⟩ := initial.exists_update tidy isPlace nofun id
    exact ⟨after, (updateBranch_joined placeHeads parsed fits id).2 run⟩

/-- A branch that is updated in a repository without refs is listed under its name without empty
parts. -/
theorem Stores.branches_update (initial : Stores git [] (fun _ => none) first start)
    (parsed : BranchName.parse name.text = .ok name)
    (run : ((atPlace git).updateBranch name id).runOn start = (.ok (), after)) :
    (atPlace git).branches after = .ok [(name.joined, id)] := by
  obtain ⟨-, fits, lone⟩ := initial.lone_update parsed run
  have isPlace := isPlace_of_fits (initial.isPlace ["refs", "heads"] (by simp)) parsed fits
  rw [← BranchName.names_joined parsed] at isPlace
  exact lone.list_eq (fun names mem => initial.isPlace names (List.mem_cons_of_mem _ mem))
    (BranchName.parse_joined parsed) (BranchName.whole_joined parsed) isPlace
    (BranchName.names_joined parsed)

/-- **In a repository without refs a branch of any name that is not too long gets a file strictly
below the directory of the branches.  It is the only branch listed then, under its name without
empty parts, and the head finds it when it is checked out, unless its name ends in a blank.  Names
share a file exactly if they are the same but for empty parts.** -/
theorem updateBranch_lone (initial : Stores git [] (fun _ => none) first start)
    (tidy : Tidy git (fun _ => none) start) (ne : git ≠ [])
    (parsed : BranchName.parse name.text = .ok name) (id : ObjectId) :
    ((∃ after, ((atPlace git).updateBranch name id).runOn start = (.ok (), after)) ↔
      Fits git name) ∧
    (∀ after, ((atPlace git).updateBranch name id).runOn start = (.ok (), after) →
      Placed start after (git ++ ["refs", "heads"] ++ name.parts) (branchContent id) ∧
      name.parts ≠ [] ∧ (atPlace git).branches after = .ok [(name.joined, id)] ∧
      ∃ last, ((atPlace git).setHead name).runOn after = (.ok (), last) ∧
        (atPlace git).readHead last = .ok (if name.endsInBlank then none else some id)) ∧
    (name.joined = name ↔ [] ∉ Text.splitAll '/' name.text.toList) ∧
    ∀ other : BranchName, BranchName.parse other.text = .ok other →
      (name.parts = other.parts ↔ name.joined = other.joined) := by
  have placeHead := initial.isPlace [BranchName.headText] (by simp)
  have places : ∀ names ∈ [["packed-refs"], ["refs", "heads"]], IsPlace (git ++ names) :=
    fun names mem => initial.isPlace names (List.mem_cons_of_mem _ mem)
  refine ⟨exists_updateBranch_iff initial tidy parsed id, fun after run => ?_,
    BranchName.joined_eq_self_iff parsed, fun other known => BranchName.parts_inj parsed known⟩
  obtain ⟨placed, fits, lone⟩ := initial.lone_update parsed run
  refine ⟨placed, BranchName.parts_ne_nil parsed, initial.branches_update parsed run, ?_⟩
  have free : after.node? (git ++ [BranchName.headText]) ≠ some .directory := by
    simp [placed.kept _ _ (by simp [BranchName.headText]) initial.headFile]
  obtain ⟨last, attached⟩ := exists_setHead lone.rooted placeHead ne lone.heads free name
  obtain ⟨loneLast, headFile⟩ := lone.attach placeHead attached
  exact ⟨last, attached, loneLast.head_eq places parsed fits rfl placeHead headFile⟩

/-! ## Examples -/

namespace Doubled

/-- A name with two slashes in a row. -/
def doubled : BranchName := ⟨"a//b"⟩

/-- The name with one of the slashes. -/
def single : BranchName := ⟨"a/b"⟩

/-- A name with two slashes in a row and a blank at its end. -/
def spaced : BranchName := ⟨"a//b\u3000"⟩

theorem parse_doubled : BranchName.parse doubled.text = .ok doubled := rfl

theorem parse_spaced : BranchName.parse spaced.text = .ok spaced := rfl

end Doubled

open Merged Doubled

/-- The branch goes by another name, and the head does not find it. -/
theorem updateBranch_lone_spaced : ∃ start after last,
    ((atPlace (gitPlace root)).updateBranch spaced (commit 0xaa)).runOn start = (.ok (), after) ∧
    (atPlace (gitPlace root)).branches after = .ok [(⟨"a/b\u3000"⟩, commit 0xaa)] ∧
    ((atPlace (gitPlace root)).setHead spaced).runOn after = (.ok (), last) ∧
    (atPlace (gitPlace root)).readHead last = .ok none := by
  obtain ⟨start, initial, tidy, -⟩ := exists_new
  obtain ⟨possible, run, -⟩ :=
    updateBranch_lone initial tidy (by decide) parse_spaced (commit 0xaa)
  obtain ⟨after, updated⟩ := possible.2 ⟨by decide, by decide⟩
  obtain ⟨-, -, listed, last, attached, read⟩ := run after updated
  exact ⟨start, after, last, updated, listed, attached, read⟩

/-- Two names of branches share a file, and the branch is listed under the other name. -/
theorem updateBranch_doubled : ∃ start after,
    Stores (gitPlace root) [] (fun _ => none) firstBranch start ∧
    BranchName.parse doubled.text = .ok doubled ∧ BranchName.parse single.text = .ok single ∧
    doubled ≠ single ∧
    ((atPlace (gitPlace root)).updateBranch doubled (commit 0xaa)).runOn start = (.ok (), after) ∧
    ((atPlace (gitPlace root)).updateBranch single (commit 0xaa)).runOn start = (.ok (), after) ∧
    (atPlace (gitPlace root)).branches after ≠ .ok [(doubled, commit 0xaa)] := by
  obtain ⟨start, initial, tidy, -⟩ := exists_new
  have fits : Fits (gitPlace root) doubled := ⟨by decide, by decide⟩
  have placeHeads := initial.isPlace ["refs", "heads"] (by simp)
  obtain ⟨after, run⟩ :=
    (exists_updateBranch_iff initial tidy parse_doubled (commit 0xaa)).2 fits
  refine ⟨start, after, initial, parse_doubled, rfl, by decide, run,
    (updateBranch_joined placeHeads parse_doubled fits _).1 run, fun same => ?_⟩
  have listed := (initial.branches_update parse_doubled run).symm.trans same
  have other : doubled.joined ≠ doubled := by decide
  simp only [Except.ok.injEq, List.cons.injEq, Prod.mk.injEq] at listed
  exact other listed.1.1

end CommitLog.Refs
