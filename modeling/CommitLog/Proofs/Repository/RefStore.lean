import CommitLog.Proofs.Disk.Action
import CommitLog.Proofs.Disk.Writing
import CommitLog.Proofs.Repository.NameParts
import CommitLog.Proofs.Repository.RefWriters

/-!
# What a directory of refs stores

A directory of refs stores packed refs, commits of branches and a head (`Refs.Stores`).  An update
of a branch changes the commit of this branch only, and checking a branch out changes the head only.
Whoever lists the branches finds the commits that are stored, and the head leads to the commit of
its branch.  When the directories below the branches are those on the way to branches (`Refs.Tidy`),
an update fails for a long name only, or where one branch is a directory of another
(`Refs.Stores.exists_update`).

    Stores git lines commits head disk → (atPlace git).readHead disk =
      .ok ((commits head).or (findPacked? lines (branchRef head.text)))
    Stores git lines commits head disk → (atPlace git).branches disk = .ok list →
      ((name, id) ∈ list ↔ (commits name).or (findPacked? lines (branchRef name.text)) = some id)
-/

namespace CommitLog.Refs

open Disk Repository

def atPlace (git : Place) : Refs := ⟨pathOf git⟩

def branchContent (id : ObjectId) : List UInt8 := RefFile.written (RefFile.branchText id)

def headContent (name : BranchName) : List UInt8 := RefFile.written (RefFile.headText name)

/-- What the place of the packed refs holds: no file, or one of lines of packed refs. -/
inductive PackedFile : List (String × ObjectId) → Option Node → Prop
  | absent {node : Option Node} (noFile : ∀ content, node ≠ some (.file content)) :
      PackedFile [] node
  | lines {content : List UInt8} {text : List Char} {refs : List (Option (String × ObjectId))}
      (decoded : Utf8.decode content = .ok text)
      (each : List.Forall₂ PackedLine (Text.lines text) refs) :
      PackedFile (refs.filterMap id) (some (.file content))

/-- The disk holds the packed refs, files for the branches with these commits and for no others, and
a head that names this branch. -/
structure Stores (git : Place) (lines : List (String × ObjectId))
    (commits : BranchName → Option ObjectId) (head : BranchName) (disk : Disk) : Prop where
  rooted : disk.Rooted
  isPlace : ∀ names ∈ [[BranchName.headText], ["packed-refs"], ["refs", "heads"]],
    IsPlace (git ++ names)
  heads : disk.node? (git ++ ["refs", "heads"]) = some .directory
  headFile : disk.node? (git ++ [BranchName.headText]) = some (.file (headContent head))
  packed : PackedFile lines (disk.node? (git ++ ["packed-refs"]))
  files : ∀ name id, commits name = some id → name.IsPlain ∧
    IsPlace (git ++ ["refs", "heads"] ++ name.names) ∧
    disk.node? (git ++ ["refs", "heads"] ++ name.names) = some (.file (branchContent id))
  only : ∀ names content, disk.node? (git ++ ["refs", "heads"] ++ names) = some (.file content) →
    ∃ name id, commits name = some id ∧ names = name.names

/-- The directories below the branches are those on the way to files of branches. -/
def Tidy (git : Place) (commits : BranchName → Option ObjectId) (disk : Disk) : Prop :=
  ∀ names, names ≠ [] → disk.node? (git ++ ["refs", "heads"] ++ names) = some .directory →
    ∃ name id, commits name = some id ∧ names <+: name.names

variable {git : Place} {lines : List (String × ObjectId)} {name head : BranchName}
  {commits : BranchName → Option ObjectId} {disk after : Disk} {path : Path} {target : Place}

/-! ## Writing a ref -/

/-- A ref is written into its directory, which is made first. -/
theorem runOn_writeFile_eq_ok {content : String} :
    (Refs.writeFile path content).runOn disk = (.ok (), after) ↔
      ∃ middle, (path.directory?.elim (middle = disk) fun above =>
          Disk.makeDirectories above disk = (.ok (), middle)) ∧
        middle.writeFile path (RefFile.written (Utf8.ofString content)) = .ok after := by
  have written (middle : Disk) : ((DiskAction.step fun disk =>
      disk.writeFile path (RefFile.written (Utf8.ofString content))).within (.openRef path)).runOn
        middle = (.ok (), after) ↔
      middle.writeFile path (RefFile.written (Utf8.ofString content)) = .ok after := by
    rw [DiskAction.runOn_within, DiskAction.runOn_step]
    cases middle.writeFile path (RefFile.written (Utf8.ofString content)) with
    | error fault => exact iff_of_false nofun nofun
    | ok next => simp [Except.mapError]
  unfold Refs.writeFile
  cases path.directory? with
  | none => simp [written]
  | some above =>
    dsimp only [Option.elim_some]
    rw [DiskAction.runOn_bind, DiskAction.runOn_makeDirectories]
    rcases Disk.makeDirectories above disk with ⟨fault | made, middle⟩
    · simp [Except.mapError]
    · simp [Except.mapError, written]

/-- The text of a ref that has been written is what its place holds. -/
theorem placed_of_runOn (rooted : disk.Rooted) (absolute : path.isAbsolute = true)
    (forward : .parent ∉ path.components) (leads : ∀ here, path.placeFrom here = target)
    {content : String} (run : (Refs.writeFile path content).runOn disk = (.ok (), after)) :
    Placed disk after target (RefFile.written (Utf8.ofString content)) ∧
      (∀ name ∈ target, IsFileName name) ∧ path.text.utf8ByteSize < longestPath := by
  obtain ⟨middle, made, written⟩ := runOn_writeFile_eq_ok.1 run
  have both : disk.AddsDirectories middle ∧ disk.Grows middle (· <+: target) := by
    cases directory : path.directory? with
    | none =>
      rw [directory] at made
      obtain rfl : middle = disk := made
      exact ⟨.refl _, .refl _ _⟩
    | some above =>
      rw [directory] at made
      have result : Disk.makeDirectories above disk = (.ok (), middle) := made
      have adds := addsDirectories_makeDirectories above disk
      have grows := grows_makeDirectories above disk
      rw [result] at adds grows
      refine ⟨adds, grows.mono fun place passes => ?_⟩
      rw [← leads disk.here]
      exact (passes.of_prefix (Path.components_directory? directory)).prefix_placeFrom forward
  obtain ⟨adds, grows⟩ := both
  obtain ⟨placed, rest⟩ := placed_of_writeFile (adds.rooted rooted) absolute leads written
  refine ⟨⟨placed.own, fun place node differ h => ?_, fun place other differ h => ?_,
    fun place h => ?_, placed.rooted⟩, rest⟩
  · exact placed.kept place node differ (adds.kept place node h)
  · exact adds.files place other (placed.files place other differ h)
  · exact (placed.folders place h).elim (grows.fresh place _) .inr

/-- A ref is written where no directory is and no file is on the way. -/
theorem exists_writeFile {last : String} (rooted : disk.Rooted)
    (isPlace : IsPlace (target ++ [last])) (ne : target ≠ [])
    (clear : ∀ front content, front <+: target → disk.node? front ≠ some (.file content))
    (free : disk.node? (target ++ [last]) ≠ some .directory) (content : String) :
    ∃ after, (Refs.writeFile (pathOf (target ++ [last])) content).runOn disk = (.ok (), after) := by
  obtain ⟨middle, made, directory, adds, grows⟩ :=
    exists_makeDirectories rooted isPlace.of_append ne clear
  have still : middle.node? (target ++ [last]) ≠ some .directory := by
    intro h
    rcases grows.fresh _ _ h with old | front
    · exact free old
    · have := front.length_le
      rw [List.length_append, List.length_singleton] at this
      omega
  refine ⟨_, runOn_writeFile_eq_ok.2 ⟨middle, ?_,
    writeFile_pathOf (adds.rooted rooted) isPlace directory still _⟩⟩
  rw [directory?_pathOf isPlace.names]
  exact made

/-! ## The paths of refs -/

theorem headPath_atPlace (isPlace : IsPlace (git ++ [BranchName.headText])) :
    (atPlace git).headPath = pathOf (git ++ [BranchName.headText]) :=
  child_name isPlace.of_append.names (by decide)

/-- A head is written into a directory with one for branches. -/
theorem exists_setHead (rooted : disk.Rooted) (isPlace : IsPlace (git ++ [BranchName.headText]))
    (ne : git ≠ []) (heads : disk.node? (git ++ ["refs", "heads"]) = some .directory)
    (free : disk.node? (git ++ [BranchName.headText]) ≠ some .directory) (name : BranchName) :
    ∃ after, ((atPlace git).setHead name).runOn disk = (.ok (), after) := by
  unfold setHead
  rw [headPath_atPlace isPlace]
  refine exists_writeFile rooted isPlace ne (fun above content h file => ?_) free _
  have directory := rooted.directory_of_prefix (h.trans (List.prefix_append _ _)) heads
  rw [file] at directory
  cases directory

theorem placeFrom_child {text : String} {names : Place}
    (isPlace : IsPlace (git ++ ["refs", "heads"])) (relative : (⟨text⟩ : Path).split.1 = none)
    (components : (⟨text⟩ : Path).components = names.map .normal) (here : Place) :
    ((atPlace git).headsPath.child text).placeFrom here = git ++ ["refs", "heads"] ++ names := by
  rw [Path.placeFrom, Path.child, Path.components_join relative, List.foldl_append, components,
    foldl_lead_normal, show (atPlace git).headsPath = _ from headsPath_pathOf isPlace]
  congr 1
  exact placeFrom_pathOf isPlace.names here

/-- The path of a branch is absolute and leads forward by the parts of its name. -/
theorem leads_child (isPlace : IsPlace (git ++ ["refs", "heads"]))
    (parsed : BranchName.parse name.text = .ok name) :
    ((atPlace git).headsPath.child name.text).isAbsolute = true ∧
      .parent ∉ ((atPlace git).headsPath.child name.text).components ∧
      ∀ here, ((atPlace git).headsPath.child name.text).placeFrom here =
        git ++ ["refs", "heads"] ++ name.parts := by
  have heads : (atPlace git).headsPath = pathOf (git ++ ["refs", "heads"]) :=
    headsPath_pathOf isPlace
  obtain ⟨relative, components⟩ := BranchName.components_of_parse parsed
  refine ⟨?_, ?_, placeFrom_child isPlace relative components⟩
  · have text : (atPlace git).headsPath.child name.text =
        ⟨(atPlace git).headsPath.text ++ "/" ++ name.text⟩ :=
      @Path.join_of_ne_slash _ ⟨name.text⟩ (BranchName.exists_forward parsed).1 's'
        (getLast?_headsPath _) (by decide)
    rw [text, heads]
    exact isAbsolute_of_slash (by rw [String.toList_append, String.toList_append, toList_pathOf,
      List.cons_append, List.cons_append])
  · rw [Path.child, Path.components_join relative, components, heads,
      components_pathOf isPlace.names]
    simp

/-- The path of a branch whose names are not too long is that of its place. -/
theorem path_branch (isPlace : IsPlace (git ++ ["refs", "heads"]))
    (names : ∀ other ∈ git ++ ["refs", "heads"] ++ name.names, IsFileName other) :
    (atPlace git).headsPath.child name.text = pathOf (git ++ ["refs", "heads"] ++ name.names) := by
  rw [show (atPlace git).headsPath = _ from headsPath_pathOf isPlace, ← name.intercalate_names]
  exact child_pathOf isPlace.names (fun other mem => names other (List.mem_append_right _ mem))
    name.names_ne_nil

/-- The place of a branch is none of the places beside the branches. -/
theorem ne_branch {names : Place} (short : names.length < 3) :
    git ++ names ≠ git ++ ["refs", "heads"] ++ name.names := by
  intro same
  have length := congrArg List.length same
  have := List.length_pos_of_ne_nil name.names_ne_nil
  simp only [List.length_append, List.length_cons, List.length_nil] at length
  omega

/-! ## What changes keep -/

theorem PackedFile.placed {content : List UInt8} {place : Place}
    (packed : PackedFile lines (disk.node? place)) (differ : place ≠ target)
    (placed : Placed disk after target content) : PackedFile lines (after.node? place) := by
  generalize own : disk.node? place = node at packed
  cases packed with
  | absent noFile =>
    refine .absent fun content file => noFile content ?_
    rw [← own, placed.files _ _ differ file]
  | lines decoded each =>
    rw [placed.kept _ _ differ own]
    exact .lines decoded each

theorem Stores.placed_update {id : ObjectId} (stores : Stores git lines commits head disk)
    (plain : name.IsPlain)
    (run : ((atPlace git).updateBranch name id).runOn disk = (.ok (), after)) :
    Placed disk after (git ++ ["refs", "heads"] ++ name.names) (branchContent id) ∧
      IsPlace (git ++ ["refs", "heads"] ++ name.names) := by
  have placeHeads := stores.isPlace ["refs", "heads"] (by simp)
  obtain ⟨absolute, forward, leads⟩ := leads_child placeHeads plain.parsed
  obtain ⟨placed, names, short⟩ := placed_of_runOn stores.rooted absolute forward leads run
  rw [BranchName.parts_eq_names_iff.2 plain.whole] at placed names
  rw [path_branch placeHeads names] at short
  exact ⟨placed, names, short⟩

theorem placed_setHead (rooted : disk.Rooted) (isPlace : IsPlace (git ++ [BranchName.headText]))
    (run : ((atPlace git).setHead name).runOn disk = (.ok (), after)) :
    Placed disk after (git ++ [BranchName.headText]) (headContent name) := by
  have path := headPath_atPlace isPlace
  obtain ⟨absolute, forward, leads⟩ := leads_pathOf isPlace.names
  rw [← path] at absolute forward leads
  exact (placed_of_runOn rooted absolute forward leads run).1

theorem Stores.placed_attach (stores : Stores git lines commits head disk)
    (run : ((atPlace git).setHead name).runOn disk = (.ok (), after)) :
    Placed disk after (git ++ [BranchName.headText]) (headContent name) :=
  placed_setHead stores.rooted (stores.isPlace [BranchName.headText] (by simp)) run

/-- A branch that is updated has its file, and everything else stays. -/
theorem Stores.update {id : ObjectId} (stores : Stores git lines commits head disk)
    (plain : name.IsPlain)
    (run : ((atPlace git).updateBranch name id).runOn disk = (.ok (), after)) :
    Stores git lines (fun other => if name = other then some id else commits other) head after := by
  obtain ⟨placed, isPlace⟩ := stores.placed_update plain run
  refine ⟨placed.rooted, stores.isPlace, ?heads, ?head, ?packed, fun other i h => ?files,
    fun place content h => ?only⟩
  case heads => exact placed.kept _ _ (ne_branch (by simp)) stores.heads
  case head => exact placed.kept _ _ (ne_branch (by simp)) stores.headFile
  case packed => exact stores.packed.placed (ne_branch (by simp)) placed
  case files =>
    by_cases same : name = other
    · subst same
      rw [if_pos rfl] at h
      cases h
      exact ⟨plain, isPlace, placed.own⟩
    · rw [if_neg same] at h
      obtain ⟨plain, isPlace, file⟩ := stores.files other i h
      refine ⟨plain, isPlace, placed.kept _ _ (fun equal => same ?_) file⟩
      exact (BranchName.names_inj.1 (List.append_cancel_left equal)).symm
  case only =>
    by_cases same : place = name.names
    · exact ⟨name, id, if_pos rfl, same⟩
    · have differ : git ++ ["refs", "heads"] ++ place ≠ git ++ ["refs", "heads"] ++ name.names :=
        fun equal => same (List.append_cancel_left equal)
      obtain ⟨own, i, h, rfl⟩ := stores.only place content (placed.files _ _ differ h)
      exact ⟨own, i, by rwa [if_neg fun equal => same (by rw [equal])], rfl⟩

/-- A file that is written beside the refs changes nothing below them. -/
theorem Stores.beside {text : String} {content : List UInt8} {lines' : List (String × ObjectId)}
    {head' : BranchName} (stores : Stores git lines commits head disk)
    (placed : Placed disk after (git ++ [text]) content) (other : text ≠ "refs")
    (headFile : after.node? (git ++ [BranchName.headText]) = some (.file (headContent head')))
    (packed : PackedFile lines' (after.node? (git ++ ["packed-refs"]))) :
    Stores git lines' commits head' after := by
  have apart (names : Place) : git ++ ["refs", "heads"] ++ names ≠ git ++ [text] := by
    simp [Ne.symm other]
  refine ⟨placed.rooted, stores.isPlace, ?heads, headFile, packed, fun name id h => ?files,
    fun names content h => ?only⟩
  case heads =>
    have differ := apart []
    rw [List.append_nil] at differ
    exact placed.kept _ _ differ stores.heads
  case files =>
    obtain ⟨plain, isPlace, file⟩ := stores.files name id h
    exact ⟨plain, isPlace, placed.kept _ _ (apart _) file⟩
  case only => exact stores.only names content (placed.files _ _ (apart _) h)

/-- A head that is attached names its branch, and everything else stays. -/
theorem Stores.attach (stores : Stores git lines commits head disk)
    (run : ((atPlace git).setHead name).runOn disk = (.ok (), after)) :
    Stores git lines commits name after := by
  have placed := stores.placed_attach run
  exact stores.beside placed (by decide) placed.own
    (stores.packed.placed (by simp [BranchName.headText]) placed)

theorem Stores.placed_pack {content : List UInt8} (stores : Stores git lines commits head disk)
    (run : disk.writeFile (pathOf (git ++ ["packed-refs"])) content = .ok after) :
    Placed disk after (git ++ ["packed-refs"]) content := by
  obtain ⟨absolute, -, leads⟩ := leads_pathOf (stores.isPlace ["packed-refs"] (by simp)).names
  exact (placed_of_writeFile stores.rooted absolute leads run).1

/-- Refs that are packed are stored, and everything else stays. -/
theorem Stores.pack {content : List UInt8} {text : List Char}
    {refs : List (Option (String × ObjectId))} (stores : Stores git lines commits head disk)
    (decoded : Utf8.decode content = .ok text)
    (each : List.Forall₂ PackedLine (Text.lines text) refs)
    (run : disk.writeFile (pathOf (git ++ ["packed-refs"])) content = .ok after) :
    Stores git (refs.filterMap id) commits head after := by
  have placed := stores.placed_pack run
  refine stores.beside placed (by decide) ?_ (placed.own ▸ .lines decoded each)
  exact placed.kept _ _ (by simp [BranchName.headText]) stores.headFile

/-! ## Directories on the way to branches -/

theorem Tidy.update {id : ObjectId} {content : List UInt8} (tidy : Tidy git commits disk)
    (placed : Placed disk after (git ++ ["refs", "heads"] ++ name.names) content) :
    Tidy git (fun other => if name = other then some id else commits other) after := by
  intro names ne directory
  rcases placed.folders _ directory with old | front
  · obtain ⟨other, i, known, below⟩ := tidy names ne old
    by_cases same : name = other
    · exact ⟨other, id, if_pos same, below⟩
    · exact ⟨other, i, (if_neg same).trans known, below⟩
  · exact ⟨name, id, if_pos rfl, (List.prefix_append_right_inj _).1 front⟩

theorem Tidy.beside {text : String} {content : List UInt8} (tidy : Tidy git commits disk)
    (placed : Placed disk after (git ++ [text]) content) (other : text ≠ "refs") :
    Tidy git commits after := by
  intro names ne directory
  rcases placed.folders _ directory with old | front
  · exact tidy names ne old
  · rw [List.append_assoc, List.prefix_append_right_inj, List.cons_append,
      List.cons_prefix_cons] at front
    exact absurd front.1.symm other

/-- A branch can be updated when its name and those of the others are not directories of one
another. -/
theorem Stores.exists_update (stores : Stores git lines commits head disk)
    (tidy : Tidy git commits disk) (isPlace : IsPlace (git ++ ["refs", "heads"] ++ name.names))
    (apart : ∀ other id, commits other = some id →
      other.names <+: name.names ∨ name.names <+: other.names → other = name) (id : ObjectId) :
    ∃ after, ((atPlace git).updateBranch name id).runOn disk = (.ok (), after) := by
  have path := path_branch (stores.isPlace ["refs", "heads"] (by simp)) isPlace.names
  obtain ⟨front, last, whole⟩ := (List.eq_nil_or_concat' name.names).resolve_left name.names_ne_nil
  have split : git ++ ["refs", "heads"] ++ name.names =
      git ++ ["refs", "heads"] ++ front ++ [last] := by rw [whole, ← List.append_assoc]
  unfold updateBranch
  rw [path, split]
  refine exists_writeFile stores.rooted (split ▸ isPlace) (by simp)
    (fun above content h file => ?clear) (fun directory => ?free) _
  case free =>
    rw [← split] at directory
    obtain ⟨other, i, known, below⟩ := tidy _ name.names_ne_nil directory
    obtain rfl := apart other i known (.inr below)
    obtain ⟨-, -, file⟩ := stores.files other i known
    rw [directory] at file
    cases file
  case clear =>
    obtain ⟨behind, hwhole⟩ := h
    rcases List.append_eq_append_iff.1 hwhole with ⟨more, hheads, -⟩ | ⟨names, rfl, below⟩
    · have directory := stores.rooted.directory_of_prefix ⟨more, hheads.symm⟩ stores.heads
      rw [file] at directory
      cases directory
    · -- the file is that of a branch, which is a directory of the updated one
      obtain ⟨other, i, known, rfl⟩ := stores.only names content file
      rw [below] at whole
      obtain rfl := apart other i known (.inl ⟨behind ++ [last], by rw [whole, List.append_assoc]⟩)
      have := congrArg List.length whole
      simp only [List.length_append, List.length_singleton] at this
      omega

/-- A branch can be checked out. -/
theorem Stores.exists_attach (stores : Stores git lines commits head disk) (ne : git ≠ [])
    (name : BranchName) : ∃ after, ((atPlace git).setHead name).runOn disk = (.ok (), after) := by
  refine exists_setHead stores.rooted (stores.isPlace _ (by simp)) ne stores.heads ?_ name
  rw [stores.headFile]
  exact nofun

/-! ## What is read -/

theorem PackedFile.packed_eq (rooted : disk.Rooted) (isPlace : IsPlace (git ++ ["packed-refs"]))
    (known : PackedFile lines (disk.node? (git ++ ["packed-refs"]))) :
    (atPlace git).packed disk = .ok lines := by
  have path : (atPlace git).directory.child "packed-refs" = pathOf (git ++ ["packed-refs"]) :=
    child_name isPlace.of_append.names (by decide)
  unfold Refs.packed
  rw [path]
  generalize own : disk.node? (git ++ ["packed-refs"]) = node at known
  cases known with
  | absent noFile =>
    refine if_neg ?_
    rw [isFile_pathOf rooted isPlace (by simp), own]
    rintro ⟨content, file⟩
    exact noFile content file
  | lines decoded each =>
    rw [if_pos ((isFile_pathOf rooted isPlace (by simp)).2 ⟨_, own⟩),
      readText_pathOf rooted isPlace (by simp) own decoded]
    exact parsePacked_eq each

theorem Stores.packed_eq (stores : Stores git lines commits head disk) :
    (atPlace git).packed disk = .ok lines :=
  stores.packed.packed_eq stores.rooted (stores.isPlace _ (by simp))

/-- The files below the directory of the branches. -/
theorem mem_filesBelow_heads (rooted : disk.Rooted) (isPlace : IsPlace (git ++ ["refs", "heads"]))
    (heads : disk.node? (git ++ ["refs", "heads"]) = some .directory) {place : Place} :
    place ∈ disk.filesBelow (atPlace git).headsPath ↔
      ∃ content, disk.node? (git ++ ["refs", "heads"] ++ place) = some (.file content) := by
  have found : disk.find (atPlace git).headsPath = .ok (git ++ ["refs", "heads"], .directory) := by
    rw [show (atPlace git).headsPath = _ from headsPath_pathOf isPlace]
    exact find_of_node? rooted isPlace (by simp) heads
  rw [mem_filesBelow found, node?, if_neg (by simp)]

/-- The files below the directory of the branches are those of the branches. -/
theorem Stores.of_mem_filesBelow (stores : Stores git lines commits head disk) {place : Place}
    (mem : place ∈ disk.filesBelow (atPlace git).headsPath) :
    ∃ name id, commits name = some id ∧ place = name.names := by
  obtain ⟨content, own⟩ := (mem_filesBelow_heads stores.rooted
    (stores.isPlace ["refs", "heads"] (by simp)) stores.heads).1 mem
  exact stores.only place content own

/-- The file of a branch holds the commit of the branch. -/
theorem Stores.readFile_branch (stores : Stores git lines commits head disk)
    (plain : name.IsPlain) : readFile disk ((atPlace git).headsPath.child name.text) =
      .ok ((commits name).map .object) := by
  have placeHeads := stores.isPlace ["refs", "heads"] (by simp)
  cases own : commits name with
  | some id =>
    obtain ⟨-, isPlace, file⟩ := stores.files name id own
    rw [path_branch placeHeads isPlace.names,
      readFile_ref stores.rooted isPlace (by simp) file (RefFile.decode_written id.text)]
    exact RefTarget.parse_object id
  | none =>
    have noFile : ¬ disk.isFile ((atPlace git).headsPath.child name.text) = true := by
      intro isFile
      obtain ⟨place, mem, same⟩ := exists_below_of_isFile (getLast?_headsPath _) (by decide)
        (fun part => plain.ofSegment?) isFile
      obtain ⟨other, id, known, rfl⟩ := stores.of_mem_filesBelow mem
      rw [BranchName.eq_of_intercalate same, own] at known
      cases known
    exact if_neg noFile

theorem Stores.looseBranch_eq (stores : Stores git lines commits head disk)
    (plain : name.IsPlain) : (atPlace git).looseBranch disk name.text = .ok (commits name) := by
  refine bind_eq_ok.2 ⟨_, stores.readFile_branch plain, ?_⟩
  cases commits name <;> rfl

/-- A head names its branch, but for blanks at the end of the name. -/
theorem readFile_headPath (rooted : disk.Rooted) (isPlace : IsPlace (git ++ [BranchName.headText]))
    (parsed : BranchName.parse head.text = .ok head)
    (headFile : disk.node? (git ++ [BranchName.headText]) = some (.file (headContent head))) :
    readFile disk (atPlace git).headPath =
      .ok (some (.symbolic (branchRef head.asRead.text))) := by
  rw [headPath_atPlace isPlace,
    readFile_ref rooted isPlace (by simp) headFile (RefFile.decode_written _),
    String.toList_append, String.toList_ofList]
  exact RefTarget.parse_branch (BranchName.noLineFeed parsed)

/-- The head leads to the commit of its branch, or else to the packed one. -/
theorem Stores.readHead_eq_commit (stores : Stores git lines commits head disk)
    (plain : head.IsPlain) : (atPlace git).readHead disk =
      .ok ((commits head).or (findPacked? lines (branchRef head.text))) := by
  have isPlace := stores.isPlace [BranchName.headText] (by simp)
  have content : readFile disk (atPlace git).headPath =
      .ok (some (.symbolic (branchRef head.text))) := by
    rw [readFile_headPath stores.rooted isPlace plain.parsed stores.headFile, plain.asRead_eq]
  have branch : readFile disk ((atPlace git).directory.child (branchRef head.text)) =
      .ok ((commits head).map .object) := by
    rw [child_branchRef _ plain.relative]
    exact stores.readFile_branch plain
  refine bind_eq_ok.2 ⟨_, content, bind_eq_ok.2 ⟨_, branch, ?_⟩⟩
  cases commits head with
  | some id => rfl
  | none => exact bind_eq_ok.2 ⟨lines, stores.packed_eq, rfl⟩

/-- The branches are listed with the commits of their files, or else with the packed ones. -/
theorem Stores.exists_list (stores : Stores git lines commits head disk)
    (packedPlain : ∀ ref ∈ lines, ∀ name : BranchName, ref.1 = branchRef name.text → name.IsPlain) :
    ∃ list, (atPlace git).branches disk = .ok list ∧
      (list.Pairwise fun a b => compare a.1.text b.1.text = .lt) ∧
      ∀ name id, (name, id) ∈ list ↔
        (commits name).or (findPacked? lines (branchRef name.text)) = some id := by
  have packedNames {name : BranchName} {id : ObjectId}
      (found : findPacked? lines (branchRef name.text) = some id) : name.IsPlain :=
    packedPlain _ (mem_of_findPacked? found) name rfl
  have named : Named (packedBranches lines) := by
    rintro ⟨text, id⟩ mem
    have found := ((packedBranches_spec lines).2 text id).1 mem
    exact ⟨⟨text⟩, (@packedNames ⟨text⟩ id found).parsed⟩
  obtain ⟨list, listed⟩ := exists_branches stores.packed_eq named fun place mem => by
    obtain ⟨name, id, known, rfl⟩ := stores.of_mem_filesBelow mem
    obtain ⟨plain, -⟩ := stores.files name id known
    rw [name.intercalate_names]
    exact ⟨name.names_ne_nil, ⟨_, stores.looseBranch_eq plain⟩, name, plain.parsed⟩
  refine ⟨list, listed, ascending_branches listed, fun name id => ?_⟩
  have members (plain : name.IsPlain) : (name, id) ∈ list ↔
      (commits name).or (findPacked? lines (branchRef name.text)) = some id := by
    obtain ⟨_, _, packed, loose, members⟩ := mem_branches plain.parsed plain.whole listed
    obtain rfl := Except.ok.inj (packed.symm.trans stores.packed_eq)
    obtain rfl := Except.ok.inj (loose.symm.trans (stores.looseBranch_eq plain))
    exact members id
  constructor
  · intro mem
    refine (members ?_).1 mem
    rcases name_of_mem_branches stores.packed_eq listed mem with ⟨i, found⟩ | ⟨place, hplace, same⟩
    · exact packedNames found
    · obtain ⟨other, i, known, rfl⟩ := stores.of_mem_filesBelow hplace
      rw [← BranchName.eq_of_intercalate same]
      exact (stores.files other i known).1
  · intro known
    refine (members ?_).2 known
    cases own : commits name with
    | some i => exact (stores.files name i own).1
    | none =>
      rw [own, Option.none_or] at known
      exact packedNames known

end CommitLog.Refs
