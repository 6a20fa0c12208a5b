import CommitLog.Proofs.Compression.Stored
import CommitLog.Proofs.Disk.Action
import CommitLog.Proofs.Disk.Growth
import CommitLog.Proofs.Object.Framing
import CommitLog.Proofs.Repository.Places

/-!
# What a store keeps

Objects written to a store that held none are read back from then on, whatever else is written.
The invariant of the writes (`ObjectStore.Holds`) is that the files of the store are those of the
objects written so far.

    store.Vacant start → store.Writes start written disk →
      ∀ entry ∈ written, store.ReadsBack disk entry.1 entry.2
-/

namespace CommitLog

/-! ## The names of an object -/

namespace ObjectId

variable {id other : ObjectId}

def folderName (id : ObjectId) : String := String.ofList (id.digits.take 2)

def ownName (id : ObjectId) : String := String.ofList (id.digits.drop 2)

theorem names_inj (folder : id.folderName = other.folderName) (own : id.ownName = other.ownName) :
    id = other := by
  rw [folderName, folderName, String.ofList_inj] at folder
  rw [ownName, ownName, String.ofList_inj] at own
  rw [← digits_inj, ← List.take_append_drop 2 id.digits, folder, own, List.take_append_drop]

/-- Some of the digits of an id are a name that a file can have, of one byte for each digit. -/
theorem isFileName_digits {segment : List Char} (part : segment ⊆ id.digits) (ne : segment ≠ [])
    (short : segment.length ≤ Disk.longestName) : Disk.IsFileName (String.ofList segment) ∧
      (String.ofList segment).utf8ByteSize = segment.length := by
  have hex : ∀ c ∈ segment, ∃ n < 16, c = Text.hexChar n := fun c mem => Text.mem_hex (part mem)
  have other (c : Char) (differ : ∀ n < 16, c ≠ Text.hexChar n) : c ∉ segment := fun mem => by
    obtain ⟨n, hn, same⟩ := hex c mem
    exact differ n hn same
  have dot := other '.' (by decide)
  have component : Component.ofSegment? segment = some (.normal (String.ofList segment)) := by
    unfold Component.ofSegment?
    rw [if_neg, if_neg]
    · rintro rfl
      exact dot List.mem_cons_self
    · rintro (rfl | rfl)
      · exact ne rfl
      · exact dot List.mem_cons_self
  have size := Text.utf8ByteSize_hex hex
  refine ⟨⟨(Path.isName_of_ofSegment? (other '/' (by decide)) component).2, ?_, ?_⟩, size⟩
  · rw [String.toList_ofList]
    exact other '\x00' (by decide)
  · rwa [size]

theorem isFileName_folderName (id : ObjectId) :
    Disk.IsFileName id.folderName ∧ id.folderName.utf8ByteSize = 2 := by
  have length : (id.digits.take 2).length = 2 := by
    rw [List.length_take, length_digits]
    rfl
  have name := isFileName_digits (List.take_subset 2 id.digits)
    (List.ne_nil_of_length_eq_add_one length) (by rw [length]; decide)
  rwa [length] at name

theorem isFileName_ownName (id : ObjectId) :
    Disk.IsFileName id.ownName ∧ id.ownName.utf8ByteSize = 38 := by
  have length : (id.digits.drop 2).length = 38 := by rw [List.length_drop, length_digits]
  have name := isFileName_digits (List.drop_subset 2 id.digits)
    (List.ne_nil_of_length_eq_add_one length) (by rw [length]; decide)
  rwa [length] at name

theorem components_fileName (id : ObjectId) : (⟨id.fileName⟩ : Path).split.1 = none ∧
    (⟨id.fileName⟩ : Path).components = [.normal id.folderName, .normal id.ownName] := by
  obtain ⟨folder, noSlash⟩ := id.isFileName_folderName.1.ofSegment?
  obtain ⟨own, noSlash'⟩ := id.isFileName_ownName.1.ofSegment?
  have text : (⟨id.fileName⟩ : Path).text.toList =
      id.folderName.toList ++ '/' :: id.ownName.toList := by
    simp [fileName, folderName, ownName]
  have parts : Text.splitAll '/' (⟨id.fileName⟩ : Path).text.toList =
      [id.folderName.toList, id.ownName.toList] := by
    rw [text, Text.splitAll_append, Text.splitAll_of_not_mem noSlash,
      Text.splitAll_of_not_mem noSlash']
    rfl
  have relative : (⟨id.fileName⟩ : Path).split.1 = none := by
    rw [Path.split_of_head parts (by rw [folder]; exact Option.some_ne_none _)]
  refine ⟨relative, ?_⟩
  rw [Path.components_of_split_none relative, parts, List.filterMap_cons_some folder,
    List.filterMap_cons_some own]
  rfl

end ObjectId

namespace ObjectStore

variable {store : ObjectStore} {here : Place} {disk middle after start : Disk} {object : RawObject}
  {id other : ObjectId}

/-! ## The place of an object -/

/-- The place of an object in a store, seen from a directory. -/
def placeOf (store : ObjectStore) (here : Place) (id : ObjectId) : Place :=
  store.directory.placeFrom here ++ [id.folderName, id.ownName]

theorem placeOf_inj : store.placeOf here id = store.placeOf here other ↔ id = other := by
  refine ⟨fun same => ?_, fun same => same ▸ rfl⟩
  obtain ⟨folder, own⟩ := List.cons.inj (List.append_cancel_left same)
  exact ObjectId.names_inj folder (List.cons.inj own).1

theorem components_pathOf (store : ObjectStore) (id : ObjectId) : (store.pathOf id).components =
    store.directory.components ++ [.normal id.folderName, .normal id.ownName] := by
  obtain ⟨relative, components⟩ := id.components_fileName
  rw [pathOf, Path.child, Path.components_join relative, components]

theorem placeFrom_pathOf (store : ObjectStore) (here : Place) (id : ObjectId) :
    (store.pathOf id).placeFrom here = store.placeOf here id := by
  rw [Path.placeFrom, components_pathOf, List.foldl_append, placeOf, Path.placeFrom]
  simp [Component.lead]

/-- On the way to the directory of an object lies what is on the way to the store, and it. -/
theorem passes_directoryOf {place : Place} (h : (store.directoryOf id).Passes here place) :
    store.directory.Passes here place ∨
      place = store.directory.placeFrom here ++ [id.folderName] := by
  obtain ⟨front, ne, hfront, rfl⟩ := h
  have components : (store.directoryOf id).components =
      store.directory.components ++ [.normal id.folderName] :=
    Path.components_child id.isFileName_folderName.1.1
  rw [components, List.prefix_concat_iff] at hfront
  rcases hfront with rfl | hfront
  · refine .inr ?_
    rw [List.foldl_append]
    rfl
  · exact .inl ⟨front, ne, hfront, rfl⟩

/-- A file that is found is at the place of its object. -/
theorem find_pathOf {found : Place × Disk.Node} (h : disk.find (store.pathOf id) = .ok found) :
    disk.node? (store.placeOf disk.here id) = some found.2 := by
  have last : (store.pathOf id).components.getLast? = some (.normal id.ownName) := by
    rw [components_pathOf, List.getLast?_append]
    rfl
  rw [← placeFrom_pathOf, ← Disk.place_of_find h]
  exact Disk.node?_of_find h last

/-! ## Reading -/

/-- The file of an object, where its path leads to it. -/
def HasFile (store : ObjectStore) (disk : Disk) (object : RawObject) : Prop :=
  disk.find (store.pathOf object.id) =
    .ok (store.placeOf disk.here object.id, .file (Compression.compress object.serialize))

theorem HasFile.read (file : store.HasFile disk object)
    (fits : object.body.length < 2 * Text.bound63) : store.read disk object.id = .ok object := by
  have content : disk.readFile (store.pathOf object.id) =
      .ok (Compression.compress object.serialize) := bind_eq_ok.mpr ⟨_, file, rfl⟩
  refine bind_eq_ok.mpr ⟨_, mapError_eq_ok.mpr content, ?_⟩
  rw [Compression.decompress?_compress]
  exact Repository.openContent_of_header (parseHeader_serialize fits)

theorem HasFile.grows {mayBe : Place → Prop} (file : store.HasFile disk object)
    (grows : disk.Grows after mayBe) : store.HasFile after object := by
  rw [HasFile, grows.here]
  exact grows.find file

/-! ## Writing -/

theorem runOn_write (store : ObjectStore) (object : RawObject) (disk : Disk) :
    (store.write object).runOn disk =
      if disk.isPresent (store.pathOf object.id) then (.ok object.id, disk)
      else match Disk.makeDirectories (store.directoryOf object.id) disk with
        | (.error fault, middle) =>
          (.error (.objectDirectory (store.directoryOf object.id) (.disk fault)), middle)
        | (.ok (), middle) =>
          match middle.writeFile (store.pathOf object.id)
              (Compression.compress object.serialize) with
          | .error fault => (.error (.placeObject (store.pathOf object.id) (.disk fault)), middle)
          | .ok after => (.ok object.id, after) := by
  unfold write
  dsimp only
  generalize object.id = id
  generalize Compression.compress object.serialize = content
  rw [DiskAction.runOn_bind, DiskAction.runOn_get]
  dsimp only
  cases disk.isPresent (store.pathOf id) with
  | true => rfl
  | false =>
    simp only [Bool.not_false, if_true, Bool.false_eq_true, if_false, DiskAction.runOn_bind,
      DiskAction.runOn_within, DiskAction.runOn_makeDirectories, DiskAction.runOn_step,
      DiskAction.runOn_pure]
    rcases Disk.makeDirectories (store.directoryOf id) disk with ⟨fault | made, middle⟩
    · rfl
    · dsimp only [Except.mapError]
      cases middle.writeFile (store.pathOf id) content <;> rfl

/-- An object is there and nothing changes, or its directory is made and its file written. -/
theorem write_eq_ok : (store.write object).runOn disk = (.ok id, after) ↔ id = object.id ∧
    (disk.isPresent (store.pathOf object.id) = true ∧ after = disk ∨
      disk.isPresent (store.pathOf object.id) = false ∧ ∃ middle,
        Disk.makeDirectories (store.directoryOf object.id) disk = (.ok (), middle) ∧
        middle.writeFile (store.pathOf object.id) (Compression.compress object.serialize) =
          .ok after) := by
  rw [runOn_write]
  cases disk.isPresent (store.pathOf object.id) with
  | true => simp [eq_comm]
  | false =>
    rcases Disk.makeDirectories (store.directoryOf object.id) disk with ⟨fault | made, middle⟩
    · simp
    · cases written : middle.writeFile (store.pathOf object.id)
        (Compression.compress object.serialize) <;> simp [written, eq_comm]

theorem HasFile.isPresent (file : store.HasFile disk object) :
    disk.isPresent (store.pathOf object.id) = true := Disk.isPresent_iff.mpr ⟨_, file⟩

/-! ## Sequences of writes -/

/-- No object has its place taken, neither by something there nor by the way to the store. -/
structure Vacant (store : ObjectStore) (disk : Disk) : Prop where
  empty : ∀ id, disk.node? (store.placeOf disk.here id) = none
  outside : ∀ id, ¬ store.directory.Passes disk.here (store.placeOf disk.here id)

/-- A path without two dots leads to the store, not through the places of its objects. -/
theorem Vacant.of_forward (forward : .parent ∉ store.directory.components)
    (empty : ∀ id, disk.node? (store.placeOf disk.here id) = none) : store.Vacant disk := by
  refine ⟨empty, fun id passes => ?_⟩
  have short := (passes.prefix_placeFrom forward).length_le
  rw [placeOf, List.length_append, List.length_cons] at short
  omega

/-- Objects written one after the other, the last one first, and the ids that the writes gave. -/
inductive Writes (store : ObjectStore) (start : Disk) : List (RawObject × ObjectId) → Disk → Prop
  | none : Writes store start [] start
  | next {written : List (RawObject × ObjectId)} {disk after : Disk} {object : RawObject}
      {id : ObjectId} (before : Writes store start written disk)
      (run : (store.write object).runOn disk = (.ok id, after)) :
      Writes store start ((object, id) :: written) after

/-- What stands between writes: objects that were written have their files, and what is at the place
of an object is the file of one of them. -/
structure Holds (store : ObjectStore) (here : Place) (written : List (RawObject × ObjectId))
    (disk : Disk) : Prop where
  seen : disk.here = here
  files : ∀ entry ∈ written, entry.2 = entry.1.id ∧ store.HasFile disk entry.1
  only : ∀ id node, disk.node? (store.placeOf here id) = some node →
    ∃ entry ∈ written, entry.1.id = id

variable {written : List (RawObject × ObjectId)}

section Step

variable (outside : ∀ id, ¬ store.directory.Passes here (store.placeOf here id))

include outside

/-- Directories are made beside the objects. -/
theorem not_passes_directoryOf :
    ¬ (store.directoryOf id).Passes here (store.placeOf here other) := fun passes => by
  rcases passes_directoryOf passes with passes | same
  · exact outside other passes
  · have := congrArg List.length same
    simp [placeOf] at this

theorem grows_makeDirectories (seen : disk.here = here)
    (made : Disk.makeDirectories (store.directoryOf id) disk = (.ok (), middle)) :
    disk.Grows middle fun place => ∀ other, place ≠ store.placeOf here other := by
  have grows := Disk.grows_makeDirectories (store.directoryOf id) disk
  rw [made, seen] at grows
  refine grows.mono fun place passes other same => ?_
  exact not_passes_directoryOf outside (same ▸ passes)

end Step

section Holds

variable (holds : store.Holds here written disk)

include holds

/-- What is at the place of an object is its own file. -/
theorem Holds.hasFile (distinct : ∀ entry ∈ written, entry.1.id = object.id → entry.1 = object)
    {node : Disk.Node} (own : disk.node? (store.placeOf here object.id) = some node) :
    store.HasFile disk object := by
  obtain ⟨entry, mem, same⟩ := holds.only _ _ own
  exact distinct entry mem same ▸ (holds.files entry mem).2

/-- A file is added where no file was. -/
theorem Holds.cons (file : store.HasFile after object)
    (grows : disk.Grows after fun place =>
      ∀ other, place = store.placeOf here other → other = object.id) :
    store.Holds here ((object, object.id) :: written) after where
  seen := grows.here.trans holds.seen
  files := by
    refine List.forall_mem_cons.mpr ⟨⟨rfl, file⟩, fun entry mem => ?_⟩
    obtain ⟨same, file⟩ := holds.files entry mem
    exact ⟨same, file.grows grows⟩
  only id node own := by
    rcases grows.fresh _ node own with own | same
    · obtain ⟨entry, mem, same⟩ := holds.only id node own
      exact ⟨entry, List.mem_cons_of_mem _ mem, same⟩
    · exact ⟨_, List.mem_cons_self, (same id rfl).symm⟩

/-- A write adds its object to those that the store holds. -/
theorem Holds.write (outside : ∀ id, ¬ store.directory.Passes here (store.placeOf here id))
    (distinct : ∀ entry ∈ written, entry.1.id = object.id → entry.1 = object)
    (run : (store.write object).runOn disk = (.ok id, after)) :
    store.Holds here ((object, id) :: written) after := by
  obtain ⟨rfl, ⟨present, rfl⟩ | ⟨absent, middle, made, placed⟩⟩ := write_eq_ok.mp run
  · obtain ⟨found, hfound⟩ := Disk.isPresent_iff.mp present
    exact holds.cons (holds.hasFile distinct (holds.seen ▸ find_pathOf hfound)) (.refl _ _)
  · have beside := grows_makeDirectories outside holds.seen made
    have seen : middle.here = here := beside.here.trans holds.seen
    have vacant : middle.node? ((store.pathOf object.id).placeFrom middle.here) = none := by
      rw [placeFrom_pathOf, seen, Option.eq_none_iff_forall_ne_some]
      intro node own
      rcases beside.fresh _ node own with own | differ
      · rw [(holds.hasFile distinct own).isPresent] at absent
        cases absent
      · exact differ _ rfl
    obtain ⟨grown, found⟩ := Disk.writeFile_eq_ok placed vacant
    rw [placeFrom_pathOf, seen] at grown found
    have file : store.HasFile after object := by
      rw [HasFile, grown.here, seen]
      exact found
    refine holds.cons file ((beside.mono fun place differ other same => ?_).trans
      (grown.mono fun place same other same' => ?_))
    · exact absurd same (differ other)
    · exact placeOf_inj.mp (same'.symm.trans same)

end Holds

/-- Different objects have different ids. -/
def Unlike (written : List (RawObject × ObjectId)) : Prop :=
  ∀ a ∈ written, ∀ b ∈ written, a.1.id = b.1.id → a.1 = b.1

theorem Writes.holds (writes : store.Writes start written disk) (vacant : store.Vacant start)
    (unlike : Unlike written) : store.Holds start.here written disk := by
  induction writes with
  | none =>
    refine ⟨rfl, nofun, fun id node own => ?_⟩
    rw [vacant.empty id] at own
    cases own
  | @next written disk after object id before run ih =>
    have front : store.Holds start.here written disk := ih fun a ha b hb =>
      unlike a (List.mem_cons_of_mem _ ha) b (List.mem_cons_of_mem _ hb)
    have distinct : ∀ entry ∈ written, entry.1.id = object.id → entry.1 = object := fun entry mem =>
      unlike entry (List.mem_cons_of_mem _ mem) (object, id) List.mem_cons_self
    exact front.write vacant.outside distinct run

/-! ## Reading back -/

/-- An object is read as what it is, and as nothing else, and writing it again changes nothing. -/
structure ReadsBack (store : ObjectStore) (disk : Disk) (object : RawObject) (id : ObjectId) :
    Prop where
  /-- The id is that of the object. -/
  id_eq : id = object.id
  /-- A commit that is read from its own body comes back. -/
  commit : ∀ commit : Commit, object = commit.toRaw → Commit.parse commit.content = .ok commit →
    store.readCommit disk id = .ok commit
  /-- A tree that is read from its own body comes back. -/
  tree : ∀ tree : Tree, object = tree.toRaw → Tree.parse tree.content = .ok tree →
    store.readTree disk id = .ok tree
  /-- What is no commit is not read as one. -/
  notCommit : object.kind ≠ .commit →
    store.readCommit disk id = .error (.otherKind id object.kind .commit)
  /-- What is no tree is not read as one. -/
  notTree : object.kind ≠ .tree →
    store.readTree disk id = .error (.otherKind id object.kind .tree)
  /-- The object is not written again. -/
  again : (store.write object).runOn disk = (.ok id, disk)

theorem HasFile.readsBack (file : store.HasFile disk object)
    (fits : object.body.length < 2 * Text.bound63) : store.ReadsBack disk object object.id where
  id_eq := rfl
  commit commit same parsed := by
    subst same
    exact Repository.readCommit_of_read (file.read fits) rfl parsed
  tree tree same parsed := by
    subst same
    exact Repository.readTree_of_read (file.read fits) rfl parsed
  notCommit := Repository.readCommit_of_ne (file.read fits)
  notTree := Repository.readTree_of_ne (file.read fits)
  again := write_eq_ok.mpr ⟨rfl, .inl ⟨file.isPresent, rfl⟩⟩

/-- **Whatever was written to a store without objects is read back from then on**, in any order of
writes, when different objects have different ids and their lengths fit 64 bits. -/
theorem Writes.forall_readsBack (vacant : store.Vacant start)
    (writes : store.Writes start written disk) (unlike : Unlike written)
    (fit : ∀ entry ∈ written, entry.1.body.length < 2 * Text.bound63) :
    ∀ entry ∈ written, store.ReadsBack disk entry.1 entry.2 := by
  intro entry mem
  obtain ⟨same, file⟩ := (writes.holds vacant unlike).files entry mem
  rw [same]
  exact file.readsBack (fit entry mem)

/-! ## Writes that succeed -/

abbrev atPlace (base : Place) : ObjectStore := ⟨Disk.pathOf base⟩

/-- A directory with nothing but directories in it. -/
structure Ready (base : Place) (disk : Disk) : Prop where
  rooted : disk.Rooted
  directory : disk.node? base = some .directory
  folders : ∀ name node, disk.node? (base ++ [name]) = some node → node = .directory

section Ready

open Disk

variable {base : Place} {name own : String}

theorem Ready.put_folder (ready : Ready base disk) (absent : disk.node? (base ++ [name]) = none) :
    Ready base (disk.put (base ++ [name]) .directory) where
  rooted := ready.rooted.put ready.directory (by rw [absent]; exact nofun)
  directory := (Grows.put (by simp) absent .directory).kept _ _ ready.directory
  folders other node h := by
    rw [node?_put (by simp)] at h
    split at h
    · exact (Option.some.inj h).symm
    · exact ready.folders other node h

theorem Ready.put_file (ready : Ready base disk)
    (folder : disk.node? (base ++ [name]) = some .directory)
    (absent : disk.node? (base ++ [name] ++ [own]) = none) (content : List UInt8) :
    Ready base (disk.put (base ++ [name] ++ [own]) (.file content)) where
  rooted := ready.rooted.put folder (by rw [absent]; exact nofun)
  directory := (Grows.put (by simp) absent (.file content)).kept _ _ ready.directory
  folders other node h := by
    rw [node?_put (by simp), if_neg (by simp)] at h
    exact ready.folders other node h

/-- A directory is there or can be made. -/
theorem Ready.exists_folder (ready : Ready base disk) (isPlace : IsPlace (base ++ [name])) :
    ∃ after, makeDirectories (Disk.pathOf (base ++ [name])) disk = (.ok (), after) ∧
      Ready base after ∧ after.node? (base ++ [name]) = some .directory ∧
      ∀ own, disk.node? (base ++ [name] ++ [own]) = none →
        after.node? (base ++ [name] ++ [own]) = none := by
  cases folder : disk.node? (base ++ [name]) with
  | none =>
    refine ⟨_, makeDirectories_of_absent ready.rooted isPlace ready.directory folder,
      ready.put_folder folder, ?_, fun own absent => ?_⟩
    · rw [node?_put (by simp), if_pos rfl]
    · rw [node?_put (by simp), if_neg (by simp), absent]
  | some node =>
    obtain rfl := ready.folders _ node folder
    exact ⟨disk, makeDirectories_of_present ready.rooted isPlace ready.directory folder, ready,
      folder, fun _ absent => absent⟩

/-- Objects have places when the path of the store leaves room for their names. -/
theorem isPlace_names (isPlace : IsPlace base) (ne : base ≠ [])
    (short : (Disk.pathOf base).text.utf8ByteSize + 42 < longestPath) (id : ObjectId) :
    IsPlace (base ++ [id.folderName, id.ownName]) := by
  obtain ⟨folder, folderSize⟩ := id.isFileName_folderName
  obtain ⟨own, ownSize⟩ := id.isFileName_ownName
  refine ⟨fun name mem => ?_, ?_⟩
  · rcases List.mem_append.mp mem with mem | mem
    · exact isPlace.names name mem
    · simp only [List.mem_cons, List.not_mem_nil, or_false] at mem
      rcases mem with rfl | rfl
      · exact folder
      · exact own
  · rw [text_pathOf_append ne (List.cons_ne_nil _ _), String.intercalate_cons_cons,
      String.intercalate_singleton]
    simp only [String.utf8ByteSize_append, folderSize, ownSize]
    exact short

/-- Every object can be written. -/
theorem Ready.exists_write (ready : Ready base disk)
    (isPlace : IsPlace (base ++ [object.id.folderName, object.id.ownName])) :
    ∃ after, ((atPlace base).write object).runOn disk = (.ok object.id, after) ∧
      Ready base after := by
  have path : (atPlace base).pathOf object.id =
      Disk.pathOf (base ++ [object.id.folderName] ++ [object.id.ownName]) := by
    rw [List.append_assoc]
    exact Repository.pathOf_store isPlace
  rw [List.append_cons] at isPlace
  have folderPath : (atPlace base).directoryOf object.id =
      Disk.pathOf (base ++ [object.id.folderName]) :=
    child_name isPlace.of_append.of_append.names
      (isPlace.of_append.names object.id.folderName (by simp))
  by_cases present : disk.isPresent ((atPlace base).pathOf object.id) = true
  · exact ⟨disk, write_eq_ok.mpr ⟨rfl, .inl ⟨present, rfl⟩⟩, ready⟩
  have absent : disk.node? (base ++ [object.id.folderName] ++ [object.id.ownName]) = none := by
    rw [Option.eq_none_iff_forall_ne_some]
    intro node own
    rw [path] at present
    exact present (isPresent_iff.mpr ⟨_, find_of_node? ready.rooted isPlace (by simp) own⟩)
  obtain ⟨middle, made, ready, folder, still⟩ := ready.exists_folder isPlace.of_append
  have written := writeFile_pathOf ready.rooted isPlace folder (by rw [still _ absent]; exact nofun)
    (Compression.compress object.serialize)
  rw [← folderPath] at made
  rw [← path] at written
  exact ⟨_, write_eq_ok.mpr ⟨rfl, .inr ⟨Bool.eq_false_iff.mpr present, middle, made, written⟩⟩,
    ready.put_file folder (still _ absent) _⟩

/-- So can any number of them, one after the other. -/
theorem Ready.exists_writes (ready : Ready base start)
    (isPlace : ∀ id : ObjectId, IsPlace (base ++ [id.folderName, id.ownName]))
    (objects : List RawObject) : ∃ disk, Ready base disk ∧ (atPlace base).Writes start
      (objects.map fun object => (object, object.id)) disk := by
  induction objects with
  | nil => exact ⟨start, ready, .none⟩
  | cons object objects ih =>
    obtain ⟨disk, ready, before⟩ := ih
    obtain ⟨after, run, ready⟩ := ready.exists_write (isPlace object.id)
    exact ⟨after, ready, .next before run⟩

end Ready

/-! ## Objects of every kind -/

namespace Sample

def note : RawObject := ⟨.blob, Utf8.ofString "Notes\n"⟩

def initial : Commit := .byAuthor [] .zero ⟨"Ada", "a@b", 5, 3600⟩ "Start\n"

def folder : Tree := ⟨[("notes", ⟨.regular, .zero⟩)]⟩

/-- A directory for objects, and nothing else. -/
def bare : Disk := .ofNodes [(["objects"], .directory)]

theorem node?_bare {place : Place} (ne : place ≠ []) :
    bare.node? place = if place = ["objects"] then some .directory else none := by
  unfold bare
  rw [Disk.node?_ofNodes (by simp) ne]
  by_cases same : place = ["objects"]
  · simp [same]
  · simp [same, Ne.symm same]

theorem ready_bare : Ready ["objects"] bare where
  rooted := Disk.rooted_ofNodes (by decide) (by decide) (by decide)
  directory := by rw [node?_bare (by simp), if_pos rfl]
  folders name node h := by
    rw [node?_bare (by simp), if_neg (by simp)] at h
    cases h

theorem vacant_bare : (atPlace ["objects"]).Vacant bare := by
  have isPlace : Disk.IsPlace ["objects"] := by decide
  refine .of_forward (by decide) fun id => ?_
  rw [placeOf, Disk.placeFrom_pathOf isPlace.names, node?_bare (by simp), if_neg (by simp)]

def kinds : List RawObject := [initial.toRaw, note, folder.toRaw]

theorem unlike_kinds {objects : List RawObject} (sub : objects ⊆ kinds) :
    Unlike (objects.map fun object => (object, object.id)) := by
  -- the first bytes of the ids tell them apart
  have heads : kinds.map (fun object => object.id.bytes.head?) =
      [some 117, some 227, some 189] := by decide +kernel
  have distinct : (kinds.map RawObject.id).Nodup := by
    refine .of_map (fun id => id.bytes.head?) ?_
    rw [List.map_map]
    exact heads ▸ by decide
  simp only [Unlike, List.forall_mem_map]
  exact fun a ha b hb same => List.inj_on_of_nodup_map distinct (sub ha) (sub hb) same

/-- Objects of every kind, and what is read after the commit was written again. -/
theorem forall_readsBack_kinds : ∃ disk,
    (atPlace ["objects"]).Writes bare
      ((initial.toRaw :: kinds).map fun object => (object, object.id)) disk ∧
      (atPlace ["objects"]).readCommit disk initial.toRaw.id = .ok initial ∧
      (atPlace ["objects"]).readTree disk folder.toRaw.id = .ok folder ∧
      (atPlace ["objects"]).readTree disk note.id = .error (.otherKind note.id .blob .tree) ∧
      ((atPlace ["objects"]).write note).runOn disk = (.ok note.id, disk) := by
  obtain ⟨disk, -, writes⟩ := ready_bare.exists_writes
    (isPlace_names (by decide) (by decide) (by decide)) (initial.toRaw :: kinds)
  have unlike : Unlike ((initial.toRaw :: kinds).map fun object => (object, object.id)) :=
    unlike_kinds (List.cons_subset_of_subset_of_mem List.mem_cons_self (List.Subset.refl _))
  have fit : ∀ entry ∈ (initial.toRaw :: kinds).map fun object => (object, object.id),
      entry.1.body.length < 2 * Text.bound63 := by
    simp only [List.forall_mem_map]
    decide +kernel
  have back := Writes.forall_readsBack vacant_bare writes unlike fit
  simp only [List.forall_mem_map] at back
  have commit : Commit.parse initial.content = .ok initial :=
    toOption_eq_some.mp (by decide +kernel)
  have tree : Tree.parse folder.content = .ok folder := toOption_eq_some.mp (by decide +kernel)
  have first : initial.toRaw ∈ initial.toRaw :: kinds := List.mem_cons_self
  have second : note ∈ initial.toRaw :: kinds := List.mem_cons_of_mem _ (List.mem_cons_of_mem _
    List.mem_cons_self)
  have third : folder.toRaw ∈ initial.toRaw :: kinds := List.mem_cons_of_mem _
    (List.mem_cons_of_mem _ (List.mem_cons_of_mem _ List.mem_cons_self))
  exact ⟨disk, writes, (back _ first).commit initial rfl commit,
    (back _ third).tree folder rfl tree, (back _ second).notTree (by decide), (back _ second).again⟩

end Sample

end ObjectStore

end CommitLog
