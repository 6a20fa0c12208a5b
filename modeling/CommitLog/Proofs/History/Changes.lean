import CommitLog.History.Changes
import CommitLog.Proofs.Filter.Structure
import CommitLog.Proofs.History.Walk
import CommitLog.Proofs.Steps

/-!
# Changed files

`FileAt` reads a tree as a table of files, each under its names.  The changes between two trees that
can be read as a whole are the files under whose names the two tables differ, as far as a selection
wants them.  No tree of this kind is below itself, so the number of ids bounds the number of levels.

    reader.Whole trees → ∃ paths, reader.changes old new selection = .ok paths ∧
      paths are those of the names with reader.Differs old new names and selection.Wants names
-/

namespace CommitLog

namespace ObjectReader

/-! ## Trees as tables of files -/

/-- The file of some names below a tree; no id stands for the empty tree. -/
inductive FileAt (reader : ObjectReader) : Option ObjectId → List String → TreeEntry → Prop
  | leaf {id : Option ObjectId} {tree : Tree} {name : String} {entry : TreeEntry} :
      reader.treeOf id = .ok tree → tree.get? name = some entry → entry.isTree = false →
      FileAt reader id [name] entry
  | inside {id : Option ObjectId} {tree : Tree} {name : String} {entry file : TreeEntry}
      {rest : List String} :
      reader.treeOf id = .ok tree → tree.get? name = some entry → entry.isTree = true →
      FileAt reader (some entry.id) rest file → FileAt reader id (name :: rest) file

/-- Two trees do not have the same under some names. -/
def Differs (reader : ObjectReader) (old new : Option ObjectId) (names : List String) : Prop :=
  ¬ ∀ file, reader.FileAt old names file ↔ reader.FileAt new names file

/-- The tree that a commit is compared with: that of its first parent, or the empty one. -/
def OldTree (reader : ObjectReader) (commit : Commit) (old : Option ObjectId) : Prop :=
  match commit.parents.head? with
  | none => old = none
  | some id => ∃ parent, reader.commit id = .ok parent ∧ old = some parent.tree

/-- A tree that can be read with all trees below it, and has names that stand for themselves. -/
inductive Whole (reader : ObjectReader) : ObjectId → Prop
  | intro {id : ObjectId} {tree : Tree} : reader.tree id = .ok tree →
      (∀ name entry, tree.get? name = some entry → Path.IsName name) →
      (∀ name entry, tree.get? name = some entry → entry.isTree = true → Whole reader entry.id) →
      Whole reader id

/-- A whole tree of at most so many levels. -/
def FitsIn (reader : ObjectReader) : Nat → ObjectId → Prop
  | 0, _ => False
  | levels + 1, id => ∃ tree, reader.tree id = .ok tree ∧
      ∀ name entry, tree.get? name = some entry →
        Path.IsName name ∧ (entry.isTree = true → FitsIn reader levels entry.id)

variable {reader : ObjectReader}

/-! ## Whole trees have finitely many levels -/

/-- A tree and one right below it. -/
def IsSubtree (reader : ObjectReader) (above below : ObjectId) : Prop :=
  ∃ tree name entry, reader.tree above = .ok tree ∧ tree.get? name = some entry ∧
    entry.isTree = true ∧ entry.id = below

theorem Whole.not_below_itself {id : ObjectId} (whole : reader.Whole id) :
    ¬ Relation.TransGen reader.IsSubtree id id := by
  induction whole with
  | @intro id tree read _ _ ih =>
    intro cycle
    obtain ⟨child, ⟨tree', name, entry, read', found, isTree, rfl⟩, rest⟩ :=
      Relation.TransGen.head'_iff.1 cycle
    obtain rfl := Except.ok.inj (read.symm.trans read')
    refine ih name entry found isTree ?_
    exact Relation.TransGen.tail' rest ⟨tree, name, entry, read, found, isTree, rfl⟩

/-- With every level the trees above it become one more, and all of them differ. -/
theorem Whole.fitsIn_of_above {id : ObjectId} (whole : reader.Whole id) (above : List ObjectId)
    (distinct : (id :: above).Nodup)
    (leads : ∀ a ∈ above, Relation.TransGen reader.IsSubtree a id) :
    reader.FitsIn (ObjectId.count - above.length) id := by
  induction whole generalizing above with
  | @intro id tree read names children ih =>
    have whole : reader.Whole id := .intro read names children
    have bounded := ObjectId.length_le_count distinct
    rw [List.length_cons] at bounded
    obtain ⟨levels, hlevels⟩ : ∃ levels, ObjectId.count - above.length = levels + 1 :=
      ⟨ObjectId.count - above.length - 1, by omega⟩
    rw [hlevels]
    refine ⟨tree, read, fun name entry found => ⟨names name entry found, fun isTree => ?_⟩⟩
    have link : reader.IsSubtree id entry.id := ⟨tree, name, entry, read, found, isTree, rfl⟩
    have fresh : entry.id ∉ id :: above := by
      intro mem
      rcases List.mem_cons.1 mem with same | mem
      · exact whole.not_below_itself (.single (same ▸ link))
      · exact whole.not_below_itself ((leads _ mem).head link)
    have next := ih name entry found isTree (id :: above) (List.nodup_cons.2 ⟨fresh, distinct⟩)
      fun a ha => by
        rcases List.mem_cons.1 ha with rfl | ha
        · exact .single link
        · exact (leads a ha).tail link
    have : ObjectId.count - (id :: above).length = levels := by
      rw [List.length_cons]
      omega
    rwa [this] at next

theorem Whole.fitsIn {id : ObjectId} (whole : reader.Whole id) :
    reader.FitsIn ObjectId.count id := by
  simpa using whole.fitsIn_of_above [] (by simp) (by simp)

theorem FitsIn.succ {levels : Nat} {id : ObjectId} (h : reader.FitsIn levels id) :
    reader.FitsIn (levels + 1) id := by
  induction levels generalizing id with
  | zero => exact h.elim
  | succ levels ih =>
    obtain ⟨tree, read, entries⟩ := h
    refine ⟨tree, read, fun name entry found => ?_⟩
    exact (entries name entry found).imp_right fun fits isTree => ih (fits isTree)

/-! ## Files level by level -/

theorem not_fileAt_nil {id : Option ObjectId} {file : TreeEntry} :
    ¬ reader.FileAt id [] file := by
  rintro ⟨⟩

theorem not_fileAt_none {names : List String} {file : TreeEntry} :
    ¬ reader.FileAt none names file := by
  intro h
  cases h with
  | leaf read found _ | inside read found _ _ =>
    obtain rfl := Except.ok.inj read
    cases found

theorem fileAt_cons {id : Option ObjectId} {tree : Tree} (read : reader.treeOf id = .ok tree)
    {name : String} {rest : List String} {file : TreeEntry} :
    reader.FileAt id (name :: rest) file ↔
      (rest = [] ∧ TreeEntry.file? (tree.get? name) = some file) ∨
        reader.FileAt (TreeEntry.directory? (tree.get? name)) rest file := by
  constructor
  · intro h
    cases h with
    | leaf read' found isFile =>
      obtain rfl := Except.ok.inj (read.symm.trans read')
      exact .inl ⟨rfl, by simp [TreeEntry.file?, found, isFile]⟩
    | @inside _ _ _ entry _ _ read' found isTree below =>
      obtain rfl := Except.ok.inj (read.symm.trans read')
      have : TreeEntry.directory? (tree.get? name) = some entry.id := by
        simp [TreeEntry.directory?, found, isTree]
      exact .inr (this ▸ below)
  · rintro (⟨rfl, h⟩ | h)
    · obtain ⟨found, isFile⟩ := Option.filter_eq_some_iff.1 h
      exact .leaf read found (by simpa using isFile)
    · cases hdir : TreeEntry.directory? (tree.get? name) with
      | none => exact absurd (hdir ▸ h) not_fileAt_none
      | some below =>
        obtain ⟨entry, hentry, rfl⟩ := Option.map_eq_some_iff.1 hdir
        obtain ⟨found, isTree⟩ := Option.filter_eq_some_iff.1 hentry
        exact .inside read found isTree (hdir ▸ h)

theorem differs_cons {old new : Option ObjectId} {oldTree newTree : Tree}
    (readOld : reader.treeOf old = .ok oldTree) (readNew : reader.treeOf new = .ok newTree)
    {name : String} {rest : List String} :
    reader.Differs old new (name :: rest) ↔
      (rest = [] ∧ TreeEntry.file? (oldTree.get? name) ≠ TreeEntry.file? (newTree.get? name)) ∨
        reader.Differs (TreeEntry.directory? (oldTree.get? name))
          (TreeEntry.directory? (newTree.get? name)) rest := by
  simp only [Differs, fileAt_cons readOld, fileAt_cons readNew]
  cases rest with
  | nil =>
    simp only [not_fileAt_nil, true_and, or_false, iff_self, implies_true, not_true_eq_false]
    exact not_congr Option.ext_iff.symm
  | cons next rest => simp only [reduceCtorEq, false_and, false_or]

theorem not_differs_nil {old new : Option ObjectId} : ¬ reader.Differs old new [] := fun h =>
  h fun _ => iff_of_false not_fileAt_nil not_fileAt_nil

theorem not_differs_self {id : Option ObjectId} {names : List String} :
    ¬ reader.Differs id id names := fun h => h fun _ => Iff.rfl

/-! ## Changes level by level -/

theorem mem_names_insertEntry {name other : String} {entry : TreeEntry}
    {entries : List (String × TreeEntry)} :
    other ∈ (Tree.insertEntry name entry entries).map (·.1) ↔
      other = name ∨ other ∈ entries.map (·.1) := by
  induction entries with
  | nil => simp [Tree.insertEntry]
  | cons first rest ih =>
    obtain ⟨n, e⟩ := first
    unfold Tree.insertEntry
    split
    · simp
    · next same =>
      obtain rfl : name = n := Std.LawfulEqCmp.eq_of_compare same
      simp
    · rw [List.map_cons, List.mem_cons, ih, List.map_cons, List.mem_cons]
      exact or_left_comm

theorem isSome_get?_iff {tree : Tree} {name : String} :
    (tree.get? name).isSome = true ↔ name ∈ tree.entries.map (·.1) := by
  simp [Tree.get?, List.lookup_isSome_iff]

/-- The names that are compared are those of either tree that the selection allows. -/
theorem mem_namesIn {selection : PathSelection} {old new : Tree} {name : String} :
    name ∈ selection.namesIn old new ↔ selection.allows name = true ∧
      ((old.get? name).isSome = true ∨ (new.get? name).isSome = true) := by
  have run : ∀ (entries found : List (String × TreeEntry)),
      name ∈ (entries.foldl (fun names entry => Tree.insertEntry entry.1 entry.2 names)
        found).map (·.1) ↔ name ∈ found.map (·.1) ∨ name ∈ entries.map (·.1) := by
    intro entries
    induction entries with
    | nil => simp
    | cons entry rest ih =>
      intro found
      rw [List.foldl_cons, ih, mem_names_insertEntry, List.map_cons, List.mem_cons]
      tauto
  have namesIn_eq : selection.namesIn old new =
      (((old.entries ++ new.entries).filter fun entry => selection.allows entry.1).foldl
        (fun names entry => Tree.insertEntry entry.1 entry.2 names) []).map (·.1) := rfl
  rw [namesIn_eq, run, isSome_get?_iff, isSome_get?_iff]
  simp only [List.mem_map, List.mem_filter, List.mem_append, List.map_nil, List.not_mem_nil,
    false_or]
  constructor
  · rintro ⟨entry, ⟨h, allowed⟩, rfl⟩
    exact ⟨allowed, h.imp (fun h => ⟨entry, h, rfl⟩) fun h => ⟨entry, h, rfl⟩⟩
  · rintro ⟨allowed, ⟨entry, h, rfl⟩ | ⟨entry, h, rfl⟩⟩
    · exact ⟨entry, ⟨.inl h, allowed⟩, rfl⟩
    · exact ⟨entry, ⟨.inr h, allowed⟩, rfl⟩

def pathBelow (level : Path) (names : List String) : Path := names.foldl Path.child level

def ChangesAre (reader : ObjectReader) (old new : Option ObjectId) (selection : PathSelection)
    (paths : List Path) : Prop :=
  ∀ path, path ∈ paths ↔ ∃ names, reader.Differs old new names ∧ selection.Wants names ∧
    path = pathBelow selection.level names

theorem treeOf_of_fitsIn {levels : Nat} {id : Option ObjectId}
    (fits : ∀ i ∈ id, reader.FitsIn (levels + 1) i) : ∃ tree, reader.treeOf id = .ok tree ∧
      ∀ name, ∀ i ∈ TreeEntry.directory? (tree.get? name), reader.FitsIn levels i := by
  cases id with
  | none => exact ⟨.empty, rfl, fun name i hi => by cases hi⟩
  | some id =>
    obtain ⟨tree, read, entries⟩ := fits id rfl
    refine ⟨tree, read, fun name i hi => ?_⟩
    obtain ⟨entry, hentry, rfl⟩ := Option.map_eq_some_iff.1 hi
    obtain ⟨found, isTree⟩ := Option.filter_eq_some_iff.1 hentry
    exact (entries name entry found).2 isTree

def ChangesUnder (reader : ObjectReader) (old new : Option ObjectId) (selection : PathSelection)
    (name : String) (paths : List Path) : Prop :=
  ∀ path, path ∈ paths ↔ ∃ rest, reader.Differs old new (name :: rest) ∧
    selection.Wants (name :: rest) ∧ path = pathBelow selection.level (name :: rest)

/-- The changes are those under the names that are compared. -/
theorem changesAre_of_under {old new : Option ObjectId} {oldTree newTree : Tree}
    {selection : PathSelection} (readOld : reader.treeOf old = .ok oldTree)
    (readNew : reader.treeOf new = .ok newTree) {f : String → Except Fault (List Path)}
    (each : ∀ name ∈ selection.namesIn oldTree newTree,
      ∃ paths, f name = .ok paths ∧ reader.ChangesUnder old new selection name paths) :
    ∃ paths, ((selection.namesIn oldTree newTree).mapM f >>= fun changes =>
        return changes.flatten) = .ok paths ∧ reader.ChangesAre old new selection paths := by
  obtain ⟨changes, run, under⟩ := exists_mapM _ each
  refine ⟨changes.flatten, bind_eq_ok.2 ⟨changes, run, rfl⟩, fun path => ?_⟩
  rw [List.mem_flatten]
  constructor
  · rintro ⟨paths, hpaths, hpath⟩
    obtain ⟨name, -, hunder⟩ := exists_of_mem_right under hpaths
    obtain ⟨rest, h⟩ := (hunder path).1 hpath
    exact ⟨name :: rest, h⟩
  · rintro ⟨names, differs, wants, rfl⟩
    cases names with
    | nil => exact absurd differs not_differs_nil
    | cons name rest =>
      have known : (oldTree.get? name).isSome = true ∨ (newTree.get? name).isSome = true := by
        by_contra absent
        rw [not_or, Option.not_isSome_iff_eq_none, Option.not_isSome_iff_eq_none] at absent
        rw [differs_cons readOld readNew, absent.1, absent.2] at differs
        exact differs.elim (fun h => h.2 rfl) not_differs_self
      have mem := mem_namesIn.2 ⟨PathSelection.allows_of_wants wants, known⟩
      obtain ⟨paths, hpaths, hunder⟩ := exists_of_mem_left under mem
      exact ⟨paths, hpaths, (hunder _).2 ⟨rest, differs, wants, rfl⟩⟩

theorem changesBelow_spec (levels : Nat) (old new : Option ObjectId) (selection : PathSelection)
    (fitsOld : ∀ id ∈ old, reader.FitsIn levels id)
    (fitsNew : ∀ id ∈ new, reader.FitsIn levels id) :
    ∃ paths, reader.changesBelow levels old new selection = .ok paths ∧
      reader.ChangesAre old new selection paths := by
  induction levels generalizing old new selection with
  | zero =>
    have hold : old = none := Option.eq_none_iff_forall_not_mem.2 fitsOld
    have hnew : new = none := Option.eq_none_iff_forall_not_mem.2 fitsNew
    subst hold hnew
    exact ⟨[], rfl, fun path => by simp [not_differs_self]⟩
  | succ levels ih =>
    by_cases same : old = new
    · subst same
      refine ⟨[], by simp [changesBelow], fun path => by simp [not_differs_self]⟩
    obtain ⟨oldTree, readOld, fitsOld⟩ := treeOf_of_fitsIn fitsOld
    obtain ⟨newTree, readNew, fitsNew⟩ := treeOf_of_fitsIn fitsNew
    rw [changesBelow, if_neg same, readOld, readNew]
    refine changesAre_of_under readOld readNew fun name _ => ?_
    by_cases sameEntry : oldTree.get? name = newTree.get? name
    · refine ⟨[], by simp [sameEntry]; rfl, fun path => ?_⟩
      simp [differs_cons readOld readNew, sameEntry, not_differs_self]
    obtain ⟨below, run, spec⟩ := ih (TreeEntry.directory? (oldTree.get? name))
      (TreeEntry.directory? (newTree.get? name)) (selection.below name) (fitsOld name) (fitsNew name)
    simp only [if_neg sameEntry, run]
    refine ⟨_, rfl, fun path => ?_⟩
    -- below the name, and at the name itself
    have split : (∃ rest, reader.Differs old new (name :: rest) ∧
        selection.Wants (name :: rest) ∧ path = pathBelow selection.level (name :: rest)) ↔
        path ∈ below ∨ (TreeEntry.file? (oldTree.get? name) ≠ TreeEntry.file? (newTree.get? name) ∧
          (selection.below name).isMatching = true ∧ path = (selection.below name).level) := by
      rw [spec]
      simp only [differs_cons readOld readNew, PathSelection.isMatching_iff,
        PathSelection.wants_below]
      constructor
      · rintro ⟨rest, ⟨rfl, changed⟩ | differs, wants, rfl⟩
        · exact .inr ⟨changed, wants, rfl⟩
        · exact .inl ⟨rest, differs, wants, rfl⟩
      · rintro (⟨rest, differs, wants, rfl⟩ | ⟨changed, wants, rfl⟩)
        · exact ⟨rest, .inr differs, wants, rfl⟩
        · exact ⟨[], .inl ⟨rfl, changed⟩, wants, rfl⟩
    rw [split]
    split
    · next h =>
      obtain ⟨changed, matching⟩ := Bool.and_eq_true_iff.1 h
      have changed := of_decide_eq_true changed
      simp [changed, matching]
    · next h =>
      refine (or_iff_left fun ⟨changed, matching, _⟩ => h ?_).symm
      simp [changed, matching]

/-! ## Changes of whole trees -/

theorem isName_of_fileAt {levels : Nat} {id : Option ObjectId}
    (fits : ∀ i ∈ id, reader.FitsIn levels i) {names : List String} {file : TreeEntry}
    (h : reader.FileAt id names file) : ∀ name ∈ names, Path.IsName name := by
  induction h generalizing levels with
  | @leaf id tree name entry read found _ =>
    cases id with
    | none => exact absurd (.leaf read found ‹_›) not_fileAt_none
    | some id =>
      cases levels with
      | zero => exact (fits id rfl).elim
      | succ levels =>
        obtain ⟨tree', read', entries⟩ := fits id rfl
        obtain rfl := Except.ok.inj (read.symm.trans read')
        intro n hn
        rw [List.mem_singleton.1 hn]
        exact (entries name entry found).1
  | @inside id tree name entry file rest read found isTree below ih =>
    cases id with
    | none => exact absurd (.inside read found isTree below) not_fileAt_none
    | some id =>
      cases levels with
      | zero => exact (fits id rfl).elim
      | succ levels =>
        obtain ⟨tree', read', entries⟩ := fits id rfl
        obtain rfl := Except.ok.inj (read.symm.trans read')
        obtain ⟨isName, fitsBelow⟩ := entries name entry found
        intro n hn
        rcases List.mem_cons.1 hn with rfl | hn
        · exact isName
        · exact ih (fun i hi => Option.some.inj hi ▸ fitsBelow isTree) n hn

theorem components_pathBelow {level : Path} {names : List String}
    (h : ∀ name ∈ names, Path.IsName name) :
    (pathBelow level names).components = level.components ++ names.map .normal := by
  induction names generalizing level with
  | nil => simp [pathBelow]
  | cons name rest ih =>
    have := @ih (level.child name) fun n hn => h n (List.mem_cons_of_mem _ hn)
    rw [Path.components_child (h name List.mem_cons_self), List.append_assoc] at this
    exact this

theorem isName_of_differs {levels : Nat} {old new : Option ObjectId}
    (fitsOld : ∀ i ∈ old, reader.FitsIn levels i) (fitsNew : ∀ i ∈ new, reader.FitsIn levels i)
    {names : List String} (differs : reader.Differs old new names) :
    ∀ name ∈ names, Path.IsName name := by
  obtain ⟨file, hfile⟩ := not_forall.1 differs
  rcases Classical.em (reader.FileAt old names file) with h | h
  · exact isName_of_fileAt fitsOld h
  · rcases Classical.em (reader.FileAt new names file) with h' | h'
    · exact isName_of_fileAt fitsNew h'
    · exact absurd (iff_of_false h h') hfile

/-- What a list of changed files has to be: the differing files that the selection wants. -/
def IsChangeList (reader : ObjectReader) (old new : Option ObjectId) (selection : PathSelection)
    (paths : List Path) : Prop :=
  ∀ components, (∃ path ∈ paths, path.components = components) ↔
    ∃ names, (reader.Differs old new names ∧ selection.Wants names) ∧
      components = names.map .normal

/-- The changes between whole trees that a selection wants, wherever it starts. -/
theorem changes_spec_below {old new : Option ObjectId} (selection : PathSelection)
    (wholeOld : ∀ id ∈ old, reader.Whole id) (wholeNew : ∀ id ∈ new, reader.Whole id) :
    ∃ paths, reader.changes old new selection = .ok paths ∧
      (paths.Pairwise fun a b => a.order b = .lt) ∧
      (∀ names, reader.Differs old new names → ∀ name ∈ names, Path.IsName name) ∧
      ∀ components, (∃ path ∈ paths, path.components = components) ↔
        ∃ names, (reader.Differs old new names ∧ selection.Wants names) ∧
          components = selection.level.components ++ names.map .normal := by
  have fitsOld : ∀ id ∈ old, reader.FitsIn ObjectId.count id := fun id h => (wholeOld id h).fitsIn
  have fitsNew : ∀ id ∈ new, reader.FitsIn ObjectId.count id := fun id h => (wholeNew id h).fitsIn
  have isPath (names : List String) (differs : reader.Differs old new names) :
      (pathBelow selection.level names).components =
        selection.level.components ++ names.map .normal :=
    components_pathBelow (isName_of_differs fitsOld fitsNew differs)
  obtain ⟨paths, run, spec⟩ := changesBelow_spec (ObjectId.count + 1) old new selection
    (fun id h => (fitsOld id h).succ) fun id h => (fitsNew id h).succ
  refine ⟨_, bind_eq_ok.2 ⟨paths, run, rfl⟩, pairwise_foldl_insertPath .nil,
    fun names differs => isName_of_differs fitsOld fitsNew differs, fun components => ?_⟩
  rw [exists_mem_foldl_insertPath (P := (· = components))]
  constructor
  · rintro (⟨_, h, -⟩ | ⟨path, mem, rfl⟩)
    · cases h
    · obtain ⟨names, differs, wants, rfl⟩ := (spec path).1 mem
      exact ⟨names, ⟨differs, wants⟩, isPath names differs⟩
  · rintro ⟨names, ⟨differs, wants⟩, rfl⟩
    exact .inr ⟨_, (spec _).2 ⟨names, differs, wants, rfl⟩, isPath names differs⟩

/-- The changes between whole trees that a selection wants. -/
theorem changes_spec {old new : Option ObjectId} {selection : PathSelection}
    (start : selection.level = ⟨""⟩) (wholeOld : ∀ id ∈ old, reader.Whole id)
    (wholeNew : ∀ id ∈ new, reader.Whole id) :
    ∃ paths, reader.changes old new selection = .ok paths ∧
      reader.IsChangeList old new selection paths := by
  obtain ⟨paths, run, -, -, spec⟩ := changes_spec_below selection wholeOld wholeNew
  rw [start] at spec
  exact ⟨paths, run, spec⟩

/-- The changes of a commit are those between its old tree and its tree. -/
theorem changesOf_eq_ok {commit : Commit} {selection : PathSelection} {paths : List Path} :
    reader.changesOf commit selection = .ok paths ↔ ∃ old, reader.OldTree commit old ∧
      reader.changes old (some commit.tree) selection = .ok paths := by
  unfold changesOf OldTree
  cases commit.parents.head? with
  | none =>
    show reader.changes none (some commit.tree) selection = .ok paths ↔ _
    simp only [exists_eq_left]
  | some id =>
    simp only [Option.mapM_some]
    constructor
    · intro run
      obtain ⟨_, first, run⟩ := bind_eq_ok.1 run
      obtain ⟨parent, read, rfl⟩ := map_eq_ok.1 first
      exact ⟨_, ⟨parent, read, rfl⟩, run⟩
    · rintro ⟨_, ⟨parent, read, rfl⟩, run⟩
      rw [read]
      exact run

/-- The changes of a commit whose tree and old tree are whole. -/
theorem changesOf_spec {commit : Commit} {old : Option ObjectId} {selection : PathSelection}
    (start : selection.level = ⟨""⟩) (hold : reader.OldTree commit old)
    (wholeOld : ∀ id ∈ old, reader.Whole id) (whole : reader.Whole commit.tree) :
    ∃ paths, reader.changesOf commit selection = .ok paths ∧
      reader.IsChangeList old (some commit.tree) selection paths := by
  obtain ⟨paths, run, spec⟩ := changes_spec start wholeOld fun id h => Option.some.inj h ▸ whole
  exact ⟨paths, changesOf_eq_ok.2 ⟨old, hold, run⟩, spec⟩

end ObjectReader

end CommitLog
