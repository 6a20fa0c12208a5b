import CommitLog.Proofs.History.Changes
import CommitLog.Proofs.Object.Tree

/-!
# Trees as tables, and where they differ

`fileAt?` reads a tree as a table of files by their names, at every depth.  A comparison of two
trees reports the files under whose names the two tables differ, as far as its paths want them, and
needs no tree but those that the paths lead to and that are not the same on both sides.

    paths.Pairwise (·.order · = .lt)
    a path of components cs is reported ↔ ∃ names, cs = (within ++ names).map .normal ∧
      reader.fileAt? old names ≠ reader.fileAt? new names ∧ Contains given cs
-/

namespace CommitLog

namespace ObjectReader

/-! ## Tables of files -/

/-- The file of some names below a tree; no id stands for the empty tree. -/
def fileAt? (reader : ObjectReader) : Option ObjectId → List String → Option TreeEntry
  | _, [] => none
  | id, name :: rest =>
    match reader.treeOf id with
    | .error _ => none
    | .ok tree =>
      if rest = [] then TreeEntry.file? (tree.get? name)
      else reader.fileAt? (TreeEntry.directory? (tree.get? name)) rest

variable {reader : ObjectReader} {old new id : Option ObjectId} {names rest : List String}
  {file : TreeEntry} {selection : PathSelection}

theorem fileAt?_cons {tree : Tree} (read : reader.treeOf id = .ok tree) {name : String} :
    reader.fileAt? id (name :: rest) = if rest = [] then TreeEntry.file? (tree.get? name)
      else reader.fileAt? (TreeEntry.directory? (tree.get? name)) rest := by
  rw [fileAt?, read]

theorem fileAt?_of_error {fault : Fault} (read : reader.treeOf id = .error fault) :
    reader.fileAt? id names = none := by
  cases names with
  | nil => rfl
  | cons name rest =>
    unfold fileAt?
    rw [read]

theorem fileAt?_eq_some_iff :
    reader.fileAt? id names = some file ↔ reader.FileAt id names file := by
  induction names generalizing id with
  | nil => exact iff_of_false (by simp [fileAt?]) not_fileAt_nil
  | cons name rest ih =>
    cases read : reader.treeOf id with
    | error fault =>
      refine iff_of_false (by simp [fileAt?_of_error read]) fun h => ?_
      cases h with
      | leaf read' _ _ | inside read' _ _ _ =>
        rw [read] at read'
        cases read'
    | ok tree =>
      rw [fileAt?_cons read, fileAt_cons read]
      by_cases last : rest = []
      · subst last
        simp [not_fileAt_nil]
      · simp [last, ih]

/-- Trees differ under some names when their tables do. -/
theorem differs_iff :
    reader.Differs old new names ↔ reader.fileAt? old names ≠ reader.fileAt? new names := by
  simp only [Differs, ← fileAt?_eq_some_iff]
  exact not_congr Option.ext_iff.symm

@[simp]
theorem fileAt?_none : reader.fileAt? none names = none := by
  cases found : reader.fileAt? none names with
  | none => rfl
  | some file => exact absurd (fileAt?_eq_some_iff.1 found) not_fileAt_none

/-- Nothing lies below a file. -/
theorem fileAt?_append_of_file (h : reader.fileAt? id names = some file) (ne : rest ≠ []) :
    reader.fileAt? id (names ++ rest) = none := by
  induction names generalizing id with
  | nil => cases h
  | cons name names ih =>
    cases read : reader.treeOf id with
    | error fault => exact fileAt?_of_error read
    | ok tree =>
      rw [fileAt?_cons read] at h
      rw [List.cons_append, fileAt?_cons read, if_neg (by simp [ne])]
      by_cases last : names = []
      · subst last
        rw [if_pos rfl] at h
        obtain ⟨found, isFile⟩ := Option.filter_eq_some_iff.1 h
        have directory : TreeEntry.directory? (tree.get? name) = none := by
          simp_all [TreeEntry.directory?]
        rw [directory, fileAt?_none]
      · rw [if_neg last] at h
        exact ih h

/-! ## Trees that are read -/

/-- Trees below one another end somewhere, and their names stand for themselves.  A tree that cannot
be read has nothing below it. -/
inductive Nested (reader : ObjectReader) : ObjectId → Prop
  | intro {id : ObjectId} :
      (∀ tree name entry, reader.tree id = .ok tree → tree.get? name = some entry →
        Path.IsName name) →
      (∀ tree name entry, reader.tree id = .ok tree → tree.get? name = some entry →
        entry.isTree = true → Nested reader entry.id) →
      Nested reader id

/-- The trees that a comparison needs: two that are not the same, and those below names that the
selection allows and that do not have the same entry. -/
inductive Needs (reader : ObjectReader) :
    Option ObjectId → Option ObjectId → PathSelection → ObjectId → Prop
  | onOld {id : ObjectId} {new : Option ObjectId} {selection : PathSelection} :
      some id ≠ new → Needs reader (some id) new selection id
  | onNew {old : Option ObjectId} {id : ObjectId} {selection : PathSelection} :
      old ≠ some id → Needs reader old (some id) selection id
  | inside {old new : Option ObjectId} {selection : PathSelection} {oldTree newTree : Tree}
      {name : String} {id : ObjectId} :
      old ≠ new → reader.treeOf old = .ok oldTree → reader.treeOf new = .ok newTree →
      selection.allows name = true → oldTree.get? name ≠ newTree.get? name →
      Needs reader (TreeEntry.directory? (oldTree.get? name))
        (TreeEntry.directory? (newTree.get? name)) (selection.below name) id →
      Needs reader old new selection id

/-- The reader that has an empty tree in place of every tree that cannot be read. -/
def filled (reader : ObjectReader) : ObjectReader :=
  { reader with tree := fun id => .ok ((reader.tree id).toOption.getD .empty) }

theorem treeOf_filled {tree : Tree} (read : reader.treeOf id = .ok tree) :
    reader.filled.treeOf id = .ok tree := by
  cases id with
  | none => exact read
  | some id =>
    change reader.tree id = .ok tree at read
    simp [treeOf, filled, read, Except.toOption]

theorem fileAt?_filled : reader.filled.fileAt? id names = reader.fileAt? id names := by
  induction names generalizing id with
  | nil => rfl
  | cons name rest ih =>
    cases read : reader.treeOf id with
    | ok tree => rw [fileAt?_cons read, fileAt?_cons (treeOf_filled read), ih]
    | error fault =>
      cases id with
      | none => cases read
      | some id =>
        have empty : reader.filled.treeOf (some id) = .ok .empty := by
          change reader.tree id = .error fault at read
          simp [treeOf, filled, read, Except.toOption]
        have absent : Tree.empty.get? name = none := rfl
        rw [fileAt?_of_error read, fileAt?_cons empty, absent]
        simp [TreeEntry.file?, TreeEntry.directory?]

theorem Nested.whole_filled {id : ObjectId} (nested : reader.Nested id) :
    reader.filled.Whole id := by
  induction nested with
  | @intro id names _ ih =>
    have read (name : String) (entry : TreeEntry)
        (found : ((reader.tree id).toOption.getD .empty).get? name = some entry) :
        ∃ tree, reader.tree id = .ok tree ∧ tree.get? name = some entry := by
      cases read : reader.tree id with
      | ok tree =>
        rw [read] at found
        exact ⟨tree, rfl, found⟩
      | error fault =>
        rw [read] at found
        cases found
    refine .intro rfl (fun name entry found => ?_) fun name entry found isTree => ?_
    · obtain ⟨tree, read, found⟩ := read name entry found
      exact names tree name entry read found
    · obtain ⟨tree, read, found⟩ := read name entry found
      exact ih tree name entry read found isTree

theorem Nested.of_error {id : ObjectId} {fault : Fault} (read : reader.tree id = .error fault) :
    reader.Nested id := by
  constructor
  all_goals
    intro tree name entry read'
    rw [read] at read'
    cases read'

theorem Nested.of_entries {id : ObjectId} {tree : Tree} (read : reader.tree id = .ok tree)
    (entries : ∀ e ∈ tree.entries, Path.IsName e.1 ∧ (e.2.isTree = true → reader.Nested e.2.id)) :
    reader.Nested id := by
  constructor
  all_goals
    intro own name entry read' found
    obtain rfl := Except.ok.inj (read.symm.trans read')
  · exact (entries _ (Tree.mem_of_get? found)).1
  · exact (entries _ (Tree.mem_of_get? found)).2

/-- Trees that are the same need nothing. -/
theorem not_needs_self {id : ObjectId} : ¬ reader.Needs old old selection id := by
  intro needs
  cases needs with
  | onOld differ | onNew differ | inside differ _ _ _ _ _ => exact differ rfl

/-- A comparison depends on the trees that it needs only: readers that agree on them find the same
changes, or fail alike. -/
theorem changesBelow_congr {other : ObjectReader} (levels : Nat)
    (agree : ∀ id, reader.Needs old new selection id → reader.tree id = other.tree id) :
    reader.changesBelow levels old new selection =
      other.changesBelow levels old new selection := by
  induction levels generalizing old new selection with
  | zero => rfl
  | succ levels ih =>
    by_cases same : old = new
    · rw [changesBelow, changesBelow, if_pos same, if_pos same]
    -- two trees that differ are both needed, so the readers give the same for each, or fail alike
    have sameOld : reader.treeOf old = other.treeOf old := by
      cases old with
      | none => rfl
      | some id => exact agree id (.onOld same)
    have sameNew : reader.treeOf new = other.treeOf new := by
      cases new with
      | none => rfl
      | some id => exact agree id (.onNew same)
    rw [changesBelow, changesBelow, if_neg same, if_neg same, ← sameOld, ← sameNew]
    cases readOld : reader.treeOf old with
    | error fault => rfl
    | ok oldTree =>
    cases readNew : reader.treeOf new with
    | error fault => rfl
    | ok newTree =>
    refine congrArg (· >>= fun changes => pure changes.flatten) (mapM_congr fun name mem => ?_)
    by_cases sameEntry : oldTree.get? name = newTree.get? name
    · rw [if_pos sameEntry, if_pos sameEntry]
    · have allowed := (mem_namesIn.1 mem).1
      rw [if_neg sameEntry, if_neg sameEntry]
      dsimp only
      rw [ih fun id needs => agree id (.inside same readOld readNew allowed sameEntry needs)]

/-- A comparison that can read what it needs does not notice what cannot be read. -/
theorem changesBelow_filled (levels : Nat)
    (readable : ∀ id, reader.Needs old new selection id → ∃ tree, reader.tree id = .ok tree) :
    reader.filled.changesBelow levels old new selection =
      reader.changesBelow levels old new selection := by
  refine (changesBelow_congr levels fun id needs => ?_).symm
  obtain ⟨tree, read⟩ := readable id needs
  have filled : reader.filled.treeOf (some id) = .ok tree := treeOf_filled read
  rw [read]
  exact filled.symm

end ObjectReader

/-! ## Selections that there are -/

/-- Whether components lie at or below one of the given paths; without paths all do. -/
def AtOrBelow (given : Option (List Path)) (components : List Component) : Prop :=
  ∀ paths ∈ given, ∃ path ∈ paths, path.components <+: components

namespace PathSelection

/-- The selection of the given paths, or of everything, as it is seen from a directory. -/
def within (given : Option (List Path)) (directory : List String) : PathSelection :=
  directory.foldl below ((given.map ofPaths).getD everything)

variable {given : Option (List Path)} {directory names : List String}

theorem wants_foldl_below {selection : PathSelection} :
    (directory.foldl below selection).Wants names ↔ selection.Wants (directory ++ names) := by
  induction directory generalizing selection with
  | nil => rfl
  | cons name rest ih => exact ih.trans wants_below

theorem level_foldl_below {selection : PathSelection} :
    (directory.foldl below selection).level =
      ObjectReader.pathBelow selection.level directory := by
  induction directory generalizing selection with
  | nil => rfl
  | cons name rest ih => exact ih

/-- What a selection wants in a directory is what its paths want of the whole. -/
theorem wants_within (isName : ∀ name ∈ directory ++ names, Path.IsName name) :
    (within given directory).Wants names ↔
      AtOrBelow given ((directory ++ names).map .normal) := by
  unfold within AtOrBelow
  rw [wants_foldl_below]
  cases given with
  | none => exact iff_of_true (wants_everything _) (by simp)
  | some paths =>
    rw [Option.map_some, Option.getD_some, Wants, ofPaths, Trie.contains_ofPaths]
    simp only [List.mem_map, exists_exists_and_eq_and, namesOf_prefix_iff isName, Option.mem_def,
      Option.some.injEq, forall_eq']

theorem level_within (isName : ∀ name ∈ directory, Path.IsName name) :
    (within given directory).level.components = directory.map .normal := by
  have start : ((given.map ofPaths).getD everything).level = ⟨""⟩ := by cases given <;> rfl
  unfold within
  rw [level_foldl_below, ObjectReader.components_pathBelow isName, start]
  rfl

end PathSelection

/-! ## Reports -/

namespace ObjectReader

/-- What a comparison of two trees reports: the files that are not the same on both sides, as paths
from where the given paths start. -/
structure IsReport (reader : ObjectReader) (old new : Option ObjectId) (given : Option (List Path))
    (directory : List String) (report : List Path) : Prop where
  ascending : report.Pairwise fun a b => a.order b = .lt
  exact : ∀ components, (∃ path ∈ report, path.components = components) ↔
    ∃ names, components = (directory ++ names).map .normal ∧ AtOrBelow given components ∧
      reader.fileAt? old names ≠ reader.fileAt? new names
  /-- A file on one side that is a directory on the other is reported together with what lies in the
  directory. -/
  swapped : ∀ names rest, rest ≠ [] →
    ((reader.fileAt? old names).isSome ∧ (reader.fileAt? new (names ++ rest)).isSome ∨
      (reader.fileAt? new names).isSome ∧ (reader.fileAt? old (names ++ rest)).isSome) →
    AtOrBelow given ((directory ++ names).map .normal) →
    (∃ path ∈ report, path.components = (directory ++ names).map .normal) ∧
      ∃ path ∈ report, path.components = (directory ++ (names ++ rest)).map .normal

variable {reader : ObjectReader} {old new : Option ObjectId} {given : Option (List Path)}
  {directory : List String} {report : List Path}

/-- The tables of a file and of a directory of its name differ at both. -/
theorem differ_of_swapped {a b : Option ObjectId} {names rest : List String} (ne : rest ≠ [])
    (file : (reader.fileAt? a names).isSome) (below : (reader.fileAt? b (names ++ rest)).isSome) :
    reader.fileAt? a names ≠ reader.fileAt? b names ∧
      reader.fileAt? a (names ++ rest) ≠ reader.fileAt? b (names ++ rest) := by
  obtain ⟨own, hown⟩ := Option.isSome_iff_exists.1 file
  constructor
  · intro same
    rw [fileAt?_append_of_file (same ▸ hown) ne] at below
    cases below
  · intro same
    rw [← same, fileAt?_append_of_file hown ne] at below
    cases below

theorem IsReport.of_exact (ascending : report.Pairwise fun a b => a.order b = .lt)
    (exact : ∀ components, (∃ path ∈ report, path.components = components) ↔
      ∃ names, components = (directory ++ names).map .normal ∧ AtOrBelow given components ∧
        reader.fileAt? old names ≠ reader.fileAt? new names) :
    reader.IsReport old new given directory report := by
  refine ⟨ascending, exact, fun names rest ne sides wanted => ?_⟩
  have differ : reader.fileAt? old names ≠ reader.fileAt? new names ∧
      reader.fileAt? old (names ++ rest) ≠ reader.fileAt? new (names ++ rest) := by
    rcases sides with ⟨file, below⟩ | ⟨file, below⟩
    · exact differ_of_swapped ne file below
    · exact (differ_of_swapped ne file below).imp Ne.symm Ne.symm
  have wantedBelow : AtOrBelow given ((directory ++ (names ++ rest)).map .normal) := by
    intro paths mem
    obtain ⟨path, hpath, front⟩ := wanted paths mem
    refine ⟨path, hpath, front.trans ?_⟩
    rw [← List.append_assoc]
    exact (List.prefix_append _ _).map _
  exact ⟨(exact _).2 ⟨names, rfl, wanted, differ.1⟩,
    (exact _).2 ⟨names ++ rest, rfl, wantedBelow, differ.2⟩⟩

/-- **A comparison of two trees reports the files under whose names the trees differ**, when the
trees that it needs can be read. -/
theorem changes_isReport (isName : ∀ name ∈ directory, Path.IsName name)
    (nestedOld : ∀ id ∈ old, reader.Nested id) (nestedNew : ∀ id ∈ new, reader.Nested id)
    (readable : ∀ id, reader.Needs old new (.within given directory) id →
      ∃ tree, reader.tree id = .ok tree) :
    ∃ report, reader.changes old new (.within given directory) = .ok report ∧
      reader.IsReport old new given directory report := by
  obtain ⟨report, run, ascending, names, spec⟩ :=
    changes_spec_below (.within given directory) (fun id h => (nestedOld id h).whole_filled)
      fun id h => (nestedNew id h).whole_filled
  refine ⟨report, ?_, .of_exact ascending fun components => (spec components).trans ?_⟩
  · rw [← run]
    unfold changes
    rw [changesBelow_filled _ readable]
  · rw [PathSelection.level_within isName]
    constructor
    · rintro ⟨own, ⟨differs, wants⟩, rfl⟩
      have areNames : ∀ name ∈ directory ++ own, Path.IsName name := fun name mem =>
        (List.mem_append.1 mem).elim (isName name) (names own differs name)
      rw [differs_iff, fileAt?_filled, fileAt?_filled] at differs
      rw [← List.map_append]
      exact ⟨own, rfl, (PathSelection.wants_within areNames).1 wants, differs⟩
    · rintro ⟨own, rfl, wanted, differ⟩
      have differs : reader.filled.Differs old new own := by
        rwa [differs_iff, fileAt?_filled, fileAt?_filled]
      have areNames : ∀ name ∈ directory ++ own, Path.IsName name := fun name mem =>
        (List.mem_append.1 mem).elim (isName name) (names own differs name)
      exact ⟨own, ⟨differs, (PathSelection.wants_within areNames).2 wanted⟩, List.map_append⟩

/-! ### A file that becomes a directory

`src` is a file on one side and a directory on the other; `vendor` cannot be read, but is the same
on both. -/

namespace Swap

def idOf (byte : UInt8) : ObjectId := ⟨byte :: List.replicate 19 0, by simp⟩

def oldTree : Tree := ⟨[("src", ⟨.regular, idOf 10⟩), ("vendor", ⟨.directory, idOf 20⟩)]⟩

def newTree : Tree := ⟨[("src", ⟨.directory, idOf 3⟩), ("vendor", ⟨.directory, idOf 20⟩)]⟩

def sourceTree : Tree := ⟨[("lib", ⟨.regular, idOf 11⟩)]⟩

def objects : ObjectReader where
  commit _ := .error .cutOff
  tree id :=
    if id = idOf 1 then .ok oldTree
    else if id = idOf 2 then .ok newTree
    else if id = idOf 3 then .ok sourceTree
    else .error .cutOff

theorem nested_source : objects.Nested (idOf 3) := by
  have read : objects.tree (idOf 3) = .ok sourceTree := rfl
  refine .of_entries read ?_
  simp only [sourceTree, List.forall_mem_cons]
  exact ⟨⟨by decide, fun isTree => by cases isTree⟩, by simp⟩

theorem nested_lost : objects.Nested (idOf 20) := by
  have lost : objects.tree (idOf 20) = .error .cutOff := rfl
  exact .of_error lost

theorem nested_old : objects.Nested (idOf 1) := by
  have read : objects.tree (idOf 1) = .ok oldTree := rfl
  refine .of_entries read ?_
  simp only [oldTree, List.forall_mem_cons]
  exact ⟨⟨by decide, fun isTree => by cases isTree⟩, ⟨by decide, fun _ => nested_lost⟩, by simp⟩

theorem nested_new : objects.Nested (idOf 2) := by
  have read : objects.tree (idOf 2) = .ok newTree := rfl
  refine .of_entries read ?_
  simp only [newTree, List.forall_mem_cons]
  exact ⟨⟨by decide, fun _ => nested_source⟩, ⟨by decide, fun _ => nested_lost⟩, by simp⟩

theorem readable_source {selection : PathSelection} {id : ObjectId}
    (needs : objects.Needs none (some (idOf 3)) selection id) :
    ∃ tree, objects.tree id = .ok tree := by
  cases needs with
  | onNew _ => exact ⟨sourceTree, rfl⟩
  | @inside _ _ _ oldTree newTree name _ _ readOld readNew _ _ below =>
    obtain rfl := Except.ok.inj readOld
    obtain rfl : sourceTree = newTree := Except.ok.inj readNew
    have file : TreeEntry.directory? (sourceTree.get? name) = none := by
      cases found : sourceTree.get? name with
      | none => rfl
      | some entry =>
        have mem := Tree.mem_of_get? found
        obtain ⟨-, rfl⟩ := Prod.mk.inj (List.mem_singleton.1 mem)
        rfl
    rw [file] at below
    exact absurd below not_needs_self

/-- What cannot be read is not needed. -/
theorem readable_swap {selection : PathSelection} {id : ObjectId}
    (needs : objects.Needs (some (idOf 1)) (some (idOf 2)) selection id) :
    ∃ tree, objects.tree id = .ok tree := by
  cases needs with
  | onOld _ => exact ⟨oldTree, rfl⟩
  | onNew _ => exact ⟨newTree, rfl⟩
  | @inside _ _ _ old new name _ _ readOld readNew _ differ below =>
    obtain rfl : oldTree = old := Except.ok.inj readOld
    obtain rfl : newTree = new := Except.ok.inj readNew
    by_cases source : name = "src"
    · subst source
      exact readable_source below
    · -- the other names have the same entries
      refine absurd ?_ differ
      simp [Tree.get?, oldTree, newTree, lookup_cons_ite, source]

theorem changes_isReport_swap :
    (objects.Nested (idOf 1) ∧ objects.Nested (idOf 2) ∧
      ∀ id, objects.Needs (some (idOf 1)) (some (idOf 2)) (.within (some [⟨"src"⟩]) []) id →
        ∃ tree, objects.tree id = .ok tree) ∧
    ∃ report, objects.changes (some (idOf 1)) (some (idOf 2)) (.within (some [⟨"src"⟩]) []) =
      .ok report ∧
        objects.IsReport (some (idOf 1)) (some (idOf 2)) (some [⟨"src"⟩]) [] report := by
  refine ⟨⟨nested_old, nested_new, fun _ => readable_swap⟩, ?_⟩
  exact changes_isReport (by simp) (fun id h => Option.some.inj h ▸ nested_old)
    (fun id h => Option.some.inj h ▸ nested_new) fun _ => readable_swap

end Swap

end ObjectReader

end CommitLog
