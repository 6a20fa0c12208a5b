import CommitLog.Proofs.History.Differences

/-!
# What a comparison reads

A comparison of two trees reads the trees themselves and, below them, directories that lead to one
of its paths or lie below one (`ObjectReader.Reaches`).  Readers that agree on these give the same
changes, or fail alike; what cannot be read elsewhere does not count
(`ObjectReader.changes_footprint`).

    (∀ id, reader.Reaches old new given directory id → reader.tree id = other.tree id) →
      other.changes old new (.within given directory) =
        reader.changes old new (.within given directory)
-/

namespace CommitLog

/-! ## Ways to paths -/

namespace PathSelection

/-- Whether a directory is on the way to one of the given paths, is one of them, or lies below one;
without paths every directory does. -/
def OnTheWay (given : Option (List Path)) (names : List String) : Prop :=
  ∀ paths ∈ given, ∃ path ∈ paths, names <+: namesOf path ∨ namesOf path <+: names

variable {given : Option (List Path)} {directory names : List String}

/-- The selection of some paths lets a walk into what is on the way. -/
theorem leads_within (ne : names ≠ []) :
    (within given directory).trie.leads names = true ↔ OnTheWay given (directory ++ names) := by
  unfold within OnTheWay
  rw [trie_foldl_below, ← Trie.leads_append ne]
  cases given with
  | none => exact iff_of_true (Trie.leads_of_isMatching rfl _) (by simp)
  | some paths =>
    have below : directory ++ names ≠ [] := List.append_ne_nil_of_right_ne_nil _ ne
    rw [Option.map_some, Option.getD_some, ofPaths, Trie.leads_ofPaths]
    simp only [below, false_or, List.mem_map, exists_exists_and_eq_and, Option.mem_def,
      Option.some.injEq, forall_eq']

end PathSelection

namespace ObjectReader

/-! ## Trees on the way -/

/-- The directory of some names below a tree; without names, the tree. -/
def directoryAt? (reader : ObjectReader) : Option ObjectId → List String → Option ObjectId
  | id, [] => id
  | id, name :: rest =>
    match reader.treeOf id with
    | .error _ => none
    | .ok tree => reader.directoryAt? (TreeEntry.directory? (tree.get? name)) rest

variable {reader other : ObjectReader} {old new : Option ObjectId} {selection : PathSelection}
  {given : Option (List Path)} {directory : List String} {id : ObjectId}

theorem directoryAt?_cons {above : Option ObjectId} {tree : Tree}
    (read : reader.treeOf above = .ok tree) (name : String) (rest : List String) :
    reader.directoryAt? above (name :: rest) =
      reader.directoryAt? (TreeEntry.directory? (tree.get? name)) rest := by
  rw [directoryAt?, read]

@[simp]
theorem directoryAt?_none (names : List String) : reader.directoryAt? none names = none := by
  induction names with
  | nil => rfl
  | cons name rest ih =>
    have empty : reader.treeOf none = .ok .empty := rfl
    exact (directoryAt?_cons empty name rest).trans ih

/-- What a comparison needs is a directory on either side that its selection lets a walk into. -/
theorem Needs.exists_directoryAt? (needs : reader.Needs old new selection id) :
    ∃ names, selection.trie.leads names = true ∧
      (reader.directoryAt? old names = some id ∨ reader.directoryAt? new names = some id) := by
  induction needs with
  | onOld differ => exact ⟨[], rfl, .inl rfl⟩
  | onNew differ => exact ⟨[], rfl, .inr rfl⟩
  | @inside _ _ _ oldTree newTree name _ _ readOld readNew allowed _ _ ih =>
    obtain ⟨names, leads, located⟩ := ih
    refine ⟨name :: names, ?_, ?_⟩
    · rw [Trie.leads, Bool.and_eq_true]
      exact ⟨allowed, leads⟩
    · rwa [directoryAt?_cons readOld, directoryAt?_cons readNew]

/-- Whether a tree is one of the two that are compared, or a directory of either that is on the way
to one of the given paths. -/
def Reaches (reader : ObjectReader) (old new : Option ObjectId) (given : Option (List Path))
    (directory : List String) (id : ObjectId) : Prop :=
  ∃ names, (reader.directoryAt? old names = some id ∨ reader.directoryAt? new names = some id) ∧
    (names = [] ∨ PathSelection.OnTheWay given (directory ++ names))

theorem reaches_of_needs (needs : reader.Needs old new (.within given directory) id) :
    reader.Reaches old new given directory id := by
  obtain ⟨names, leads, located⟩ := needs.exists_directoryAt?
  refine ⟨names, located, ?_⟩
  by_cases root : names = []
  · exact .inl root
  · exact .inr ((PathSelection.leads_within root).1 leads)

theorem changes_congr
    (agree : ∀ id, reader.Reaches old new given directory id → reader.tree id = other.tree id) :
    other.changes old new (.within given directory) =
      reader.changes old new (.within given directory) := by
  unfold changes
  rw [changesBelow_congr _ fun id needs => agree id (reaches_of_needs needs)]

def withTree (reader : ObjectReader) (id : ObjectId) (answer : Except Fault Tree) : ObjectReader :=
  { reader with tree := fun other => if other = id then answer else reader.tree other }

/-- **A filtered comparison depends on what its paths lead to only.**  Readers that agree on the two
trees and on the directories that lead to a given path, or lie at or below one, give the same
changes, or fail alike, whatever one of them has in place of another tree. -/
theorem changes_footprint (reader other : ObjectReader) (old new : Option ObjectId)
    (given : Option (List Path)) (directory : List String)
    (agree : ∀ id, reader.Reaches old new given directory id → reader.tree id = other.tree id) :
    other.changes old new (.within given directory) =
        reader.changes old new (.within given directory) ∧
      ∀ lost, ¬ reader.Reaches old new given directory lost → ∀ answer,
        (other.withTree lost answer).changes old new (.within given directory) =
          reader.changes old new (.within given directory) := by
  refine ⟨changes_congr agree, fun lost outside answer => changes_congr fun id reaches => ?_⟩
  have kept : id ≠ lost := fun same => outside (same ▸ reaches)
  rw [agree id reaches]
  exact (if_neg kept).symm

/-! ### A directory that no path leads to

`src` and `vendor` differ.  One reader has all trees, the other one lacks those of `vendor`. -/

namespace Torn

open Swap (idOf)

def oldTree : Tree := ⟨[("src", ⟨.directory, idOf 3⟩), ("vendor", ⟨.directory, idOf 20⟩)]⟩

def newTree : Tree := ⟨[("src", ⟨.directory, idOf 4⟩), ("vendor", ⟨.directory, idOf 21⟩)]⟩

def objects : ObjectReader where
  commit _ := .error .cutOff
  tree id :=
    if id = idOf 1 then .ok oldTree
    else if id = idOf 2 then .ok newTree
    else if id = idOf 3 then .ok ⟨[("lib", ⟨.regular, idOf 11⟩)]⟩
    else if id = idOf 4 then .ok ⟨[("lib", ⟨.regular, idOf 12⟩)]⟩
    else .ok .empty

def torn : ObjectReader where
  commit := objects.commit
  tree id := if id = idOf 20 ∨ id = idOf 21 then .error .cutOff else objects.tree id

/-- Below `src` there are no more directories. -/
theorem directoryAt?_src {id : ObjectId} {file : TreeEntry} (isFile : file.isTree = false)
    (read : objects.tree id = .ok ⟨[("lib", file)]⟩) (name : String) (rest : List String) :
    objects.directoryAt? (some id) (name :: rest) = none := by
  have absent : TreeEntry.directory? ((⟨[("lib", file)]⟩ : Tree).get? name) = none := by
    by_cases lib : name = "lib" <;>
      simp [Tree.get?, TreeEntry.directory?, lookup_cons_ite, lib, isFile]
  have readable : objects.treeOf (some id) = .ok ⟨[("lib", file)]⟩ := read
  rw [directoryAt?_cons readable, absent, directoryAt?_none]

theorem reaches_src {id : ObjectId}
    (reaches : objects.Reaches (some (idOf 1)) (some (idOf 2)) (some [⟨"src"⟩]) [] id) :
    id = idOf 1 ∨ id = idOf 2 ∨ id = idOf 3 ∨ id = idOf 4 := by
  obtain ⟨names, located, way⟩ := reaches
  cases names with
  | nil =>
    rcases located with located | located
    · exact .inl (Option.some.inj located).symm
    · exact .inr (.inl (Option.some.inj located).symm)
  | cons name rest =>
    obtain rfl : name = "src" := by
      obtain ⟨path, mem, way⟩ := way.resolve_left (List.cons_ne_nil _ _) _ rfl
      obtain rfl := List.mem_singleton.1 mem
      have own : PathSelection.namesOf ⟨"src"⟩ = ["src"] := by decide
      rw [own, List.nil_append, List.cons_prefix_cons, List.cons_prefix_cons] at way
      rcases way with way | way
      · exact way.1
      · exact way.1.symm
    have readOld : objects.treeOf (some (idOf 1)) = .ok oldTree := rfl
    have readNew : objects.treeOf (some (idOf 2)) = .ok newTree := rfl
    have srcOld : TreeEntry.directory? (oldTree.get? "src") = some (idOf 3) := rfl
    have srcNew : TreeEntry.directory? (newTree.get? "src") = some (idOf 4) := rfl
    rw [directoryAt?_cons readOld, directoryAt?_cons readNew, srcOld, srcNew] at located
    cases rest with
    | nil =>
      rcases located with located | located
      · exact .inr (.inr (.inl (Option.some.inj located).symm))
      · exact .inr (.inr (.inr (Option.some.inj located).symm))
    | cons name rest =>
      have noneOld : objects.directoryAt? (some (idOf 3)) (name :: rest) = none :=
        directoryAt?_src rfl rfl name rest
      have noneNew : objects.directoryAt? (some (idOf 4)) (name :: rest) = none :=
        directoryAt?_src rfl rfl name rest
      rw [noneOld, noneNew] at located
      simp at located

/-- The reader that lacks `vendor` finds the change in `src`, and fails without paths. -/
theorem changes_footprint_torn :
    let changes (reader : ObjectReader) (given : Option (List Path)) :=
      reader.changes (some (idOf 1)) (some (idOf 2)) (.within given [])
    (∀ id, objects.Reaches (some (idOf 1)) (some (idOf 2)) (some [⟨"src"⟩]) [] id →
      objects.tree id = torn.tree id) ∧
    changes torn (some [⟨"src"⟩]) = changes objects (some [⟨"src"⟩]) ∧
    (changes torn (some [⟨"src"⟩])).toOption.map (·.map Path.text) = some ["src/lib"] ∧
    (changes torn none).toOption.map (·.map Path.text) = none := by
  intro changes
  have agree (id : ObjectId)
      (reaches : objects.Reaches (some (idOf 1)) (some (idOf 2)) (some [⟨"src"⟩]) [] id) :
      objects.tree id = torn.tree id := by
    rcases reaches_src reaches with rfl | rfl | rfl | rfl <;> rfl
  obtain ⟨same, -⟩ := changes_footprint objects torn (some (idOf 1)) (some (idOf 2))
    (some [⟨"src"⟩]) [] agree
  exact ⟨agree, same, by decide +kernel, by decide +kernel⟩

end Torn

end ObjectReader

end CommitLog
