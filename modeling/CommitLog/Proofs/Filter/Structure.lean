import CommitLog.Filter.Structure
import CommitLog.Proofs.Path.Components
import CommitLog.Proofs.Path.Order
import CommitLog.Proofs.Path.Trie

/-!
# Files that a structure filter selects

`StructureFilter.Covers` says that a file of a repository lies at or below a path of a filter.  The
relative paths for a repository, the filter cut down to it, and the selection of files made from
them all say the same.

    (∃ file ∈ filter.filesForRoot root, file.components <+: components) ↔
      ∃ path ∈ filter.paths, path.components <+: root.components ++ components
    (filter.forRoot root).Covers root names ↔ filter.Covers root names
-/

namespace CommitLog

namespace StructureFilter

/-- Whether the file of these names in a repository lies at or below a path of the filter. -/
def Covers (filter : StructureFilter) (root : Path) (names : List String) : Prop :=
  ∃ path ∈ filter.paths, path.components <+: root.components ++ names.map .normal

variable {filter : StructureFilter} {root : Path} {names : List String}

theorem filesForRoot_of_startsWith (h : filter.paths.any root.startsWith = true) :
    filter.filesForRoot root = [⟨""⟩] := by
  rw [filesForRoot, if_pos h]

/-- The relative paths for a repository are relative. -/
theorem split_of_mem_filesForRoot (absolute : root.components ≠ []) {file : Path}
    (h : file ∈ filter.filesForRoot root) : file.split.1 = none := by
  unfold filesForRoot at h
  split at h
  · rw [List.mem_singleton.1 h]
    rfl
  · obtain h | h := mem_foldl_insertPath h
    · cases h
    · obtain ⟨path, -, hpath⟩ := List.mem_filterMap.1 h
      exact (Path.stripBase?_eq_some absolute hpath).1

/-- A relative path is at or above some components when a path of the filter is at or above the
root followed by them. -/
theorem exists_mem_filesForRoot (absolute : root.components ≠ []) {components : List Component} :
    (∃ file ∈ filter.filesForRoot root, file.components <+: components) ↔
      ∃ path ∈ filter.paths, path.components <+: root.components ++ components := by
  by_cases inside : filter.paths.any root.startsWith = true
  · rw [filesForRoot_of_startsWith inside]
    obtain ⟨path, mem, starts⟩ := List.any_eq_true.1 inside
    have above := (Path.startsWith_iff.1 starts).trans (List.prefix_append _ components)
    exact ⟨fun _ => ⟨path, mem, above⟩, fun _ => ⟨⟨""⟩, by simp, List.nil_prefix⟩⟩
  rw [filesForRoot, if_neg inside, exists_mem_foldl_insertPath (P := (· <+: components))]
  constructor
  · rintro (⟨_, h, -⟩ | ⟨file, h, hprefix⟩)
    · cases h
    · obtain ⟨path, mem, hpath⟩ := List.mem_filterMap.1 h
      refine ⟨path, mem, ?_⟩
      rw [(Path.stripBase?_eq_some absolute hpath).2]
      exact (List.prefix_append_right_inj _).2 hprefix
  · rintro ⟨path, mem, hprefix⟩
    -- a path that is not at or above the root lies below it
    have below : root.components <+: path.components := by
      refine (List.prefix_or_prefix_of_prefix hprefix (List.prefix_append _ _)).resolve_left ?_
      exact fun above => inside (List.any_eq_true.2 ⟨path, mem, Path.startsWith_iff.2 above⟩)
    obtain ⟨file, hfile⟩ := Option.isSome_iff_exists.1
      (Path.isSome_stripBase?.trans (Path.startsWith_iff.2 below))
    refine .inr ⟨file, List.mem_filterMap.2 ⟨path, mem, hfile⟩, ?_⟩
    rw [(Path.stripBase?_eq_some absolute hfile).2] at hprefix
    exact (List.prefix_append_right_inj _).1 hprefix

/-- Inside the repository, a filter cut down to it reaches as far as the filter. -/
theorem exists_mem_forRoot (absolute : root.components ≠ []) {components : List Component} :
    (∃ path ∈ (filter.forRoot root).paths, path.components <+: root.components ++ components) ↔
      ∃ path ∈ filter.paths, path.components <+: root.components ++ components := by
  refine Iff.trans ?_ (exists_mem_filesForRoot absolute)
  rw [forRoot, ofPaths, exists_mem_sortPaths (P := (· <+: root.components ++ components))]
  constructor
  · rintro ⟨path, mem, hprefix⟩
    obtain ⟨file, hfile, rfl⟩ := List.mem_map.1 mem
    rw [Path.components_join (split_of_mem_filesForRoot absolute hfile)] at hprefix
    exact ⟨file, hfile, (List.prefix_append_right_inj _).1 hprefix⟩
  · rintro ⟨file, hfile, hprefix⟩
    refine ⟨root.join file, List.mem_map_of_mem hfile, ?_⟩
    rw [Path.components_join (split_of_mem_filesForRoot absolute hfile)]
    exact (List.prefix_append_right_inj _).2 hprefix

/-- A filter cut down to a repository selects the same files of it. -/
theorem covers_forRoot (absolute : root.components ≠ []) :
    (filter.forRoot root).Covers root names ↔ filter.Covers root names :=
  exists_mem_forRoot absolute

/-! ### Spellings -/

/-- The spelling of a root does not count. -/
theorem filesForRoot_congr {a b : Path} (same : (a == b) = true) :
    filter.filesForRoot a = filter.filesForRoot b := by
  have same : a.components = b.components := Path.beq_iff.1 same
  have starts : a.startsWith = b.startsWith := by
    funext path
    rw [Path.startsWith, Path.startsWith, same]
  have strip (path : Path) : path.stripBase? a = path.stripBase? b := by
    unfold Path.stripBase? Path.startsWith
    rw [same]
  unfold filesForRoot
  simp only [starts, strip]

/-- The components of the relative paths come from the components of the paths. -/
theorem map_components_filesForRoot (absolute : root.components ≠ []) {other : StructureFilter}
    (same : filter.paths.map Path.components = other.paths.map Path.components) :
    (filter.filesForRoot root).map Path.components =
      (other.filesForRoot root).map Path.components := by
  have inside (f : StructureFilter) : f.paths.any root.startsWith =
      (f.paths.map Path.components).any (·.isPrefixOf root.components) := by
    rw [List.any_map]
    rfl
  have relative (f : StructureFilter) : (f.paths.filterMap (·.stripBase? root)).map
      Path.components = (f.paths.map Path.components).filterMap fun cs =>
        if root.components.isPrefixOf cs then some (cs.drop root.components.length) else none := by
    rw [List.map_filterMap, List.filterMap_map]
    refine List.filterMap_congr fun path _ => ?_
    obtain ⟨n, length⟩ : ∃ n, root.components.length = n + 1 :=
      Nat.exists_eq_add_one.2 (List.length_pos_iff.2 absolute)
    show (path.stripBase? root).map Path.components =
      if path.startsWith root then some (path.components.drop root.components.length) else none
    unfold Path.stripBase?
    split
    · rw [length, Option.map_some, (Path.components_afterComponents path n).2]
    · rfl
  unfold filesForRoot
  rw [inside filter, inside other, same]
  split
  · rfl
  · rw [map_components_foldl_insertPath, map_components_foldl_insertPath, relative filter,
      relative other, same]

/-- A filter cut down to a repository has the same paths for every spelling of its root. -/
theorem map_components_forRoot {a b : Path} (absolute : a.components ≠ [])
    (same : (a == b) = true) : (filter.forRoot a).paths.map Path.components =
      (filter.forRoot b).paths.map Path.components := by
  have components (base : Path) (h : base.components = a.components) :
      ((filter.filesForRoot a).map base.join).map Path.components =
        (filter.filesForRoot a).map fun file => a.components ++ file.components := by
    rw [List.map_map]
    refine List.map_congr_left fun file mem => ?_
    show (base.join file).components = _
    rw [Path.components_join (split_of_mem_filesForRoot absolute mem), h]
  unfold forRoot ofPaths
  rw [map_components_sortPaths, map_components_sortPaths, ← filesForRoot_congr same,
    components a rfl, components b (Path.beq_iff.1 same).symm]

/-! ### Changes -/

/-- Changes that are not known pass no filter. -/
theorem accepts_of_unknown {metadata : Metadata} (h : metadata.changedPaths = none) :
    filter.accepts metadata = false := by
  rw [accepts, h]

/-- Known changes pass when one of them, behind the root, lies at or below a path of the filter. -/
theorem accepts_iff {metadata : Metadata} {changed : List Path}
    (known : metadata.changedPaths = some changed) (absolute : metadata.root.components ≠ []) :
    filter.accepts metadata = true ↔ ∃ change ∈ changed, ∃ path ∈ filter.paths,
      path.components <+: metadata.root.components ++ change.components := by
  simp only [accepts, known, List.any_eq_true, Path.startsWith_iff,
    exists_mem_filesForRoot absolute]

/-- A filter cut down to the repository of a commit says the same of the commit. -/
theorem accepts_forRoot (absolute : root.components ≠ []) {metadata : Metadata}
    (same : (metadata.root == root) = true) :
    (filter.forRoot root).accepts metadata = filter.accepts metadata := by
  have components : metadata.root.components = root.components := Path.beq_iff.1 same
  cases known : metadata.changedPaths with
  | none => rw [accepts_of_unknown known, accepts_of_unknown known]
  | some changed =>
    have absolute' : metadata.root.components ≠ [] := by rwa [components]
    rw [Bool.eq_iff_iff, accepts_iff known absolute', accepts_iff known absolute', components]
    simp only [exists_mem_forRoot absolute]

/-- A filter touches the repositories that it has a relative path for. -/
theorem touchesRoot_iff : filter.touchesRoot root = true ↔ filter.filesForRoot root ≠ [] := by
  by_cases inside : filter.paths.any root.startsWith = true
  · obtain ⟨path, mem, above⟩ := List.any_eq_true.1 inside
    rw [filesForRoot_of_startsWith inside]
    have touches : filter.touchesRoot root = true :=
      List.any_eq_true.2 ⟨path, mem, by rw [above, Bool.or_true]⟩
    exact ⟨fun _ => List.cons_ne_nil _ _, fun _ => touches⟩
  · rw [filesForRoot, if_neg inside]
    constructor
    · intro touches
      obtain ⟨path, mem, touch⟩ := List.any_eq_true.1 touches
      have below : path.startsWith root = true := by
        refine ((Bool.or_eq_true _ _).mp touch).resolve_right fun above => ?_
        exact inside (List.any_eq_true.2 ⟨path, mem, above⟩)
      obtain ⟨file, hfile⟩ := Option.isSome_iff_exists.1 (Path.isSome_stripBase?.trans below)
      have relative : file ∈ filter.paths.filterMap (·.stripBase? root) :=
        List.mem_filterMap.2 ⟨path, mem, hfile⟩
      obtain ⟨entry, hentry, -⟩ := (exists_mem_foldl_insertPath (P := fun _ => True)).2
        (.inr ⟨file, relative, trivial⟩)
      exact List.ne_nil_of_mem hentry
    · intro ne
      obtain ⟨file, hfile⟩ := List.exists_mem_of_ne_nil _ ne
      obtain h | h := mem_foldl_insertPath hfile
      · cases h
      · obtain ⟨path, mem, hpath⟩ := List.mem_filterMap.1 h
        have below : path.startsWith root = true := by
          rw [← Path.isSome_stripBase?, hpath, Option.isSome_some]
        exact List.any_eq_true.2 ⟨path, mem, by rw [below, Bool.true_or]⟩

/-- Known changes pass when the filter covers one of them. -/
theorem accepts_withChangedPaths {metadata : Metadata} (absolute : metadata.root.components ≠ [])
    {changed : List Path} {wanted : List String → Prop}
    (spec : ∀ components, (∃ path ∈ changed, path.components = components) ↔
      ∃ names, wanted names ∧ components = names.map .normal) :
    filter.accepts (metadata.withChangedPaths changed) = true ↔
      ∃ names, wanted names ∧ filter.Covers metadata.root names := by
  have known : (metadata.withChangedPaths changed).changedPaths = some changed := rfl
  rw [accepts_iff known absolute]
  constructor
  · rintro ⟨change, mem, covers⟩
    obtain ⟨names, hnames, same⟩ := (spec change.components).1 ⟨change, mem, rfl⟩
    rw [same] at covers
    exact ⟨names, hnames, covers⟩
  · rintro ⟨names, hnames, covers⟩
    obtain ⟨change, mem, same⟩ := (spec (names.map .normal)).2 ⟨names, hnames, rfl⟩
    refine ⟨change, mem, ?_⟩
    rw [same]
    exact covers

/-! ### Containment -/

/-- Paths relative to the root of a repository give the answers of absolute containment.  Changes
that are known pass when one of them, joined to the root, is a path of the filter or lies below
one; changes that are not known do not pass.  The filter cut down to the root gives the same
answers, and there is a relative path exactly if the filter touches the root. -/
theorem accepts_iff_join (root : Path) (absolute : root.isAbsolute = true) (paths : List Path) :
    (∀ metadata : Metadata, (metadata.root == root) = true →
      (∀ changed, metadata.changedPaths = some changed → (∀ change ∈ changed, change.OfNames) →
        ((ofPaths paths).accepts metadata = true ↔
          ∃ change ∈ changed, ∃ path ∈ paths,
            path.components <+: (root.join change).components)) ∧
      (metadata.changedPaths = none → (ofPaths paths).accepts metadata = false) ∧
      ((ofPaths paths).forRoot root).accepts metadata = (ofPaths paths).accepts metadata) ∧
    ((ofPaths paths).touchesRoot root = true ↔ (ofPaths paths).filesForRoot root ≠ []) := by
  have ne := Path.components_ne_nil_of_isAbsolute absolute
  refine ⟨fun metadata same => ⟨fun changed known names => ?_, accepts_of_unknown,
    accepts_forRoot ne same⟩, touchesRoot_iff⟩
  have components : metadata.root.components = root.components := Path.beq_iff.1 same
  rw [accepts_iff known (by rwa [components]), components]
  refine exists_congr fun change => and_congr_right fun mem => ?_
  have joined : (root.join change).components = root.components ++ change.components :=
    Path.components_join (names change mem).split
  rw [joined]
  exact exists_mem_sortPaths (P := (· <+: root.components ++ change.components))

/-- The details of a commit at `/work/app` that changes one file. -/
def changing (file : Path) : Metadata :=
  ⟨0, .zero, ⟨"/work/app"⟩, [], ⟨"Ada", "ada@example.com", 5, 0⟩, 5, "First\n", some [file]⟩

/-- A directory beside the wanted one, and a repository beside this one, may begin with the same
text. -/
theorem accepts_iff_join_src :
    let filter := ofPaths [⟨"/work/app/src/"⟩, ⟨"/work/application"⟩]
    (⟨"/work/app"⟩ : Path).isAbsolute = true ∧
      filter.accepts (changing ⟨"src/lib.rs"⟩) = true ∧
      filter.accepts (changing ⟨"srcs/lib.rs"⟩) = false ∧
      filter.filesForRoot ⟨"/work/app"⟩ ≠ [] := by
  intro filter
  have absolute : (⟨"/work/app"⟩ : Path).isAbsolute = true := by decide
  obtain ⟨matching, touching⟩ :=
    accepts_iff_join ⟨"/work/app"⟩ absolute [⟨"/work/app/src/"⟩, ⟨"/work/application"⟩]
  have inside : (⟨"src/lib.rs"⟩ : Path).OfNames := ⟨["src", "lib.rs"], by decide⟩
  have beside : (⟨"srcs/lib.rs"⟩ : Path).OfNames := ⟨["srcs", "lib.rs"], by decide⟩
  have accepted := (matching (changing ⟨"src/lib.rs"⟩) BEq.rfl).1 _ rfl (by simpa using inside)
  have rejected := (matching (changing ⟨"srcs/lib.rs"⟩) BEq.rfl).1 _ rfl (by simpa using beside)
  refine ⟨absolute, accepted.2 (by decide), ?_, touching.1 (by decide)⟩
  rw [Bool.eq_false_iff, ne_eq, rejected]
  decide

end StructureFilter

/-! ## Selections -/

namespace PathSelection

/-- Whether the file of these names is wanted. -/
def Wants (selection : PathSelection) (names : List String) : Prop :=
  selection.trie.contains names = true

theorem wants_everything (names : List String) : everything.Wants names :=
  Trie.contains_full names

theorem wants_below {selection : PathSelection} {name : String} {rest : List String} :
    (selection.below name).Wants rest ↔ selection.Wants (name :: rest) := by
  rw [Wants, Wants, below, Trie.contains_cons]

theorem allows_of_wants {selection : PathSelection} {name : String} {rest : List String}
    (h : selection.Wants (name :: rest)) : selection.allows name = true :=
  Trie.containsSingle_of_contains h

theorem isMatching_iff {selection : PathSelection} :
    selection.isMatching = true ↔ selection.Wants [] := by
  rw [isMatching, Trie.isMatching_eq_contains, Wants]

/-- Names come from components, so a text that is a name comes from that name. -/
theorem text_eq_iff {name : String} (h : Path.IsName name) {c : Component} :
    c.text = name ↔ c = .normal name := by
  constructor
  · rintro rfl
    cases c with
    | normal name => rfl
    | root | current | parent => exact absurd h (by decide)
  · rintro rfl
    rfl

theorem namesOf_prefix_iff {file : Path} {names : List String}
    (h : ∀ name ∈ names, Path.IsName name) :
    namesOf file <+: names ↔ file.components <+: names.map .normal := by
  unfold namesOf
  generalize file.components = components
  induction components generalizing names with
  | nil => simp
  | cons c components ih =>
    cases names with
    | nil => simp
    | cons name names =>
      rw [List.map_cons, List.map_cons, List.cons_prefix_cons, List.cons_prefix_cons,
        ih fun n hn => h n (List.mem_cons_of_mem _ hn), text_eq_iff (h name List.mem_cons_self)]

/-- The files that the selection of a filter wants are those that the filter covers. -/
theorem wants_filesForRoot {filter : StructureFilter} {root : Path}
    (absolute : root.components ≠ []) {names : List String}
    (h : ∀ name ∈ names, Path.IsName name) :
    (ofPaths (filter.filesForRoot root)).Wants names ↔ filter.Covers root names := by
  rw [Wants, ofPaths, Trie.contains_ofPaths, StructureFilter.Covers,
    ← StructureFilter.exists_mem_filesForRoot absolute]
  simp only [List.mem_map, exists_exists_and_eq_and, namesOf_prefix_iff h]

end PathSelection

end CommitLog
