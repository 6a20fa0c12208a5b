import CommitLog.Proofs.Graph.Heads
import CommitLog.Proofs.Graph.Topological
import CommitLog.Proofs.Path.Order
import CommitLog.Search.Cascade

/-!
# What a search shows

Without a hash filter, a search shows the commits that the matching heads lead to and that the
filters of details let through (`Searcher.commits_search`).  The filters of details are answered for
the indexed repositories at once, and for the others by the cascade (`Searcher.filterDetails_eq`).
-/

namespace CommitLog

theorem contains_visibleRoots {roots : List Path} {rootFilter : Option RootFilter}
    {structureFilter : Option StructureFilter} {root : Path} :
    (visibleRoots roots rootFilter structureFilter).contains root = true ↔
      ∃ r ∈ roots, (r == root) = true ∧
        rootFilter.all (·.contains r) = true ∧ structureFilter.all (·.touchesRoot r) = true := by
  rw [visibleRoots, contains_sortPaths, List.contains_iff_exists_mem_beq]
  simp only [List.mem_filter, Bool.and_eq_true]
  constructor
  · rintro ⟨r, ⟨mem, h⟩, same⟩
    exact ⟨r, mem, BEq.symm same, h⟩
  · rintro ⟨r, mem, same, h⟩
    exact ⟨r, ⟨mem, h⟩, BEq.symm same⟩

theorem filter_contains_congr {filter : RootFilter} {a b : Path} (same : (a == b) = true) :
    filter.contains a = filter.contains b := by
  unfold RootFilter.contains
  congr 1
  funext r
  exact BEq.congr_right same

theorem touchesRoot_congr {filter : StructureFilter} {a b : Path} (same : (a == b) = true) :
    filter.touchesRoot a = filter.touchesRoot b := by
  have same := Path.beq_iff.1 same
  unfold StructureFilter.touchesRoot Path.startsWith
  rw [same]

/-! ## Matching sets -/

namespace MatchingSet

@[simp]
theorem contains_unconstrained (i : CommitIndex) : unconstrained.contains i = true := rfl

@[simp]
theorem contains_only {set : CommitSet} {i : CommitIndex} :
    (only set).contains i = true ↔ i ∈ set := CommitSet.contains_iff

theorem contains_union {matching : MatchingSet} {set : CommitSet} {i : CommitIndex} :
    (matching.union set).contains i = true ↔ matching.contains i = true ∨ i ∈ set := by
  cases matching with
  | unconstrained => simp [union]
  | only own => simp [union, CommitSet.mem_union]

theorem contains_iff {matching : MatchingSet} {i : CommitIndex} :
    matching.contains i = true ↔ ∀ set, matching.set? = some set → i ∈ set := by
  cases matching with
  | unconstrained => simp [set?]
  | only set => simp [set?]

theorem not_contains_of_allowsNothing {matching : MatchingSet}
    (h : matching.allowsNothing = true) (i : CommitIndex) : ¬ matching.contains i = true := by
  cases matching with
  | unconstrained => cases h
  | only set =>
    rw [contains_only]
    exact CommitSet.isEmpty_iff.1 h i

theorem union_empty (matching : MatchingSet) : matching.union .empty = matching := by
  cases matching <;> rfl

end MatchingSet

/-- The matching heads, where there is a constraint. -/
theorem LoadedHistory.matchingHeads_eq (history : LoadedHistory) (roots : List Path)
    (filters : Filters) : history.matchingHeads roots filters = .unconstrained ∧
        filters.branch = none ∧ filters.root = none ∧ filters.paths = none ∨
      ∃ set, history.matchingHeads roots filters = .only set ∧ ∀ h, h ∈ set ↔
        ∃ head ∈ history.heads, (roots.contains head.root = true ∧
          filters.branch.all (·.accepts head.name.text) = true) ∧ head.commit = h := by
  unfold matchingHeads
  split
  · next free =>
    simp only [Bool.and_eq_true, Option.isNone_iff_eq_none] at free
    exact .inl ⟨rfl, free.1.1, free.1.2, free.2⟩
  · refine .inr ⟨_, rfl, fun h => ?_⟩
    simp only [CommitSet.mem_ofList, List.mem_map, List.mem_filter, Bool.and_eq_true, and_assoc]

namespace Searcher

variable {searcher : Searcher} {filters : Filters} {roots : List Path} {stage : Stage}

/-! ## Details in memory -/

theorem of_mem_loadedRun {rows : List GraphCommit} {i : CommitIndex} {m : Metadata}
    (h : (i, m) ∈ searcher.loadedRun rows) :
    searcher.details? i = some m ∧ ∃ row ∈ rows, row.index = i := by
  induction rows with
  | nil => cases h
  | cons row rows ih =>
    unfold loadedRun at h
    split at h
    · next metadata found =>
      rcases List.mem_cons.1 h with same | h
      · cases same
        exact ⟨found, row, List.mem_cons_self, rfl⟩
      · obtain ⟨details, r, hr, same⟩ := ih h
        exact ⟨details, r, List.mem_cons_of_mem _ hr, same⟩
    · cases h

/-- No row is left out when the details of all rows are in memory. -/
theorem mem_loadedRun {rows : List GraphCommit} {i : CommitIndex} {m : Metadata}
    (known : ∀ row ∈ rows, ∃ m, searcher.details? row.index = some m)
    (found : searcher.details? i = some m) (h : ∃ row ∈ rows, row.index = i) :
    (i, m) ∈ searcher.loadedRun rows := by
  induction rows with
  | nil =>
    obtain ⟨row, mem, -⟩ := h
    cases mem
  | cons row rows ih =>
    obtain ⟨own, hown⟩ := known row List.mem_cons_self
    unfold loadedRun
    rw [hown]
    by_cases same : row.index = i
    · rw [same] at hown ⊢
      obtain rfl := Option.some.inj (hown.symm.trans found)
      exact List.mem_cons_self
    · obtain ⟨r, mem, index⟩ := h
      have below : r ∈ rows := (List.mem_cons.1 mem).resolve_left fun eq => same (eq ▸ index)
      exact List.mem_cons_of_mem _
        (ih (fun r hr => known r (List.mem_cons_of_mem _ hr)) ⟨r, below, index⟩)

/-- What the pass through memory finds. -/
theorem of_mem_filterInMemory {graph : PermanentGraph} (wellFormed : graph.WellFormed)
    {heads : MatchingSet} {i : CommitIndex}
    (h : i ∈ searcher.filterInMemory graph filters roots heads) :
    ∃ m, searcher.details? i = some m ∧ roots.contains m.root = true ∧
      filters.acceptsDetails m = true ∧
      ∀ set, heads.set? = some set → ∃ n ∈ set, graph.Leads n i := by
  unfold filterInMemory at h
  rw [CommitSet.mem_ofList] at h
  obtain ⟨⟨_, m⟩, mem, rfl⟩ := List.mem_map.1 h
  obtain ⟨mem, passes⟩ := List.mem_filter.1 mem
  simp only [Bool.and_eq_true] at passes
  obtain ⟨⟨inRoots, accepted⟩, reached⟩ := passes
  refine ⟨m, (of_mem_loadedRun mem).1, inRoots, accepted, ?_⟩
  intro set constraint
  cases heads with
  | unconstrained => cases constraint
  | only own =>
    obtain rfl := Option.some.inj constraint
    exact PermanentGraph.leads_of_meets wellFormed reached

/-- The pass finds whatever passes when all details are in memory and heads do not count. -/
theorem mem_filterInMemory {graph : PermanentGraph} {i : CommitIndex} {m : Metadata}
    (known : ∀ row ∈ graph.rows, ∃ m, searcher.details? row.index = some m)
    (found : searcher.details? i = some m) (h : ∃ row ∈ graph.rows, row.index = i)
    (visible : roots.contains m.root = true) (accepted : filters.acceptsDetails m = true) :
    i ∈ searcher.filterInMemory graph filters roots .unconstrained := by
  unfold filterInMemory
  rw [CommitSet.mem_ofList]
  refine List.mem_map.2 ⟨(i, m), List.mem_filter.2 ⟨mem_loadedRun known found h, ?_⟩, rfl⟩
  dsimp only
  rw [visible, accepted]
  rfl

/-! ## Sources -/

/-- What the sources find together. -/
theorem mem_filterWithSources {i : CommitIndex} :
    (searcher.filterWithSources filters roots stage).matching.contains i = true ↔
      ∃ root ∈ searcher.sources.paths,
        (roots.contains root = true ∧ hasUserNames filters root = true) ∧
        i ∈ searcher.answer ⟨root, filtersFor filters root, stage.limit searcher.budget⟩ := by
  simp only [filterWithSources, MatchingSet.contains_only, CommitSet.mem_ofList, requestsFor,
    List.mem_flatMap, List.mem_map, List.mem_filter, Bool.and_eq_true]
  constructor
  · rintro ⟨_, ⟨root, ⟨mem, h⟩, rfl⟩, found⟩
    exact ⟨root, mem, h, found⟩
  · rintro ⟨root, mem, h, found⟩
    exact ⟨_, ⟨root, ⟨mem, h⟩, rfl⟩, found⟩

/-! ## Index and cascade -/

/-- The first stage is content with enough commits from memory; otherwise the sources are asked, at
the second stage instead of the first. -/
theorem cascade_cases (searcher : Searcher) (graph : PermanentGraph) (filters : Filters)
    (roots : List Path) (heads : MatchingSet) (stage : Stage) :
    let found := searcher.filterInMemory graph filters roots heads
    (stage = .initial ∧ searcher.budget.initial ≤ found.size ∧
      searcher.cascade graph filters roots heads stage = ⟨.only found, true, .initial, []⟩) ∨
    ∃ asked, (stage = .initial ∧ found.size < searcher.budget.initial ∧ asked = .firstStep ∨
        stage ≠ .initial ∧ asked = stage) ∧
      searcher.cascade graph filters roots heads stage =
        searcher.filterWithSources filters roots asked := by
  intro found
  by_cases initial : stage = .initial
  · subst initial
    by_cases enough : searcher.budget.initial ≤ found.size
    · exact .inl ⟨rfl, enough, if_pos enough⟩
    · exact .inr ⟨.firstStep, .inl ⟨rfl, Nat.lt_of_not_le enough, rfl⟩, if_neg enough⟩
  · refine .inr ⟨stage, .inr ⟨initial, rfl⟩, ?_⟩
    cases stage with
    | initial => exact absurd rfl initial
    | firstStep | all => rfl

/-- The filters of details are answered for the indexed repositories, and then for the others, if
there are any. -/
theorem filterDetails_eq {history : LoadedHistory} (some : filters.details ≠ [])
    (able : searcher.index.canFilter filters.detailKinds = true ∨
      ∀ root, searcher.index.isIndexed root = false) :
    let indexed := roots.filter searcher.index.isIndexed
    let others := roots.filter fun root => !searcher.index.isIndexed root
    let found := searcher.index.filter indexed filters
    let rest := searcher.cascade history.graph filters others
      (history.matchingHeads others filters) stage
    searcher.filterDetails history filters stage roots (history.matchingHeads roots filters) =
      if others.isEmpty && !indexed.isEmpty then ⟨.only found, false, stage, []⟩
      else { rest with matching := rest.matching.union found } := by
  intro indexed others found rest
  unfold filterDetails
  rw [if_neg (by simpa using some)]
  by_cases none : indexed.isEmpty = true
  · -- the index has nothing to say
    have allOthers : others = roots := by
      refine List.filter_eq_self.2 ?_
      intro root mem
      by_contra isIndexed
      have : root ∈ indexed := List.mem_filter.2 ⟨mem, by simpa using isIndexed⟩
      rw [List.isEmpty_iff.1 none] at this
      cases this
    have nothing : found = .empty := by
      change searcher.index.filter indexed filters = _
      rw [List.isEmpty_iff.1 none]
      cases searcher.index <;> rfl
    rw [if_pos (by rw [Bool.or_eq_true]; exact .inr none), if_neg (by simp [none])]
    change _ = { rest with matching := rest.matching.union found }
    rw [nothing, MatchingSet.union_empty]
    change searcher.cascade history.graph filters roots _ stage = searcher.cascade history.graph
      filters others (history.matchingHeads others filters) stage
    rw [allOthers]
  · have able : searcher.index.canFilter filters.detailKinds = true := by
      refine able.resolve_right ?_
      intro never
      refine none (List.isEmpty_iff.2 (List.filter_eq_nil_iff.2 ?_))
      intro root _
      simp [never root]
    have answers : ¬ (!searcher.index.canFilter filters.detailKinds || indexed.isEmpty) = true := by
      rw [able, Bool.not_true, Bool.false_or]
      exact none
    rw [if_neg answers]
    by_cases empty : others.isEmpty = true
    · have alone : (others.isEmpty && !indexed.isEmpty) = true := by
        rw [empty, Bool.true_and, Bool.not_eq_true']
        exact Bool.eq_false_iff.2 none
      rw [if_pos alone]
      exact if_pos empty
    · have more : ¬ (others.isEmpty && !indexed.isEmpty) = true := by
        rw [Bool.eq_false_iff.2 empty, Bool.false_and]
        exact Bool.false_ne_true
      rw [if_neg more]
      exact if_neg empty

/-! ## The graph that is shown -/

/-- Without a hash filter, a search shows the view of what the heads lead to and the details allow;
when either allows nothing, that view is empty. -/
theorem rows_search {history : LoadedHistory} (wellFormed : history.graph.WellFormed)
    {sort : SortOrder} (ordered : sort = .date ∨ GraphCommit.ChildrenFirst history.graph.rows)
    (noHash : filters.activeHash? = none) :
    let roots := visibleRoots history.roots filters.root filters.paths
    let heads := history.matchingHeads roots filters
    let matching := (searcher.filterDetails history filters stage roots heads).matching
    (searcher.search history sort filters stage).graph.rows =
      (history.graph.visible sort heads.set? matching.set?).rows := by
  intro roots heads matching
  unfold search
  rw [noHash]
  dsimp only
  split
  · next nothing =>
    have empty : (history.graph.visible sort heads.set? matching.set?).commits = [] := by
      obtain ⟨-, mem⟩ := PermanentGraph.commits_visible wellFormed ordered heads.set? matching.set?
      rw [List.eq_nil_iff_forall_not_mem]
      intro i shown
      obtain ⟨-, reached, allowed⟩ := (mem i).1 shown
      rw [Bool.or_eq_true] at nothing
      rcases nothing with nothing | nothing
      · -- the heads allow nothing, so none of them leads anywhere
        rcases history.matchingHeads_eq roots filters with ⟨free, -⟩ | ⟨set, constraint, -⟩
        · rw [free] at nothing
          cases nothing
        · have only : heads.set? = some set := congrArg MatchingSet.set? constraint
          obtain ⟨h, mem, -⟩ := reached set only
          rw [constraint] at nothing
          exact CommitSet.isEmpty_iff.1 nothing h mem
      · exact MatchingSet.not_contains_of_allowsNothing nothing i
          (MatchingSet.contains_iff.2 allowed)
    exact (List.map_eq_nil_iff.1 empty).symm
  · rfl

/-- Without a hash filter, a search shows what the heads lead to and the details allow. -/
theorem commits_search {history : LoadedHistory} (wellFormed : history.graph.WellFormed)
    {sort : SortOrder} (ordered : sort = .date ∨ GraphCommit.ChildrenFirst history.graph.rows)
    (noHash : filters.activeHash? = none) :
    let roots := visibleRoots history.roots filters.root filters.paths
    let heads := history.matchingHeads roots filters
    let shown := (searcher.search history sort filters stage).graph.commits
    shown.Nodup ∧ ∀ i, i ∈ shown ↔ (∃ c ∈ history.graph.rows, c.index = i) ∧
      (∀ set, heads.set? = some set → ∃ h ∈ set, history.graph.Leads h i) ∧
      (searcher.filterDetails history filters stage roots heads).matching.contains i = true := by
  intro roots heads
  unfold VisibleGraph.commits
  rw [rows_search wellFormed ordered noHash]
  obtain ⟨nodup, mem⟩ := PermanentGraph.commits_visible wellFormed ordered heads.set?
    (searcher.filterDetails history filters stage roots heads).matching.set?
  refine ⟨nodup, fun i => (mem i).trans ?_⟩
  rw [PermanentGraph.Shows, MatchingSet.contains_iff]

/-- Without a hash filter the filters of details say how a search ended. -/
theorem search_outcome {history : LoadedHistory} {sort : SortOrder}
    (noHash : filters.activeHash? = none) :
    let roots := visibleRoots history.roots filters.root filters.paths
    let result := searcher.filterDetails history filters stage roots
      (history.matchingHeads roots filters)
    let found := searcher.search history sort filters stage
    found.canWiden = result.canWiden ∧ found.stage = result.stage ∧
      found.requests = result.requests := by
  intro roots result found
  change (searcher.search history sort filters stage).canWiden = _ ∧
    (searcher.search history sort filters stage).stage = _ ∧
    (searcher.search history sort filters stage).requests = _
  unfold search
  rw [noHash]
  exact ⟨rfl, rfl, rfl⟩

/-- A hash filter decides alone. -/
theorem search_of_hash {history : LoadedHistory} {sort : SortOrder} {hash : HashFilter}
    (h : filters.activeHash? = some hash) :
    let found := searcher.search history sort filters stage
    found.graph = history.graph.visible sort none (searcher.resolveHashes hash) ∧
      found.canWiden = false ∧ found.stage = stage ∧ found.requests = [] := by
  intro found
  have found_eq : found = ⟨history.graph.visible sort none (searcher.resolveHashes hash),
      filters.hashOnly, false, stage, []⟩ := by
    change searcher.search history sort filters stage = _
    unfold search
    rw [h]
  rw [found_eq]
  exact ⟨rfl, rfl, rfl, rfl⟩

end Searcher

end CommitLog
