import CommitLog.Proofs.Search.Shown

/-!
# What a search depends on

The cascade answers for the visible repositories that the index leaves over
(`Searcher.leftRoots`), unless there is no filter of details or nothing is left over
(`Searcher.Cascades`).  At the first stage it is content with what is in memory
(`Searcher.inMemory`) when that is enough, and then the sources do not matter; at later stages what
is in memory does not matter (`Searcher.search_dependence`).

    budget.initial ≤ inMemory.size → { searcher with sources }.search … .initial =
      searcher.search … .initial
    stage ≠ .initial → { searcher with recent, loaded }.search … stage = searcher.search … stage
-/

namespace CommitLog

namespace Searcher

/-- Whether the index answers the filters of details for a repository. -/
def answers (searcher : Searcher) (filters : Filters) (root : Path) : Bool :=
  searcher.index.canFilter filters.detailKinds && searcher.index.isIndexed root

/-- The visible repositories that the index leaves over. -/
def leftRoots (searcher : Searcher) (history : LoadedHistory) (filters : Filters) : List Path :=
  (visibleRoots history.roots filters.root filters.paths).filter fun root =>
    !searcher.answers filters root

/-- Whether a search comes to the cascade: there are filters of details, and the index does not
answer for all of one or more visible repositories. -/
def Cascades (searcher : Searcher) (history : LoadedHistory) (filters : Filters) : Prop :=
  filters.details ≠ [] ∧ (visibleRoots history.roots filters.root filters.paths = [] ∨
    searcher.leftRoots history filters ≠ [])

/-- What the pass through memory finds for the cascade. -/
def inMemory (searcher : Searcher) (history : LoadedHistory) (filters : Filters) : CommitSet :=
  searcher.filterInMemory history.graph filters (searcher.leftRoots history filters)
    (history.matchingHeads (searcher.leftRoots history filters) filters)

end Searcher

/-- A head that matches in some repositories matches in any that have these among them. -/
theorem LoadedHistory.mem_matchingHeads_mono {history : LoadedHistory} {filters : Filters}
    {some all : List Path} (sub : some ⊆ all) {set : CommitSet}
    (constraint : (history.matchingHeads all filters).set? = .some set) :
    ∃ own, (history.matchingHeads some filters).set? = .some own ∧ ∀ h ∈ own, h ∈ set := by
  unfold matchingHeads at constraint ⊢
  split at constraint
  · cases constraint
  · next constrained =>
    obtain rfl := Option.some.inj constraint
    rw [if_neg constrained]
    refine ⟨_, rfl, fun h mem => ?_⟩
    rw [CommitSet.mem_ofList] at mem ⊢
    obtain ⟨head, hhead, rfl⟩ := List.mem_map.1 mem
    obtain ⟨known, passes⟩ := List.mem_filter.1 hhead
    rw [Bool.and_eq_true] at passes
    refine List.mem_map_of_mem (List.mem_filter.2 ⟨known, ?_⟩)
    rw [Bool.and_eq_true]
    obtain ⟨root, hroot, same⟩ := List.contains_iff_exists_mem_beq.1 passes.1
    exact ⟨List.contains_iff_exists_mem_beq.2 ⟨root, sub hroot, same⟩, passes.2⟩

namespace Searcher

variable {searcher : Searcher} {history : LoadedHistory} {filters : Filters} {stage : Stage}

/-! ## Memory -/

theorem exists_row_of_mem_filterInMemory {graph : PermanentGraph} {roots : List Path}
    {heads : MatchingSet} {i : CommitIndex}
    (h : i ∈ searcher.filterInMemory graph filters roots heads) :
    ∃ row ∈ graph.rows, row.index = i := by
  unfold filterInMemory at h
  rw [CommitSet.mem_ofList] at h
  obtain ⟨⟨_, m⟩, mem, rfl⟩ := List.mem_map.1 h
  exact (of_mem_loadedRun (List.mem_filter.1 mem).1).2

theorem loadedRun_sources (sources : PathTable LogSource) (rows : List GraphCommit) :
    ({ searcher with sources := sources } : Searcher).loadedRun rows = searcher.loadedRun rows := by
  induction rows with
  | nil => rfl
  | cons row rows ih =>
    unfold loadedRun
    rw [ih]
    rfl

/-- The sources do not matter for what is found in memory. -/
theorem filterInMemory_sources {graph : PermanentGraph} {roots : List Path} {heads : MatchingSet}
    (sources : PathTable LogSource) :
    ({ searcher with sources := sources } : Searcher).filterInMemory graph filters roots heads =
      searcher.filterInMemory graph filters roots heads := by
  unfold filterInMemory
  simp only [loadedRun_sources]

theorem inMemory_sources (sources : PathTable LogSource) :
    ({ searcher with sources := sources } : Searcher).inMemory history filters =
      searcher.inMemory history filters :=
  filterInMemory_sources sources

/-! ## Index and cascade -/

/-- Nothing is left over only if the index can answer. -/
theorem canFilter_of_leftRoots
    (visible : visibleRoots history.roots filters.root filters.paths ≠ [])
    (left : searcher.leftRoots history filters = []) :
    searcher.index.canFilter filters.detailKinds = true := by
  obtain ⟨root, mem⟩ := List.exists_mem_of_ne_nil _ visible
  have answered : searcher.answers filters root = true := by
    simpa using List.filter_eq_nil_iff.1 left root mem
  exact (Bool.and_eq_true_iff.1 answered).1

theorem leftRoots_eq (able : searcher.index.canFilter filters.detailKinds = true) :
    searcher.leftRoots history filters =
      (visibleRoots history.roots filters.root filters.paths).filter fun root =>
        !searcher.index.isIndexed root := by
  simp only [leftRoots, answers, able, Bool.true_and]

/-- With the cascade, its answer and that of the index are put together. -/
theorem filterDetails_of_cascades (cascades : searcher.Cascades history filters) :
    let roots := visibleRoots history.roots filters.root filters.paths
    let left := searcher.leftRoots history filters
    let found := searcher.index.filter (roots.filter (searcher.answers filters)) filters
    let rest := searcher.cascade history.graph filters left (history.matchingHeads left filters)
      stage
    searcher.filterDetails history filters stage roots (history.matchingHeads roots filters) =
      { rest with matching := rest.matching.union found } := by
  intro roots left found rest
  obtain ⟨details, remains⟩ := cascades
  cases able : searcher.index.canFilter filters.detailKinds with
  | false =>
    have own : roots.filter (searcher.answers filters) = [] := by
      simp [answers, able]
    have nothing : found = .empty := by
      change searcher.index.filter _ filters = _
      rw [own]
      cases searcher.index <;> rfl
    have all : left = roots := by
      simp [left, leftRoots, answers, able, roots]
    have rest_eq : rest = searcher.cascade history.graph filters roots
        (history.matchingHeads roots filters) stage := by
      change searcher.cascade history.graph filters left _ stage = _
      rw [all]
    rw [nothing, MatchingSet.union_empty, rest_eq]
    unfold filterDetails
    rw [if_neg (by simpa using details), if_pos (by simp [able])]
  | true =>
    have own : roots.filter (searcher.answers filters) = roots.filter searcher.index.isIndexed :=
      List.filter_congr fun root _ => by simp [answers, able]
    have goesOn : ¬ ((roots.filter fun root => !searcher.index.isIndexed root).isEmpty &&
        !(roots.filter searcher.index.isIndexed).isEmpty) = true := by
      rcases remains with none | remains
      · simp [roots, none]
      · rw [leftRoots_eq able] at remains
        simp [roots, List.isEmpty_eq_false_iff.2 remains]
    have left_eq : left = roots.filter fun root => !searcher.index.isIndexed root :=
      leftRoots_eq able
    rw [filterDetails_eq details (.inl able), if_neg goesOn]
    simp only [rest, found, left_eq, own]

/-- Without the cascade, the search ends at the stage where it has begun. -/
theorem filterDetails_of_not_cascades (cascades : ¬ searcher.Cascades history filters) :
    let roots := visibleRoots history.roots filters.root filters.paths
    (searcher.filterDetails history filters stage roots
      (history.matchingHeads roots filters)).stage = stage := by
  intro roots
  by_cases details : filters.details = []
  · unfold filterDetails
    rw [if_pos (by simpa using details)]
  · have visible : roots ≠ [] := fun none => cascades ⟨details, .inl none⟩
    have left : searcher.leftRoots history filters = [] := by
      by_contra remains
      exact cascades ⟨details, .inr remains⟩
    have able := canFilter_of_leftRoots visible left
    rw [leftRoots_eq able] at left
    have indexed : roots.filter searcher.index.isIndexed = roots := by
      refine List.filter_eq_self.2 fun root mem => ?_
      simpa using List.filter_eq_nil_iff.1 left root mem
    rw [filterDetails_eq details (.inl able), if_pos]
    simp [roots, left, indexed, visible]

/-- The cascade of the first stage is content with enough commits in memory. -/
theorem filterDetails_of_enough (cascades : searcher.Cascades history filters)
    (enough : searcher.budget.initial ≤ (searcher.inMemory history filters).size) :
    let roots := visibleRoots history.roots filters.root filters.paths
    searcher.filterDetails history filters .initial roots (history.matchingHeads roots filters) =
      ⟨.only ((searcher.inMemory history filters).union
        (searcher.index.filter (roots.filter (searcher.answers filters)) filters)),
        true, .initial, []⟩ := by
  intro roots
  have content : searcher.cascade history.graph filters (searcher.leftRoots history filters)
      (history.matchingHeads (searcher.leftRoots history filters) filters) .initial =
        ⟨.only (searcher.inMemory history filters), true, .initial, []⟩ := if_pos enough
  rw [filterDetails_of_cascades cascades, content]
  rfl

/-- When there is enough in memory, the sources do not matter. -/
theorem filterDetails_sources (cascades : searcher.Cascades history filters)
    (enough : searcher.budget.initial ≤ (searcher.inMemory history filters).size)
    (sources : PathTable LogSource) :
    let roots := visibleRoots history.roots filters.root filters.paths
    ({ searcher with sources := sources } : Searcher).filterDetails history filters .initial roots
        (history.matchingHeads roots filters) =
      searcher.filterDetails history filters .initial roots
        (history.matchingHeads roots filters) := by
  intro roots
  have enough' : searcher.budget.initial ≤
      (({ searcher with sources := sources } : Searcher).inMemory history filters).size := by
    rw [inMemory_sources]
    exact enough
  have own := @filterDetails_of_enough { searcher with sources := sources } history filters
    cascades enough'
  rw [inMemory_sources] at own
  exact own.trans (filterDetails_of_enough cascades enough).symm

/-- After the first stage the cascade does not look at what is in memory. -/
theorem filterDetails_memory (later : stage ≠ .initial) (recent : RecentCache)
    (loaded : MetadataStore) (roots : List Path) (heads : MatchingSet) :
    ({ searcher with recent := recent, loaded := loaded } : Searcher).filterDetails history filters
      stage roots heads = searcher.filterDetails history filters stage roots heads := by
  have asks (own : Searcher) (left : List Path) (matching : MatchingSet) :
      own.cascade history.graph filters left matching stage =
        own.filterWithSources filters left stage := if_neg (by simpa [Stage.isInitial] using later)
  unfold filterDetails
  simp only [asks]
  rfl

/-! ## The search -/

/-- Only through the filters of details does a search depend on sources, memory and index. -/
theorem search_congr {other : Searcher} {sort : SortOrder} (noHash : filters.activeHash? = none)
    (same : let roots := visibleRoots history.roots filters.root filters.paths
      other.filterDetails history filters stage roots (history.matchingHeads roots filters) =
        searcher.filterDetails history filters stage roots (history.matchingHeads roots filters)) :
    other.search history sort filters stage = searcher.search history sort filters stage := by
  unfold search
  rw [noHash]
  simp only [same]

/-- After the first stage a search does not look at what is in memory. -/
theorem search_memory {sort : SortOrder} (later : stage ≠ .initial) (recent : RecentCache)
    (loaded : MetadataStore) :
    ({ searcher with recent := recent, loaded := loaded } : Searcher).search history sort filters
      stage = searcher.search history sort filters stage := by
  cases hash : filters.activeHash? with
  | none => exact search_congr hash (filterDetails_memory later recent loaded _ _)
  | some hashes =>
    unfold search
    rw [hash]
    rfl

/-- The stage goes up only where the cascade finds too little in memory. -/
theorem stage_search {sort : SortOrder} (noHash : filters.activeHash? = none) :
    let found := (searcher.search history sort filters stage).stage
    (stage = .initial ∧ searcher.Cascades history filters ∧
      (searcher.inMemory history filters).size < searcher.budget.initial → found = .firstStep) ∧
    (¬ (stage = .initial ∧ searcher.Cascades history filters ∧
      (searcher.inMemory history filters).size < searcher.budget.initial) → found = stage) := by
  intro found
  obtain ⟨-, ends, -⟩ :=
    @search_outcome searcher filters stage history sort noHash
  change found = _ at ends
  rw [ends]
  by_cases cascades : searcher.Cascades history filters
  · rw [filterDetails_of_cascades cascades]
    rcases searcher.cascade_cases history.graph filters (searcher.leftRoots history filters)
      (history.matchingHeads (searcher.leftRoots history filters) filters) stage with
      ⟨rfl, enough, content⟩ | ⟨asked, ⟨rfl, short, rfl⟩ | ⟨later, rfl⟩, asks⟩
    · rw [content]
      exact ⟨fun h => absurd enough (Nat.not_le_of_lt h.2.2), fun _ => rfl⟩
    · rw [asks]
      exact ⟨fun _ => rfl, fun h => absurd ⟨rfl, cascades, short⟩ h⟩
    · rw [asks]
      exact ⟨fun h => absurd h.1 later, fun _ => rfl⟩
  · rw [filterDetails_of_not_cascades cascades]
    exact ⟨fun h => absurd h.2.1 cascades, fun _ => rfl⟩

/-- What the pass through memory finds is shown, whatever else is. -/
theorem size_inMemory_le {sort : SortOrder} (wellFormed : history.graph.WellFormed)
    (ordered : sort = .date ∨ GraphCommit.ChildrenFirst history.graph.rows)
    (noHash : filters.activeHash? = none) (cascades : searcher.Cascades history filters)
    (enough : searcher.budget.initial ≤ (searcher.inMemory history filters).size) :
    (searcher.inMemory history filters).size ≤
      (searcher.search history sort filters .initial).graph.commits.length := by
  obtain ⟨-, shown⟩ := @commits_search searcher filters .initial history wellFormed sort ordered
    noHash
  have nodup : (searcher.inMemory history filters).members.Nodup :=
    (searcher.inMemory history filters).ascending.imp Nat.ne_of_lt
  refine (nodup.subperm ?_).length_le
  intro i mem
  have found : i ∈ searcher.inMemory history filters := mem
  obtain ⟨-, -, -, -, reached⟩ := of_mem_filterInMemory wellFormed found
  refine (shown i).2 ⟨exists_row_of_mem_filterInMemory found, fun set constraint => ?_, ?_⟩
  · -- the heads of the repositories that are left over are among those of the visible ones
    obtain ⟨own, only, sub⟩ :=
      LoadedHistory.mem_matchingHeads_mono (List.filter_sublist.subset) constraint
    obtain ⟨h, hown, leads⟩ := reached own only
    exact ⟨h, sub h hown, leads⟩
  · rw [filterDetails_of_enough cascades enough]
    exact MatchingSet.contains_only.2 (CommitSet.mem_union.2 (.inl found))

/-- **What a search without hashes depends on.**  It ends at the stage where it has begun, or at the
second when the cascade of the first finds too little in memory.  When it finds enough, sources are
neither asked nor do they matter, a wider stage may find more, and in a graph without cycles no
commit found in memory is lost.  After the first stage what is in memory does not matter. -/
theorem search_dependence (searcher : Searcher) (history : LoadedHistory) (sort : SortOrder)
    (filters : Filters) (stage : Stage) (noHash : filters.activeHash? = none) :
    let result := searcher.search history sort filters stage
    let found := searcher.inMemory history filters
    (stage = .initial ∧ searcher.Cascades history filters ∧ found.size < searcher.budget.initial →
      result.stage = .firstStep) ∧
    (¬ (stage = .initial ∧ searcher.Cascades history filters ∧
      found.size < searcher.budget.initial) → result.stage = stage) ∧
    (stage = .initial → searcher.Cascades history filters →
      searcher.budget.initial ≤ found.size →
        (∀ sources, ({ searcher with sources := sources } : Searcher).search history sort filters
          stage = result) ∧
        result.requests = [] ∧ result.canWiden = true ∧
        ∀ commits tips, history.graph = .ofCommits commits tips → GraphCommit.Acyclic commits →
          found.size ≤ result.graph.commits.length) ∧
    (stage ≠ .initial → ∀ recent loaded,
      ({ searcher with recent := recent, loaded := loaded } : Searcher).search history sort filters
        stage = result) := by
  intro result found
  obtain ⟨goesUp, stays⟩ := @stage_search searcher history filters stage sort noHash
  refine ⟨goesUp, stays, ?_, ?_⟩
  · rintro rfl cascades enough
    obtain ⟨widens, -, asked⟩ := @search_outcome searcher filters .initial history sort noHash
    rw [filterDetails_of_enough cascades enough] at widens asked
    refine ⟨fun sources => search_congr noHash (filterDetails_sources cascades enough sources),
      asked, widens, ?_⟩
    intro commits tips graph acyclic
    refine size_inMemory_le ?_ (.inr ?_) noHash cascades enough
    · rw [graph]
      exact PermanentGraph.wellFormed_ofCommits commits tips
    · rw [graph]
      exact PermanentGraph.childrenFirst_ofCommits tips acyclic
  · intro later recent loaded
    exact search_congr noHash (filterDetails_memory later recent loaded _ _)

/-! ## An example -/

namespace Remembered

def root : Path := ⟨"/a"⟩

def metadata : Metadata :=
  ⟨0, .zero, root, [], ⟨"Ada", "ada@example.com", 5, 0⟩, 5, "First\n", none⟩

def oneCommit : LoadedHistory := ⟨.ofCommits [⟨0, [], 5⟩] [0], [], [root]⟩

/-- The details of the commit are in memory, and one commit is enough for the first stage. -/
def remembering : Searcher :=
  ⟨.empty, .empty 0, MetadataStore.empty.insert metadata, .empty, .none, ⟨1, 10⟩⟩

/-- A window of time without bounds. -/
def anyTime : Filters := { Filters.none with date := some ⟨none, none⟩ }

theorem contains_leftRoots : (remembering.leftRoots oneCommit anyTime).contains root = true := by
  have visible : (visibleRoots oneCommit.roots none none).contains root = true :=
    contains_visibleRoots.2 ⟨root, List.mem_singleton_self root, BEq.rfl, rfl, rfl⟩
  have all : remembering.leftRoots oneCommit anyTime = visibleRoots oneCommit.roots none none :=
    List.filter_eq_self.2 fun _ _ => rfl
  rw [all]
  exact visible

theorem cascades : remembering.Cascades oneCommit anyTime := by
  refine ⟨List.cons_ne_nil _ _, .inr fun none => ?_⟩
  have known := contains_leftRoots
  rw [none] at known
  cases known

theorem mem_inMemory : 0 ∈ remembering.inMemory oneCommit anyTime := by
  have known : remembering.details? 0 = some metadata := by
    simp [details?, remembering, RecentCache.get?, RecentCache.empty, MetadataStore.get?,
      MetadataStore.insert, metadata]
  refine mem_filterInMemory (fun row mem => ?_) known ?_ contains_leftRoots rfl
  · obtain ⟨c, hc, same⟩ := PermanentGraph.exists_row_ofCommits.1 ⟨row, mem, rfl⟩
    rw [List.mem_singleton.1 hc] at same
    exact ⟨metadata, same ▸ known⟩
  · exact PermanentGraph.exists_row_ofCommits.2 ⟨_, List.mem_singleton_self _, rfl⟩

end Remembered

open Remembered

/-- At the first stage the commit in memory is shown, whatever the sources are; at the last stage
memory is not looked at. -/
theorem search_dependence_memory :
    let result := remembering.search oneCommit .topological anyTime .initial
    anyTime.activeHash? = none ∧ result.stage = .initial ∧ result.canWiden = true ∧
      1 ≤ result.graph.commits.length ∧
      (∀ sources, ({ remembering with sources := sources } : Searcher).search
        oneCommit .topological anyTime .initial = result) ∧
      ∀ recent loaded,
        ({ remembering with recent := recent, loaded := loaded } : Searcher).search
          oneCommit .topological anyTime .all =
        remembering.search oneCommit .topological anyTime .all := by
  intro result
  have enough : 1 ≤ (remembering.inMemory oneCommit anyTime).size :=
    CommitSet.length_le_size (List.nodup_singleton 0) fun n mem =>
      List.mem_singleton.1 mem ▸ mem_inMemory
  obtain ⟨-, stays, content, -⟩ := search_dependence remembering oneCommit
    .topological anyTime .initial rfl
  obtain ⟨-, -, -, forgets⟩ := search_dependence remembering oneCommit
    .topological anyTime .all rfl
  obtain ⟨alone, -, widens, shown⟩ := content rfl cascades enough
  have acyclic : GraphCommit.Acyclic [⟨0, [], 5⟩] := GraphCommit.acyclic_of_rank id (by decide)
  exact ⟨rfl, stays fun h => absurd enough (Nat.not_le_of_lt h.2.2), widens,
    Nat.le_trans enough (shown _ _ rfl acyclic), alone, forgets nofun⟩

end Searcher

end CommitLog
