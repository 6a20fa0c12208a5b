import CommitLog.Proofs.Session.FullSearch

/-!
# Sessions that keep everything in memory

A cache with room for all commits of a session has the details of each of them.  Then the pass
through memory finds every commit that the filters of details admit, as far as no filter looks at
heads or paths (`Session.mem_filterInMemory_iff`).
-/

namespace CommitLog

namespace Session

open Searcher

variable {disk : Disk} {session : Session} {indexed : List Path} {loaded : LoadedRoots}
  {i : CommitIndex} {filters : Filters} {roots : List Path} {paths : List Path}
  {settings : SessionSettings}

theorem Opened.roots_differ (opened : session.Opened disk indexed loaded) :
    (session.repositories.entries.map (·.2)).Pairwise
      fun a b => ¬ (a.root == b.root) = true := by
  refine List.pairwise_map.2 (opened.ascending.imp_of_mem ?_)
  intro a b ha hb before same
  have keys : (a.1 == b.1) = true :=
    BEq.trans (opened.keyed a ha) (BEq.trans same (BEq.symm (opened.keyed b hb)))
  rw [Path.order_eq_iff.2 keys] at before
  cases before

/-- No commit has its details loaded twice, so there are no more of them than commits. -/
theorem Opened.length_metadata_le (opened : session.Opened disk indexed loaded) :
    loaded.metadata.length ≤ session.store.size := by
  have nodup := opened.covers.numbered opened.roots_differ
  have sub : loaded.metadata.map (·.index) ⊆ List.range session.store.size := by
    intro i hi
    obtain ⟨m, hm, rfl⟩ := List.mem_map.1 hi
    obtain ⟨r, -, commit, -, number, -⟩ := (opened.covers.metadata m).1 hm
    rw [← opened.store] at number
    exact List.mem_range.2 (opened.inStep.lt_size_of_indexOf? number)
  have bounded := (List.subperm_of_subset nodup sub).length_le
  rwa [List.length_map, List.length_range] at bounded

/-- The details of all commits are in memory when the cache has room for them. -/
theorem exists_details? (run : openAt paths settings disk = .ok session)
    (room : session.store.size ≤ settings.cacheSize) :
    ∀ row ∈ session.history.graph.rows, ∃ m, (session.searcher disk).details? row.index = some m := by
  intro row mem
  obtain ⟨indexed, loaded, opened, recent⟩ := opened_of_openAt run
  obtain ⟨repository, id, commit, has⟩ := opened.exists_row.1 ⟨row, mem, rfl⟩
  obtain ⟨m, rfl, details⟩ := opened.covers.detailed repository has.opened id commit has.holds
  have index : m.index = row.index := by
    obtain ⟨c, -, number, -⟩ := details
    rw [← opened.store] at number
    exact Option.some.inj (number.symm.trans has.number)
  have loadedOnce := (opened.covers.metadata m).2 ⟨repository, has.opened, details⟩
  obtain ⟨m', found⟩ := RecentCache.exists_get?_store
    (Nat.le_trans opened.length_metadata_le room) loadedOnce
  refine ⟨m', ?_⟩
  show (session.recent.get? row.index).or (session.loaded.get? row.index) = some m'
  rw [recent, ← index, found, Option.some_or]

/-- With room for all commits, the pass through memory finds what the filters of details admit. -/
theorem mem_filterInMemory_iff (run : openAt paths settings disk = .ok session)
    (room : session.store.size ≤ settings.cacheSize) (noPaths : filters.paths = none) :
    i ∈ (session.searcher disk).filterInMemory session.history.graph filters roots .unconstrained ↔
      ∃ repository id commit, session.HasCommit disk i repository id commit ∧
        roots.contains repository.root = true ∧
        filters.AdmitsDetails none repository disk commit := by
  obtain ⟨indexed, loaded, opened, -⟩ := opened_of_openAt run
  have known := exists_details? run room
  have admits {repository : Repository} {id : ObjectId} {commit : Commit} {m : Metadata}
      (describes : repository.Describes id commit m) : filters.acceptsDetails m = true ↔
        filters.AdmitsDetails none repository disk commit := by
    have narrowed := @acceptsDetails_map_iff disk repository id commit filters m describes
      (fun filter => filter)
    rw [Option.map_id'] at narrowed
    refine narrowed fun filter paths => ?_
    rw [noPaths] at paths
    cases paths
  constructor
  · intro h
    obtain ⟨m, found, visible, accepted, -⟩ := of_mem_filterInMemory opened.wellFormed h
    obtain ⟨repository, id, commit, has, describes, -⟩ := opened.memory i m found
    refine ⟨repository, id, commit, has, ?_, (admits describes).1 accepted⟩
    rw [← List.contains_congr describes.root, visible]
  · rintro ⟨repository, id, commit, has, visible, admitted⟩
    have row := opened.exists_row.2 ⟨repository, id, commit, has⟩
    obtain ⟨c, mem, rfl⟩ := row
    obtain ⟨m, found⟩ := known c mem
    obtain ⟨r, id', c', has', describes, -⟩ := opened.memory c.index m found
    obtain ⟨rfl, rfl, rfl⟩ := opened.unique has has'
    refine mem_filterInMemory known found ⟨c, mem, rfl⟩ ?_ ((admits describes).2 admitted)
    rw [List.contains_congr describes.root, visible]

/-- Without an index, the filters of details are answered by the cascade. -/
theorem filterDetails_cascade {heads : MatchingSet} {stage : Stage} (none : session.index = .none)
    (some : filters.details ≠ []) :
    (session.searcher disk).filterDetails session.history filters stage roots heads =
      (session.searcher disk).cascade session.history.graph filters roots heads stage := by
  unfold filterDetails
  rw [if_neg (by simpa using some)]
  show (if (!session.index.canFilter _ || _) = true then _ else _) = _
  rw [none]
  rfl

/-- Without an index, the first stage is content with what is in memory when that is enough. -/
theorem filterDetails_initial {heads : MatchingSet} (none : session.index = .none)
    (some : filters.details ≠ [])
    (enough : session.budget.initial ≤
      ((session.searcher disk).filterInMemory session.history.graph filters roots heads).size) :
    (session.searcher disk).filterDetails session.history filters .initial roots heads =
      ⟨.only ((session.searcher disk).filterInMemory session.history.graph filters roots heads), true,
        .initial, []⟩ := by
  rw [filterDetails_cascade none some]
  rcases cascade_cases (session.searcher disk) session.history.graph filters roots heads .initial with
    ⟨-, -, run⟩ | ⟨_, ⟨-, few, -⟩ | ⟨later, -⟩, -⟩
  · exact run
  · exact absurd enough (Nat.not_le_of_lt few)
  · exact absurd rfl later

/-! ## The sample in memory -/

theorem size_sample (run : openAt [Disk.pathOf Sample.root] settings Sample.disk = .ok session) :
    session.store.size ≤ 2 := by
  obtain ⟨indexed, loaded, opened, -⟩ := opened_of_openAt run
  have ids := opened.covers.ids
  rw [Sample.entries_session run] at ids
  rw [opened.store]
  exact Sample.holdAtMost_repository loaded.store opened.covers.inStep.distinct ids

/-- With limits of one commit the first stage is content with the two in memory. -/
theorem search_sample_initial
    (run : openAt [Disk.pathOf Sample.root] Sample.narrow Sample.disk = .ok session)
    (sort : SortOrder) :
    let result := session.search Sample.disk sort (Sample.since 0) .initial
    result.canWiden = true ∧ result.stage = .initial ∧ ∀ i id commit,
      session.HasCommit Sample.disk i Sample.repository id commit → i ∈ result.graph.commits := by
  intro result
  obtain ⟨indexed, loaded, opened, -⟩ := opened_of_openAt run
  have room : session.store.size ≤ Sample.narrow.cacheSize :=
    Nat.le_trans (size_sample run) (by decide)
  set roots := visibleRoots session.history.roots none none
  have visible (mem : Sample.repository ∈ session.repositories.entries.map (·.2)) :
      roots.contains Sample.repository.root = true :=
    (@Opened.contains_visibleRoots Sample.disk session indexed loaded Sample.repository
      (Sample.since 0) opened mem).2 ⟨rfl, rfl⟩
  set found := (session.searcher Sample.disk).filterInMemory session.history.graph (Sample.since 0)
    roots .unconstrained
  have both (i : CommitIndex) (id : ObjectId) (commit : Commit)
      (has : session.HasCommit Sample.disk i Sample.repository id commit) : i ∈ found := by
    refine (mem_filterInMemory_iff run room rfl).2
      ⟨Sample.repository, id, commit, has, visible has.opened, Filters.admitsDetails_since.2 ?_⟩
    have late : ∀ c ∈ Sample.commits,
        (Time.Instant.ofSeconds 0).notAfter c.2.author.instant = true := by
      decide
    exact late _ (Sample.readable_repository.2 id commit has.holds)
  have enough : session.budget.initial ≤ found.size := by
    obtain ⟨i, has⟩ := opened.exists_number (List.mem_map_of_mem (Sample.mem_entries run))
      (Sample.holds_commits List.mem_cons_self)
    have one := @CommitSet.length_le_size found [i] (List.nodup_singleton i) fun n hn => by
      rw [List.mem_singleton.1 hn]
      exact both i _ _ has
    rw [budget_of_openAt run]
    exact one
  have details := @filterDetails_initial Sample.disk session (Sample.since 0) roots .unconstrained
    (index_of_openAt run rfl) (by decide) enough
  obtain ⟨canWiden, stage, -⟩ := @search_outcome (session.searcher Sample.disk) (Sample.since 0)
    .initial session.history sort rfl
  have shows := (@Opened.commits_search Sample.disk session indexed loaded (Sample.since 0) .initial
    opened sort (.inr (Sample.acyclic_entries run)) rfl).2
  refine ⟨canWiden.trans (congrArg DetailsResult.canWiden details),
    stage.trans (congrArg DetailsResult.stage details), ?_⟩
  intro i id commit has
  refine (shows i).2 ⟨⟨_, id, commit, has, visible has.opened, has.holds.reaches⟩, ?_⟩
  refine (congrArg (fun result => result.matching.contains i) details).trans ?_
  exact MatchingSet.contains_only.2 (both i id commit has)

end Session

end CommitLog
