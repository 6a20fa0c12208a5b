import CommitLog.Proofs.Session.FullSearch

/-!
# Stages of a search of a session

Whatever an early stage shows is shown at the last stage, and a search that says that no wider stage
shows more is complete (`Session.IsOpen.commits_subset_all`).

    session.IsOpen disk → i ∈ shown at stage → i ∈ shown at the last stage
    session.IsOpen disk → canWiden = false → i ∈ shown at the last stage → i ∈ shown at stage
-/

namespace CommitLog

namespace Session

open Searcher

variable {disk : Disk} {session : Session} {indexed : List Path} {loaded : LoadedRoots}
  {i : CommitIndex} {repository : Repository} {id : ObjectId} {commit : Commit} {filters : Filters}
  {roots : List Path} {stage : Stage} {m : Metadata}

/-! ## The pass through memory -/

/-- A repository that the index does not answer for is not to be indexed. -/
theorem Opened.not_asked (opened : session.Opened disk indexed loaded)
    (uncovered : ∀ root ∈ roots, session.index.isIndexed root = false)
    (mem : repository ∈ session.repositories.entries.map (·.2))
    (visible : roots.contains repository.root = true) :
    ¬ indexed.contains repository.root = true := by
  intro asked
  obtain ⟨root, hroot, same⟩ := List.contains_iff_exists_mem_beq.1 visible
  have covered := (opened.isIndexed_iff mem same).2 asked
  rw [uncovered root hroot] at covered
  cases covered

theorem filtersFor_of_none (paths : filters.paths = none) (root : Path) :
    filtersFor filters root = filters := by
  unfold filtersFor
  rw [paths, Option.map_none, ← paths]

/-- A commit is judged by the details that describe it when no paths are filtered. -/
theorem judge_eq (has : session.HasCommit disk i repository id commit)
    (describes : repository.Describes id commit m) (paths : filters.paths = none) :
    repository.judge disk session.store filters ⟨id, commit⟩ = .ok (filters.acceptsDetails m) := by
  unfold Repository.judge CommitStore.metadata?
  rw [has.number]
  simp only [Option.map_some, paths]
  refine congrArg Except.ok (Filters.acceptsDetails_congr paths describes.author.symm
    describes.message.symm ?_)
  exact BEq.symm describes.root

/-- What the pass through memory finds, the sources select. -/
theorem Opened.selects_of_memory (opened : session.Opened disk indexed loaded)
    (uncovered : ∀ root ∈ roots, session.index.isIndexed root = false)
    (h : i ∈ (session.searcher disk).filterInMemory session.history.graph filters roots
      (session.history.matchingHeads roots filters)) : session.Selects disk filters roots i := by
  obtain ⟨m, known, visible, accepted, reached⟩ := of_mem_filterInMemory opened.wellFormed h
  obtain ⟨repository, id, commit, has, describes, changed⟩ := opened.memory i m known
  obtain ⟨entry, hentry, rfl⟩ := List.mem_map.1 has.opened
  have same : (m.root == entry.1) = true :=
    BEq.trans describes.root (BEq.symm (opened.keyed entry hentry))
  have visible' : roots.contains entry.2.root = true := by
    rw [← List.contains_congr describes.root, visible]
  have details := Filters.acceptsDetails_iff.1 accepted
  -- the changed files are not known, so a filter of paths would not have let the commit through
  have paths : filters.paths = none := by
    cases paths : filters.paths with
    | none => rfl
    | some filter =>
      have accepted := details.2.2.2 filter paths
      unfold StructureFilter.accepts at accepted
      cases files : m.changedPaths with
      | none =>
        rw [files] at accepted
        cases accepted
      | some _ =>
        exact absurd (changed (by rw [files]; rfl))
          (opened.not_asked uncovered has.opened visible')
  have users : hasUserNames filters entry.1 = true := by
    unfold hasUserNames
    cases user : filters.user with
    | none => rfl
    | some filter =>
      rw [Option.all_some, ← UserFilter.userNames_congr same,
        UserFilter.userNames_ne_nil (UserFilter.accepts_iff.1 (details.1 filter user))]
      rfl
  refine ⟨entry, hentry, ⟨by rw [← List.contains_congr same, visible], users⟩, id, commit, has, ?_⟩
  rw [filtersFor_of_none paths]
  refine ⟨has.holds.1, opened.reaches_of_heads has reached, ?_⟩
  rw [judge_eq has describes paths, accepted]

/-! ## The cascade -/

/-- A stage of the cascade finds nothing that the sources do not find without limit. -/
theorem Opened.cascade_subset (opened : session.Opened disk indexed loaded)
    (uncovered : ∀ root ∈ roots, session.index.isIndexed root = false)
    (answered : ∀ request ∈
      ((session.searcher disk).filterWithSources filters roots .all).requests,
      session.Answers disk request)
    (h : ((session.searcher disk).cascade session.history.graph filters roots
      (session.history.matchingHeads roots filters) stage).matching.contains i = true) :
    ((session.searcher disk).filterWithSources filters roots .all).matching.contains i = true := by
  refine opened.contains_of_selects answered (.inl rfl) ?_
  rcases cascade_cases (session.searcher disk) session.history.graph filters roots
    (session.history.matchingHeads roots filters) stage with ⟨-, -, run⟩ | ⟨asked, -, run⟩
  · rw [run, MatchingSet.contains_only] at h
    exact opened.selects_of_memory uncovered h
  · rw [run] at h
    exact opened.selects_of_contains h

/-- A stage that cannot widen finds all that the sources find without limit. -/
theorem Opened.cascade_complete (opened : session.Opened disk indexed loaded)
    (answered : ∀ request ∈
      ((session.searcher disk).filterWithSources filters roots .all).requests,
      session.Answers disk request)
    (done : ((session.searcher disk).cascade session.history.graph filters roots
      (session.history.matchingHeads roots filters) stage).canWiden = false)
    (h : ((session.searcher disk).filterWithSources filters roots .all).matching.contains i =
      true) : ((session.searcher disk).cascade session.history.graph filters roots
        (session.history.matchingHeads roots filters) stage).matching.contains i = true := by
  rcases cascade_cases (session.searcher disk) session.history.graph filters roots
    (session.history.matchingHeads roots filters) stage with ⟨-, -, run⟩ | ⟨asked, -, run⟩
  · rw [run] at done
    cases done
  · rw [run] at done ⊢
    exact opened.contains_of_selects (opened.answers_of_all answered) (.inr done)
      (opened.selects_of_contains h)

/-! ## Stages of a search -/

/-- The filters of details let no more through at a stage than at the last one, and no less when
the stage cannot widen. -/
theorem Opened.filterDetails_all (opened : session.Opened disk indexed loaded)
    (answered : ∀ request ∈ ((session.searcher disk).filterDetails session.history filters .all
      roots (session.history.matchingHeads roots filters)).requests,
      session.Answers disk request) :
    let early := (session.searcher disk).filterDetails session.history filters stage roots
      (session.history.matchingHeads roots filters)
    let full := (session.searcher disk).filterDetails session.history filters .all roots
      (session.history.matchingHeads roots filters)
    (∀ i, early.matching.contains i = true → full.matching.contains i = true) ∧
      (early.canWiden = false →
        ∀ i, full.matching.contains i = true → early.matching.contains i = true) := by
  intro early full
  rcases opened.filterDetails_cases filters roots with
    ⟨-, same⟩ | ⟨-, -, same⟩ | ⟨-, split⟩
  · have early_eq : early = _ := same stage
    have full_eq : full = _ := same .all
    rw [early_eq, full_eq]
    exact ⟨fun _ h => h, fun _ _ h => h⟩
  · have early_eq : early = _ := same stage
    have full_eq : full = _ := same .all
    rw [early_eq, full_eq]
    exact ⟨fun _ h => h, fun _ _ h => h⟩
  · have early_eq : early = _ := split stage
    have full_eq : full = _ := split .all
    change ∀ request ∈ full.requests, _ at answered
    rw [full_eq] at answered
    rw [early_eq, full_eq]
    refine ⟨fun i h => ?_, fun done i h => ?_⟩
    · rw [MatchingSet.contains_union] at h ⊢
      refine h.imp_left fun h => ?_
      exact opened.cascade_subset (fun _ mem => not_isIndexed_of_mem mem) answered h
    · rw [MatchingSet.contains_union] at h ⊢
      exact h.imp_left fun h => opened.cascade_complete answered done h

theorem Opened.commits_subset (opened : session.Opened disk indexed loaded) {sort : SortOrder}
    (ordered : sort = .date ∨
      ∀ repository ∈ session.repositories.entries.map (·.2), repository.Acyclic disk)
    (answered : ∀ request ∈ (session.search disk sort filters .all).requests,
      session.Answers disk request) :
    let early := session.search disk sort filters stage
    let full := session.search disk sort filters .all
    (∀ i ∈ early.graph.commits, i ∈ full.graph.commits) ∧
      (early.canWiden = false → ∀ i ∈ full.graph.commits, i ∈ early.graph.commits) := by
  intro early full
  cases hash : (session.resolveUser filters).activeHash? with
  | some hashes =>
    have same : early.graph = full.graph := (search_of_hash hash).1.trans (search_of_hash hash).1.symm
    rw [same]
    exact ⟨fun _ h => h, fun _ _ h => h⟩
  | none =>
    have shown (stage : Stage) := (@Opened.commits_search disk session indexed loaded
      (session.resolveUser filters) stage opened sort ordered hash).2
    have outcome (stage : Stage) := @search_outcome (session.searcher disk)
      (session.resolveUser filters) stage session.history sort hash
    have requests : full.requests = _ := (outcome .all).2.2
    change ∀ request ∈ full.requests, _ at answered
    rw [requests] at answered
    obtain ⟨fewer, complete⟩ := @Opened.filterDetails_all disk session indexed loaded
      (session.resolveUser filters) _ stage opened answered
    refine ⟨fun i h => ?_, fun done i h => ?_⟩
    · obtain ⟨eligible, allowed⟩ := (shown stage i).1 h
      exact (shown .all i).2 ⟨eligible, fewer i allowed⟩
    · obtain ⟨eligible, allowed⟩ := (shown .all i).1 h
      have canWiden : early.canWiden = _ := (outcome stage).1
      rw [canWiden] at done
      exact (shown stage i).2 ⟨eligible, complete done i allowed⟩

/-- **An early stage shows nothing that the last stage does not show, and shows everything when it
says that no wider stage shows more.** -/
theorem IsOpen.commits_subset_all (isOpen : IsOpen disk session)
    (acyclic : ∀ repository ∈ session.repositories.entries.map (·.2), repository.Acyclic disk)
    (sort : SortOrder) (filters : Filters) (stage : Stage)
    (answered : ∀ request ∈ (session.search disk sort filters .all).requests,
      session.Answers disk request) :
    let early := session.search disk sort filters stage
    let full := session.search disk sort filters .all
    (∀ i ∈ early.graph.commits, i ∈ full.graph.commits) ∧
      (early.canWiden = false → ∀ i ∈ full.graph.commits, i ∈ early.graph.commits) := by
  obtain ⟨indexed, loaded, opened⟩ := isOpen.exists_opened
  exact opened.commits_subset (.inr acyclic) answered

/-- The sample at the first stage and at the last. -/
theorem commits_subset_all_since : ∃ session, IsOpen Sample.disk session ∧
    (∀ repository ∈ session.repositories.entries.map (·.2), repository.Acyclic Sample.disk) ∧
    (∀ request ∈ (session.search Sample.disk .topological (Sample.since 0) .all).requests,
      session.Answers Sample.disk request) ∧
    let early := session.search Sample.disk .topological (Sample.since 0) .initial
    let full := session.search Sample.disk .topological (Sample.since 0) .all
    (∀ i ∈ early.graph.commits, i ∈ full.graph.commits) ∧
      (early.canWiden = false → ∀ i ∈ full.graph.commits, i ∈ early.graph.commits) := by
  obtain ⟨session, run⟩ := Sample.exists_session Sample.narrow rfl
  obtain ⟨indexed, loaded, opened, -⟩ := opened_of_openAt run
  have acyclic := Sample.acyclic_entries run
  have answered := opened.answers_search (Sample.intact_entries run) .topological (Sample.since 0)
    .all
  exact ⟨session, .opened run, acyclic, answered,
    IsOpen.commits_subset_all (.opened run) acyclic .topological (Sample.since 0) .initial
      answered⟩

end Session

end CommitLog
