import CommitLog.Proofs.Session.Memory
import CommitLog.Proofs.Session.Widening

/-!
# The stage after a search

A search that was answered by the sources keeps what it shows at the next stage.  A search that was
content with what is in memory need not: it may show any number of commits, and at the next stage a
source gives the first of its commits only, up to the limit of that stage.

    result.stage ≠ initial → i ∈ result → i ∈ next
    result.stage = initial → i ∈ result → (i ∈ next ↔ i is indexed, or among the first found)
-/

namespace CommitLog

namespace Session

open Searcher

/-- A commit is among the first, up to a limit, of all that the source of a repository finds. -/
def FoundWithin (session : Session) (disk : Disk) (filters : Filters) (entry : Path × Repository)
    (limit : Nat) (id : ObjectId) : Prop :=
  ∃ found, entry.2.findCommits disk session.store (filtersFor filters entry.1) greatestCount =
    .ok found ∧ ∃ f ∈ found.take limit, f.hash = id

variable {disk : Disk} {session : Session} {indexed : List Path} {loaded : LoadedRoots}
  {i : CommitIndex} {id : ObjectId} {commit : Commit} {filters : Filters} {roots : List Path}
  {stage : Stage} {entry : Path × Repository} {limit : Nat}

/-! ## Answers up to a limit -/

/-- Only one commit is the first. -/
theorem FoundWithin.eq {other : ObjectId} (h : session.FoundWithin disk filters entry 1 id)
    (h' : session.FoundWithin disk filters entry 1 other) : id = other := by
  obtain ⟨found, run, f, hf, rfl⟩ := h
  obtain ⟨found', run', g, hg, rfl⟩ := h'
  obtain rfl := Except.ok.inj (run.symm.trans run')
  cases found with
  | nil => cases hf
  | cons first rest => rw [List.mem_singleton.1 hf, List.mem_singleton.1 hg]

/-- A source that is asked for some commits gives the first of what it finds. -/
theorem Opened.foundWithin_iff (opened : session.Opened disk indexed loaded)
    (mem : entry ∈ session.repositories.entries)
    (answered : session.Answers disk ⟨entry.1, filtersFor filters entry.1, greatestCount⟩) :
    session.FoundWithin disk filters entry limit id ↔
      ∃ found, entry.2.findCommits disk session.store (filtersFor filters entry.1) limit =
        .ok found ∧ ∃ f ∈ found, f.hash = id := by
  obtain ⟨found, run⟩ := (opened.answers_iff mem).1 answered
  have take := Repository.findCommits_all opened.size_lt run limit
  constructor
  · rintro ⟨all, hall, among⟩
    obtain rfl := Except.ok.inj (run.symm.trans hall)
    exact ⟨_, take, among⟩
  · rintro ⟨some, hsome, among⟩
    obtain rfl := Except.ok.inj (take.symm.trans hsome)
    exact ⟨found, run, among⟩

/-- Of a commit that the pass through memory finds, the sources decide whether it is kept. -/
theorem Opened.contains_iff_foundWithin (opened : session.Opened disk indexed loaded)
    (answered : ∀ request ∈
      ((session.searcher disk).filterWithSources filters roots .all).requests,
      session.Answers disk request)
    (mem : entry ∈ session.repositories.entries)
    (has : session.HasCommit disk i entry.2 id commit)
    (selects : session.Selects disk filters roots i) :
    ((session.searcher disk).filterWithSources filters roots stage).matching.contains i = true ↔
      session.FoundWithin disk filters entry (stage.limit session.budget) id := by
  obtain ⟨own, hown, asked, id', c', has', -⟩ := selects
  obtain ⟨same, rfl, rfl⟩ := opened.unique has has'
  obtain rfl := opened.entry_eq mem hown same
  rw [opened.contains_sources_iff mem has, and_iff_right asked,
    opened.foundWithin_iff mem (answered _ (request_mem mem asked))]

/-! ## The next stage -/

/-- The index gives all it has at every stage, and nothing of what it does not cover. -/
theorem Opened.isIndexed_of_mem_filter (opened : session.Opened disk indexed loaded)
    (mem : entry ∈ session.repositories.entries)
    (has : session.HasCommit disk i entry.2 id commit)
    (h : i ∈ session.index.filter (roots.filter session.index.isIndexed) filters) :
    session.index.isIndexed entry.1 = true := by
  obtain ⟨-, asked, -⟩ := (opened.mem_index_filter has).1 h
  exact (opened.isIndexed_iff has.opened (BEq.symm (opened.keyed entry mem))).2 asked

/-- What the sources of other repositories select is not indexed. -/
theorem Opened.not_isIndexed_of_selects (opened : session.Opened disk indexed loaded)
    (uncovered : ∀ root ∈ roots, session.index.isIndexed root = false)
    (mem : entry ∈ session.repositories.entries)
    (has : session.HasCommit disk i entry.2 id commit)
    (selects : session.Selects disk filters roots i) :
    ¬ session.index.isIndexed entry.1 = true := by
  intro isIndexed
  obtain ⟨own, hown, ⟨visible, -⟩, id', c', has', -⟩ := selects
  obtain ⟨same, -, -⟩ := opened.unique has has'
  obtain rfl := opened.entry_eq mem hown same
  have keyed := opened.keyed own mem
  have asked := (opened.isIndexed_iff has.opened (BEq.symm keyed)).1 isIndexed
  rw [List.contains_congr keyed] at visible
  exact opened.not_asked uncovered has.opened visible asked

/-- Of the commits that are let through from memory, the second stage keeps those of indexed
repositories and the first that each source finds. -/
theorem Opened.filterDetails_firstStep (opened : session.Opened disk indexed loaded)
    (answered : ∀ request ∈ ((session.searcher disk).filterDetails session.history filters .all
      roots (session.history.matchingHeads roots filters)).requests,
      session.Answers disk request)
    (mem : entry ∈ session.repositories.entries)
    (has : session.HasCommit disk i entry.2 id commit) :
    let result := (session.searcher disk).filterDetails session.history filters stage roots
      (session.history.matchingHeads roots filters)
    let next := (session.searcher disk).filterDetails session.history filters .firstStep roots
      (session.history.matchingHeads roots filters)
    result.canWiden = true → result.stage = .initial → result.matching.contains i = true →
      (next.matching.contains i = true ↔ session.index.isIndexed entry.1 = true ∨
        session.FoundWithin disk filters entry session.budget.firstStep id) := by
  intro result next canWiden initial allowed
  rcases opened.filterDetails_cases filters roots with
    ⟨-, same⟩ | ⟨-, -, same⟩ | ⟨-, split⟩
  · have result_eq : result = _ := same stage
    rw [result_eq] at canWiden
    cases canWiden
  · have result_eq : result = _ := same stage
    rw [result_eq] at canWiden
    cases canWiden
  have result_eq : result = _ := split stage
  have next_eq : next = _ := split .firstStep
  have full_eq : (session.searcher disk).filterDetails session.history filters .all roots
    (session.history.matchingHeads roots filters) = _ := split .all
  rw [full_eq] at answered
  rw [result_eq] at initial allowed
  rw [next_eq]
  dsimp only at initial allowed ⊢
  rw [MatchingSet.contains_union] at allowed ⊢
  rcases cascade_cases (session.searcher disk) session.history.graph filters
    (roots.filter fun root => !session.index.isIndexed root)
    (session.history.matchingHeads (roots.filter fun root => !session.index.isIndexed root) filters)
    stage with ⟨-, -, run⟩ | ⟨asked, reason, run⟩
  · rw [run, MatchingSet.contains_only] at allowed
    have uncovered : ∀ root ∈ roots.filter fun root => !session.index.isIndexed root,
        session.index.isIndexed root = false := fun _ mem => not_isIndexed_of_mem mem
    rcases allowed with memory | covered
    · -- what memory gives is left to the sources
      have selects := opened.selects_of_memory uncovered memory
      have notIndexed := opened.not_isIndexed_of_selects uncovered mem has selects
      have notCovered :
          i ∉ session.index.filter (roots.filter session.index.isIndexed) filters :=
        fun covered => notIndexed (opened.isIndexed_of_mem_filter mem has covered)
      rw [or_iff_left notCovered, or_iff_right notIndexed]
      exact opened.contains_iff_foundWithin answered mem has selects
    · exact iff_of_true (.inr covered) (.inl (opened.isIndexed_of_mem_filter mem has covered))
  · -- the sources have been asked, so the first stage is over
    rw [run] at initial
    change asked = _ at initial
    rcases reason with ⟨-, -, rfl⟩ | ⟨later, rfl⟩
    · cases initial
    · exact absurd initial later

/-- What the second stage shows of what the first stage was content with. -/
theorem Opened.commits_firstStep (opened : session.Opened disk indexed loaded) {sort : SortOrder}
    (ordered : sort = .date ∨
      ∀ repository ∈ session.repositories.entries.map (·.2), repository.Acyclic disk)
    (answered : ∀ request ∈ (session.search disk sort filters .all).requests,
      session.Answers disk request)
    (mem : entry ∈ session.repositories.entries)
    (has : session.HasCommit disk i entry.2 id commit) :
    let result := session.search disk sort filters stage
    let next := session.search disk sort filters .firstStep
    result.canWiden = true → result.stage = .initial → i ∈ result.graph.commits →
      (i ∈ next.graph.commits ↔ session.index.isIndexed entry.1 = true ∨
        session.FoundWithin disk (session.resolveUser filters) entry session.budget.firstStep
          id) := by
  intro result next canWiden initial shown
  cases hash : (session.resolveUser filters).activeHash? with
  | some hashes =>
    have canWiden_eq : result.canWiden = false := (search_of_hash hash).2.1
    rw [canWiden_eq] at canWiden
    cases canWiden
  | none =>
    have shows (stage : Stage) := (@Opened.commits_search disk session indexed loaded
      (session.resolveUser filters) stage opened sort ordered hash).2
    have outcome (stage : Stage) := @search_outcome (session.searcher disk)
      (session.resolveUser filters) stage session.history sort hash
    have requests : (session.search disk sort filters .all).requests = _ := (outcome .all).2.2
    rw [requests] at answered
    obtain ⟨eligible, allowed⟩ := (shows stage i).1 shown
    have kept := @Opened.filterDetails_firstStep disk session indexed loaded i id commit
      (session.resolveUser filters) _ stage entry opened answered mem has
    have canWiden_eq : result.canWiden = _ := (outcome stage).1
    have stage_eq : result.stage = _ := (outcome stage).2.1
    rw [canWiden_eq] at canWiden
    rw [stage_eq] at initial
    rw [← kept canWiden initial allowed]
    exact (shows .firstStep i).trans (and_iff_right eligible)

/-- **At the next stage a search shows what it has shown, unless the first stage was content with
what is in memory; of that the commits of indexed repositories and the first that each source finds
are shown again.** -/
theorem IsOpen.commits_next (isOpen : IsOpen disk session) (sort : SortOrder)
    (ordered : sort = .date ∨
      ∀ repository ∈ session.repositories.entries.map (·.2), repository.Acyclic disk)
    (filters : Filters) (stage : Stage)
    (answered : ∀ request ∈ (session.search disk sort filters .all).requests,
      session.Answers disk request) :
    let result := session.search disk sort filters stage
    let next := session.search disk sort filters result.stage.next
    result.canWiden = true →
      (result.stage ≠ .initial → ∀ i ∈ result.graph.commits, i ∈ next.graph.commits) ∧
      (result.stage = .initial → ∀ entry ∈ session.repositories.entries, ∀ i id commit,
        session.HasCommit disk i entry.2 id commit → i ∈ result.graph.commits →
        (i ∈ next.graph.commits ↔ session.index.isIndexed entry.1 = true ∨
          session.FoundWithin disk (session.resolveUser filters) entry session.budget.firstStep
            id)) := by
  intro result next canWiden
  obtain ⟨indexed, loaded, opened⟩ := isOpen.exists_opened
  constructor
  · intro later
    have last : result.stage.next = .all := by
      cases h : result.stage with
      | initial => exact absurd h later
      | firstStep | all => rfl
    have next_eq : next = session.search disk sort filters .all := by
      show session.search disk sort filters result.stage.next = _
      rw [last]
    rw [next_eq]
    exact (opened.commits_subset ordered answered).1
  · intro initial entry mem i id commit has shown
    have next_eq : next = session.search disk sort filters .firstStep := by
      show session.search disk sort filters result.stage.next = _
      rw [initial]
      rfl
    rw [next_eq]
    exact opened.commits_firstStep ordered answered mem has canWiden initial shown

/-- Of the commits of the sample, the second stage shows the first that is found. -/
theorem commits_next_since : ∃ session, IsOpen Sample.disk session ∧
    (∀ repository ∈ session.repositories.entries.map (·.2), repository.Acyclic Sample.disk) ∧
    (∀ request ∈ (session.search Sample.disk .topological (Sample.since 0) .all).requests,
      session.Answers Sample.disk request) ∧
    let result := session.search Sample.disk .topological (Sample.since 0) .initial
    let next := session.search Sample.disk .topological (Sample.since 0) result.stage.next
    result.canWiden = true ∧ result.stage = .initial ∧ ∀ i id commit,
      session.HasCommit Sample.disk i Sample.repository id commit → i ∈ result.graph.commits ∧
        (i ∈ next.graph.commits ↔ session.FoundWithin Sample.disk (Sample.since 0)
          (Disk.pathOf Sample.root, Sample.repository) 1 id) := by
  obtain ⟨session, run⟩ := Sample.exists_session Sample.narrow rfl
  obtain ⟨indexed, loaded, opened, -⟩ := opened_of_openAt run
  have acyclic := Sample.acyclic_entries run
  have answered := opened.answers_search (Sample.intact_entries run) .topological (Sample.since 0)
    .all
  obtain ⟨canWiden, initial, both⟩ := search_sample_initial run .topological
  refine ⟨session, .opened run, acyclic, answered, canWiden, initial, fun i id commit has => ?_⟩
  have mem := Sample.mem_entries run
  have shown := both i id commit has
  refine ⟨shown, ?_⟩
  have kept := (IsOpen.commits_next (.opened run) .topological (.inr acyclic) (Sample.since 0)
    .initial answered canWiden).2 initial _ mem i id commit has shown
  rw [index_of_openAt run rfl, budget_of_openAt run] at kept
  exact kept.trans (or_iff_right Bool.false_ne_true)

/-- Both commits of the sample are shown at the first stage, and one of them no longer at the
next. -/
theorem commits_next_drops : ∃ session,
    openAt [Disk.pathOf Sample.root] Sample.narrow Sample.disk = .ok session ∧
    (∀ repository ∈ session.repositories.entries.map (·.2), repository.Acyclic Sample.disk) ∧
    (∀ stage, ∀ request ∈
      (session.search Sample.disk .topological (Sample.since 0) stage).requests,
      session.Answers Sample.disk request) ∧
    let result := session.search Sample.disk .topological (Sample.since 0) .initial
    let next := session.search Sample.disk .topological (Sample.since 0) result.stage.next
    result.canWiden = true ∧ ∃ i ∈ result.graph.commits, i ∉ next.graph.commits := by
  obtain ⟨session, run⟩ := Sample.exists_session Sample.narrow rfl
  obtain ⟨indexed, loaded, opened, -⟩ := opened_of_openAt run
  have acyclic := Sample.acyclic_entries run
  have answered := opened.answers_search (Sample.intact_entries run) .topological (Sample.since 0)
  obtain ⟨canWiden, initial, both⟩ := search_sample_initial run .topological
  refine ⟨session, run, acyclic, answered, canWiden, ?_⟩
  have mem := Sample.mem_entries run
  rw [initial]
  by_contra keeps
  push Not at keeps
  -- whatever is kept is the first that the source finds
  have first (id : ObjectId) (commit : Commit) (mem' : (id, commit) ∈ Sample.commits) :
      session.FoundWithin Sample.disk (Sample.since 0)
        (Disk.pathOf Sample.root, Sample.repository) 1 id := by
    obtain ⟨i, has⟩ := opened.exists_number (List.mem_map_of_mem mem) (Sample.holds_commits mem')
    have shown := both i id commit has
    have kept := (opened.commits_firstStep (.inr acyclic) (answered .all) mem has canWiden initial
      shown).1 (keeps i shown)
    rw [index_of_openAt run rfl, budget_of_openAt run] at kept
    exact kept.resolve_left Bool.false_ne_true
  have same := (first Sample.firstId Sample.first (by simp [Sample.commits])).eq
    (first Sample.secondId Sample.second (by simp [Sample.commits]))
  exact absurd same (by decide)

end Session

end CommitLog
