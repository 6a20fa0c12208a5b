import CommitLog.Proofs.Search.Shown
import CommitLog.Proofs.Session.Source

/-!
# Searching an open session

The sources of a session together find the commits that `Session.Selects` tells, as long as they
answer and the limit is not reached.  A search shows the commits that are `Session.Eligible` by
their repository and by the branches that lead to them, and that the filters of details let
through.
-/

namespace CommitLog

namespace Session

open Searcher

/-- A source is there for a request and does not fail. -/
def Answers (session : Session) (disk : Disk) (request : SourceRequest) : Prop :=
  ∃ source, (session.searcher disk).sources.get? request.root = some source ∧
    ∃ found, source.find request = .ok found

/-- The commits that the sources of the given repositories find when there is no limit. -/
def Selects (session : Session) (disk : Disk) (filters : Filters) (roots : List Path)
    (i : CommitIndex) : Prop :=
  ∃ entry ∈ session.repositories.entries,
    (roots.contains entry.1 = true ∧ hasUserNames filters entry.1 = true) ∧
    ∃ id commit, session.HasCommit disk i entry.2 id commit ∧
      entry.2.Passes disk session.store (filtersFor filters entry.1) id commit

variable {disk : Disk} {session : Session} {indexed : List Path} {loaded : LoadedRoots}
  {i : CommitIndex} {repository : Repository} {id : ObjectId} {commit : Commit} {filters : Filters}
  {roots : List Path} {limit : Nat} {entry : Path × Repository} {stage : Stage}

/-! ## Sources -/

theorem paths_sources (session : Session) (disk : Disk) :
    (session.searcher disk).sources.paths = session.repositories.paths := by
  simp [searcher, PathTable.paths]

theorem Opened.get?_sources (opened : session.Opened disk indexed loaded)
    (mem : entry ∈ session.repositories.entries) :
    (session.searcher disk).sources.get? entry.1 = some (entry.2.source disk session.store) := by
  have ascending : (session.searcher disk).sources.Ascending := by
    unfold PathTable.Ascending searcher
    exact List.pairwise_map.2 opened.ascending
  have mem' : (entry.1, entry.2.source disk session.store) ∈
      (session.searcher disk).sources.entries := List.mem_map.2 ⟨entry, mem, rfl⟩
  exact ascending.get?_eq mem' BEq.rfl

theorem find_source {root : Path} {found : List FoundCommit} {store : CommitStore}
    (same : (root == repository.root) = true) :
    (repository.source disk store).find ⟨root, filters, limit⟩ = .ok found ↔
      repository.findCommits disk store filters limit = .ok found := by
  unfold Repository.source
  dsimp only
  rw [if_pos same, mapError_eq_ok]

theorem Opened.answers_iff (opened : session.Opened disk indexed loaded)
    (mem : entry ∈ session.repositories.entries) :
    session.Answers disk ⟨entry.1, filtersFor filters entry.1, limit⟩ ↔
      ∃ found, entry.2.findCommits disk session.store (filtersFor filters entry.1) limit =
        .ok found := by
  have same : (entry.1 == entry.2.root) = true := opened.keyed entry mem
  unfold Answers
  rw [opened.get?_sources mem]
  constructor
  · rintro ⟨source, hsource, found, h⟩
    obtain rfl := Option.some.inj hsource
    exact ⟨found, (find_source same).1 h⟩
  · rintro ⟨found, h⟩
    exact ⟨_, rfl, found, (find_source same).2 h⟩

/-- The numbers of what a repository finds. -/
theorem Opened.answer_eq (opened : session.Opened disk indexed loaded)
    (mem : entry ∈ session.repositories.entries) {found : List FoundCommit}
    (h : entry.2.findCommits disk session.store (filtersFor filters entry.1) limit = .ok found) :
    (session.searcher disk).answer ⟨entry.1, filtersFor filters entry.1, limit⟩ =
      (found.map (·.hash)).filterMap fun hash =>
        session.store.indexOf? ⟨hash, entry.2.root⟩ := by
  have same : (entry.1 == entry.2.root) = true := opened.keyed entry mem
  have run := (find_source same).2 h
  unfold answer
  rw [opened.get?_sources mem]
  dsimp only
  rw [run, List.filterMap_map]
  refine List.filterMap_congr fun f _ => ?_
  exact CommitStore.indexOf?_congr (CommitId.beq_iff.2 ⟨rfl, same⟩)

/-- What a repository finds has numbers, each once. -/
theorem Opened.answer_spec (opened : session.Opened disk indexed loaded)
    (mem : entry ∈ session.repositories.entries) {found : List FoundCommit}
    (h : entry.2.findCommits disk session.store (filtersFor filters entry.1) limit = .ok found) :
    let answer := (session.searcher disk).answer ⟨entry.1, filtersFor filters entry.1, limit⟩
    answer.Nodup ∧ answer.length = found.length ∧
      ∀ i, i ∈ answer ↔ ∃ f ∈ found, session.store.indexOf? ⟨f.hash, entry.2.root⟩ = some i := by
  intro answer
  have same : answer = _ := opened.answer_eq mem h
  obtain ⟨nodup, length⟩ := Repository.numbers_findCommits opened.inStep h
  rw [same]
  refine ⟨nodup, length, fun i => ?_⟩
  simp only [List.mem_filterMap, List.mem_map, exists_exists_and_eq_and]

/-- There are fewer commits than a search without limit looks for. -/
theorem Opened.size_lt (opened : session.Opened disk indexed loaded) :
    session.store.indices.size < greatestCount := by
  have room := opened.covers.room
  rw [← opened.store, ← opened.inStep.size_indices] at room
  unfold CommitStore.capacity at room
  unfold greatestCount
  omega

/-! ## What the sources find together -/

/-- A repository that fails has no answer. -/
theorem Opened.mem_answer (opened : session.Opened disk indexed loaded)
    (mem : entry ∈ session.repositories.entries) :
    i ∈ (session.searcher disk).answer ⟨entry.1, filtersFor filters entry.1, limit⟩ ↔
      ∃ found, entry.2.findCommits disk session.store (filtersFor filters entry.1) limit =
        .ok found ∧ ∃ f ∈ found, session.store.indexOf? ⟨f.hash, entry.2.root⟩ = some i := by
  constructor
  · intro h
    cases run : entry.2.findCommits disk session.store (filtersFor filters entry.1) limit with
    | ok found => exact ⟨found, rfl, ((opened.answer_spec mem run).2.2 i).1 h⟩
    | error fault =>
      unfold answer at h
      rw [opened.get?_sources mem] at h
      dsimp only at h
      split at h
      · next found answered =>
        rw [find_source (opened.keyed entry mem), run] at answered
        cases answered
      · cases h
  · rintro ⟨found, run, h⟩
    exact ((opened.answer_spec mem run).2.2 i).2 h

/-- A number in the answer of a repository is that of a commit that passes. -/
theorem Opened.of_mem_answer (opened : session.Opened disk indexed loaded)
    (mem : entry ∈ session.repositories.entries)
    (h : i ∈ (session.searcher disk).answer ⟨entry.1, filtersFor filters entry.1, limit⟩) :
    ∃ id commit, session.HasCommit disk i entry.2 id commit ∧
      entry.2.Passes disk session.store (filtersFor filters entry.1) id commit := by
  obtain ⟨found, run, f, hf, number⟩ := (opened.mem_answer mem).1 h
  obtain ⟨commit, passes⟩ := Repository.of_mem_findCommits run hf
  exact ⟨f.hash, commit, ⟨List.mem_map_of_mem mem, passes.holds, number⟩, passes⟩

theorem Opened.entry_eq (opened : session.Opened disk indexed loaded) {other : Path × Repository}
    (mem : entry ∈ session.repositories.entries) (mem' : other ∈ session.repositories.entries)
    (same : other.2 = entry.2) : other = entry := by
  refine opened.ascending.eq_of_beq mem' mem (BEq.trans (opened.keyed other mem') ?_)
  rw [same]
  exact BEq.symm (opened.keyed entry mem)

/-- Of a repository the sources find what its own source does. -/
theorem Opened.contains_sources_iff (opened : session.Opened disk indexed loaded)
    (mem : entry ∈ session.repositories.entries)
    (has : session.HasCommit disk i entry.2 id commit) :
    ((session.searcher disk).filterWithSources filters roots stage).matching.contains i = true ↔
      (roots.contains entry.1 = true ∧ hasUserNames filters entry.1 = true) ∧
      ∃ found, entry.2.findCommits disk session.store (filtersFor filters entry.1)
        (stage.limit session.budget) = .ok found ∧ ∃ f ∈ found, f.hash = id := by
  rw [mem_filterWithSources]
  constructor
  · rintro ⟨root, hroot, asked, h⟩
    rw [paths_sources] at hroot
    obtain ⟨own, hown, rfl⟩ := List.mem_map.1 hroot
    obtain ⟨id', c', has', -⟩ := opened.of_mem_answer hown h
    obtain ⟨same, -, -⟩ := opened.unique has has'
    obtain rfl := opened.entry_eq mem hown same
    obtain ⟨found, run, f, hf, number⟩ := (opened.mem_answer hown).1 h
    obtain ⟨c, passes⟩ := Repository.of_mem_findCommits run hf
    obtain ⟨-, hash, -⟩ := opened.unique has ⟨has.opened, passes.holds, number⟩
    exact ⟨asked, found, run, f, hf, hash⟩
  · rintro ⟨asked, found, run, f, hf, rfl⟩
    refine ⟨entry.1, ?_, asked, (opened.mem_answer mem).2 ⟨found, run, f, hf, has.number⟩⟩
    rw [paths_sources]
    exact List.mem_map_of_mem mem

/-- The sources find nothing else than what they select. -/
theorem Opened.selects_of_contains (opened : session.Opened disk indexed loaded)
    (h : ((session.searcher disk).filterWithSources filters roots stage).matching.contains i =
      true) : session.Selects disk filters roots i := by
  obtain ⟨root, mem, asked, found⟩ := mem_filterWithSources.1 h
  rw [paths_sources] at mem
  obtain ⟨entry, hentry, rfl⟩ := List.mem_map.1 mem
  exact ⟨entry, hentry, asked, opened.of_mem_answer hentry found⟩

/-- What is asked of a repository at a stage. -/
theorem request_mem (mem : entry ∈ session.repositories.entries)
    (asked : roots.contains entry.1 = true ∧ hasUserNames filters entry.1 = true) :
    ⟨entry.1, filtersFor filters entry.1, stage.limit session.budget⟩ ∈
      ((session.searcher disk).filterWithSources filters roots stage).requests := by
  unfold filterWithSources requestsFor
  refine List.mem_map.2 ⟨entry.1, List.mem_filter.2 ⟨?_, ?_⟩, rfl⟩
  · rw [paths_sources]
    exact List.mem_map_of_mem mem
  · rw [asked.1, asked.2]
    rfl

/-- Sources that answer, and find fewer commits than they may, find all that they select. -/
theorem Opened.contains_of_selects (opened : session.Opened disk indexed loaded)
    (answered : ∀ request ∈
      ((session.searcher disk).filterWithSources filters roots stage).requests,
      session.Answers disk request)
    (short : stage = .all ∨
      ((session.searcher disk).filterWithSources filters roots stage).canWiden = false)
    (h : session.Selects disk filters roots i) :
    ((session.searcher disk).filterWithSources filters roots stage).matching.contains i = true := by
  obtain ⟨entry, mem, asked, id, commit, has, passes⟩ := h
  obtain ⟨found, run⟩ := (opened.answers_iff mem).1 (answered _ (request_mem mem asked))
  obtain ⟨nodup, length, members⟩ := opened.answer_spec mem run
  have all : ∀ j ∈ (session.searcher disk).answer
      ⟨entry.1, filtersFor filters entry.1, stage.limit session.budget⟩,
      ((session.searcher disk).filterWithSources filters roots stage).matching.contains j =
        true := by
    intro j hj
    refine mem_filterWithSources.2 ⟨entry.1, ?_, asked, hj⟩
    rw [paths_sources]
    exact List.mem_map_of_mem mem
  have limit : found.length < stage.limit session.budget := by
    rcases short with rfl | short
    · exact Nat.lt_of_le_of_lt (Repository.length_findCommits_le run) opened.size_lt
    · -- all answers together do not reach the limit
      have bounded := CommitSet.length_le_size nodup fun j hj => MatchingSet.contains_only.1 (all j hj)
      rw [length] at bounded
      exact Nat.lt_of_le_of_lt bounded (Nat.lt_of_not_le (of_decide_eq_false short))
  obtain ⟨f, hf, rfl⟩ := Repository.mem_findCommits run limit passes
  exact all i ((members i).2 ⟨f, hf, has.number⟩)

/-- The sources can answer at every stage when they can at the last. -/
theorem Opened.answers_of_all (opened : session.Opened disk indexed loaded)
    (answered : ∀ request ∈
      ((session.searcher disk).filterWithSources filters roots .all).requests,
      session.Answers disk request) :
    ∀ request ∈ ((session.searcher disk).filterWithSources filters roots stage).requests,
      session.Answers disk request := by
  intro request mem
  unfold filterWithSources requestsFor at mem
  obtain ⟨root, hroot, rfl⟩ := List.mem_map.1 mem
  obtain ⟨known, asked⟩ := List.mem_filter.1 hroot
  rw [paths_sources] at known
  obtain ⟨entry, hentry, rfl⟩ := List.mem_map.1 known
  rw [Bool.and_eq_true] at asked
  obtain ⟨found, run⟩ := (opened.answers_iff hentry).1 (answered _ (request_mem hentry asked))
  exact (opened.answers_iff hentry).2 ⟨_, Repository.findCommits_all opened.size_lt run _⟩

/-! ## Heads -/

/-- The commits of visible repositories that the branches let through lead to. -/
def Eligible (session : Session) (disk : Disk) (filters : Filters) (roots : List Path)
    (i : CommitIndex) : Prop :=
  ∃ repository id commit, session.HasCommit disk i repository id commit ∧
    roots.contains repository.root = true ∧ repository.Reaches disk filters.branch id

/-- The heads of visible repositories lead to the commits that their branches lead to. -/
theorem Opened.exists_head_iff (opened : session.Opened disk indexed loaded)
    (has : session.HasCommit disk i repository id commit) :
    (∃ head ∈ session.history.heads, (roots.contains head.root = true ∧
      filters.branch.all (·.accepts head.name.text) = true) ∧
        session.history.graph.Leads head.commit i) ↔
      roots.contains repository.root = true ∧ repository.Reaches disk filters.branch id := by
  rw [opened.history]
  constructor
  · rintro ⟨head, mem, ⟨visible, accepted⟩, leads⟩
    obtain ⟨r, hr, tips, htips, tip, htip, number, root⟩ := (opened.covers.heads head).1 mem
    obtain ⟨c, holds⟩ := LoadedRoots.holds_tip (opened.covers.readable r hr) htips htip
    rw [← opened.store] at number
    rw [← opened.history] at leads
    obtain ⟨id', c', has', leads⟩ := (opened.leads_iff ⟨hr, holds, number⟩).1 leads
    obtain ⟨rfl, rfl, -⟩ := opened.unique has has'
    rw [← root]
    exact ⟨visible, tips, htips, _, htip, accepted, leads⟩
  · rintro ⟨visible, tips, htips, tip, htip, accepted, leads⟩
    have readable := opened.covers.readable repository has.opened
    obtain ⟨c, holds⟩ := LoadedRoots.holds_tip readable htips htip
    obtain ⟨n, hn⟩ := opened.exists_number has.opened holds
    have number := hn.number
    rw [opened.store] at number
    refine ⟨⟨tip.1, n, repository.root⟩, (opened.covers.heads _).2 ?_, ⟨visible, accepted⟩, ?_⟩
    · exact ⟨repository, has.opened, tips, htips, tip.2, htip, number, rfl⟩
    · rw [← opened.history]
      exact (opened.leads_iff hn).2 ⟨id, commit, has, leads⟩

/-- A commit that the matching heads lead to is one that the branches let through lead to. -/
theorem Opened.reaches_of_heads (opened : session.Opened disk indexed loaded)
    (has : session.HasCommit disk i repository id commit)
    (h : ∀ set, (session.history.matchingHeads roots filters).set? = some set →
      ∃ n ∈ set, session.history.graph.Leads n i) : repository.Reaches disk filters.branch id := by
  rcases session.history.matchingHeads_eq roots filters with
    ⟨-, branch, -, -⟩ | ⟨set, constraint, members⟩
  · rw [branch]
    exact has.holds.reaches
  · obtain ⟨n, mem, leads⟩ := h set (by rw [constraint]; rfl)
    obtain ⟨head, hhead, passes, rfl⟩ := (members n).1 mem
    exact ((opened.exists_head_iff has).1 ⟨head, hhead, passes, leads⟩).2

/-- The heads allow a commit when it is eligible; without filter all repositories are visible. -/
theorem Opened.heads_allow_iff (opened : session.Opened disk indexed loaded)
    (all : filters.root = none → filters.paths = none →
      ∀ entry ∈ session.repositories.entries, roots.contains entry.2.root = true) :
    (∃ c ∈ session.history.graph.rows, c.index = i) ∧
      (∀ set, (session.history.matchingHeads roots filters).set? = some set →
        ∃ h ∈ set, session.history.graph.Leads h i) ↔
      session.Eligible disk filters roots i := by
  rw [opened.exists_row]
  constructor
  · rintro ⟨⟨repository, id, commit, has⟩, leads⟩
    refine ⟨repository, id, commit, has, ?_, opened.reaches_of_heads has leads⟩
    rcases session.history.matchingHeads_eq roots filters with
      ⟨-, -, root, paths⟩ | ⟨set, constraint, members⟩
    · obtain ⟨entry, mem, same⟩ := List.mem_map.1 has.opened
      rw [← same]
      exact all root paths entry mem
    · obtain ⟨n, mem, leads⟩ := leads set (by rw [constraint]; rfl)
      obtain ⟨head, hhead, passes, rfl⟩ := (members n).1 mem
      exact ((opened.exists_head_iff has).1 ⟨head, hhead, passes, leads⟩).1
  · rintro ⟨repository, id, commit, has, h⟩
    refine ⟨⟨repository, id, commit, has⟩, ?_⟩
    intro set constrained
    rcases session.history.matchingHeads_eq roots filters with
      ⟨free, -⟩ | ⟨set', constraint, members⟩
    · rw [free] at constrained
      cases constrained
    · rw [constraint] at constrained
      obtain rfl := Option.some.inj constrained
      obtain ⟨head, hhead, passes, leads⟩ := (opened.exists_head_iff has).2 h
      exact ⟨head.commit, (members _).2 ⟨head, hhead, passes, rfl⟩, leads⟩

/-! ## The index -/

/-- The index covers the repositories that were to be indexed. -/
theorem Opened.isIndexed_iff (opened : session.Opened disk indexed loaded)
    (mem : repository ∈ session.repositories.entries.map (·.2)) {root : Path}
    (same : (repository.root == root) = true) :
    session.index.isIndexed root = true ↔ indexed.contains repository.root = true := by
  rw [opened.index]
  by_cases none : indexed.isEmpty = true
  · rw [if_pos none, List.isEmpty_iff.1 none]
    exact iff_of_false Bool.false_ne_true Bool.false_ne_true
  · rw [if_neg none]
    change (loaded.index.commits.get? root).isSome = true ↔ _
    constructor
    · intro found
      obtain ⟨list, hlist⟩ := Option.isSome_iff_exists.1 found
      obtain ⟨r, hr, sameRoot, asked⟩ := opened.covers.asked root list hlist
      rwa [opened.eq_of_root mem hr (BEq.trans same (BEq.symm sameRoot))]
    · intro asked
      obtain ⟨-, -, -, list, found, -⟩ := opened.covers.answers repository mem asked
      rw [PathTable.get?_congr same] at found
      rw [found]
      rfl

/-- An index can answer all filters. -/
theorem Opened.index_able (opened : session.Opened disk indexed loaded) (kinds : List DetailKind) :
    session.index.canFilter kinds = true ∨ ∀ root, session.index.isIndexed root = false := by
  rw [opened.index]
  by_cases none : indexed.isEmpty = true
  · rw [if_pos none]
    exact .inr fun root => rfl
  · rw [if_neg none]
    refine .inl (List.all_eq_true.2 ?_)
    intro kind _
    rw [opened.covers.supported]
    cases kind <;> rfl

/-- What the index finds in the given repositories. -/
theorem Opened.mem_index_filter (opened : session.Opened disk indexed loaded)
    (has : session.HasCommit disk i repository id commit) :
    i ∈ session.index.filter (roots.filter session.index.isIndexed) filters ↔
      roots.contains repository.root = true ∧ indexed.contains repository.root = true ∧
      ∃ m, repository.IsDetails disk session.store indexed m ∧ m.hash = id ∧
        filters.acceptsDetails m = true := by
  have lookUp : i ∈ session.index.filter (roots.filter session.index.isIndexed) filters ↔
      ∃ root ∈ roots, session.index.isIndexed root = true ∧
        ∃ list, loaded.index.commits.get? root = some list ∧
          ∃ m ∈ list, filters.acceptsDetails m = true ∧ m.index = i := by
    rw [opened.index]
    split
    · refine iff_of_false (CommitSet.not_mem_empty i) ?_
      rintro ⟨root, -, never, -⟩
      cases never
    · change i ∈ MetadataIndex.filter _ _ _ ↔ _
      simp only [MetadataIndex.filter, CommitSet.mem_ofList, List.mem_map, List.mem_filter,
        List.mem_flatten, List.mem_filterMap]
      constructor
      · rintro ⟨m, ⟨⟨list, ⟨root, ⟨mem, covered⟩, found⟩, hm⟩, accepted⟩, rfl⟩
        exact ⟨root, mem, covered, list, found, m, hm, accepted, rfl⟩
      · rintro ⟨root, mem, covered, list, found, m, hm, accepted, rfl⟩
        exact ⟨m, ⟨⟨list, ⟨root, ⟨mem, covered⟩, found⟩, hm⟩, accepted⟩, rfl⟩
  -- the list of a repository has the details of its commits
  have listed (r : Repository) (hr : r ∈ session.repositories.entries.map (·.2))
      (asked : indexed.contains r.root = true) (root : Path) (same : (r.root == root) = true) :
      ∃ list, loaded.index.commits.get? root = some list ∧
        ∀ m, m ∈ list ↔ r.IsDetails disk session.store indexed m := by
    obtain ⟨r', hr', sameRoot, list, found, members⟩ := opened.covers.answers r hr asked
    obtain rfl := opened.eq_of_root hr' hr sameRoot
    rw [PathTable.get?_congr same] at found
    rw [opened.store]
    exact ⟨list, found, members⟩
  rw [lookUp]
  constructor
  · rintro ⟨root, mem, -, list, found, m, hm, accepted, rfl⟩
    obtain ⟨r, hr, same, asked⟩ := opened.covers.asked root list found
    obtain ⟨list', found', members⟩ := listed r hr asked root same
    obtain rfl := Option.some.inj (found'.symm.trans found)
    have details := (members m).1 hm
    obtain ⟨c, holds, number, -⟩ := details
    obtain ⟨rfl, rfl, -⟩ := opened.unique has ⟨hr, holds, number⟩
    refine ⟨?_, asked, m, (members m).1 hm, rfl, accepted⟩
    exact List.contains_iff_exists_mem_beq.2 ⟨root, mem, same⟩
  · rintro ⟨visible, asked, m, details, rfl, accepted⟩
    obtain ⟨root, mem, same⟩ := List.contains_iff_exists_mem_beq.1 visible
    obtain ⟨list, found, members⟩ := listed repository has.opened asked root same
    refine ⟨root, mem, (opened.isIndexed_iff has.opened same).2 asked, list, found, m,
      (members m).2 details, accepted, ?_⟩
    obtain ⟨c, -, number, -⟩ := details
    exact Option.some.inj (number.symm.trans has.number)

/-- How filters of details are answered: there are none, or the index has all repositories, or the
others are left to the cascade. -/
theorem Opened.filterDetails_cases (opened : session.Opened disk indexed loaded) (filters : Filters)
    (roots : List Path) :
    let answer (stage : Stage) := (session.searcher disk).filterDetails session.history filters
      stage roots (session.history.matchingHeads roots filters)
    let others := roots.filter fun root => !session.index.isIndexed root
    let covered := session.index.filter (roots.filter session.index.isIndexed) filters
    let rest (stage : Stage) := (session.searcher disk).cascade session.history.graph filters others
      (session.history.matchingHeads others filters) stage
    (filters.details = [] ∧ ∀ stage, answer stage = ⟨.unconstrained, false, stage, []⟩) ∨
      (filters.details ≠ [] ∧ others = [] ∧
        ∀ stage, answer stage = ⟨.only covered, false, stage, []⟩) ∨
      (filters.details ≠ [] ∧
        ∀ stage, answer stage = { rest stage with matching := (rest stage).matching.union covered })
      := by
  intro answer others covered rest
  by_cases free : filters.details = []
  · exact .inl ⟨free, fun stage => if_pos (List.isEmpty_iff.2 free)⟩
  · have split (stage : Stage) : answer stage =
        if others.isEmpty && !(roots.filter session.index.isIndexed).isEmpty
        then ⟨.only covered, false, stage, []⟩
        else { rest stage with matching := (rest stage).matching.union covered } :=
      filterDetails_eq free (opened.index_able _)
    by_cases alone : (others.isEmpty && !(roots.filter session.index.isIndexed).isEmpty) = true
    · refine .inr (.inl ⟨free, List.isEmpty_iff.1 (Bool.and_eq_true_iff.1 alone).1, ?_⟩)
      intro stage
      rw [split, if_pos alone]
    · refine .inr (.inr ⟨free, ?_⟩)
      intro stage
      rw [split, if_neg alone]

theorem not_isIndexed_of_mem {root : Path}
    (mem : root ∈ roots.filter fun root => !session.index.isIndexed root) :
    session.index.isIndexed root = false := by
  simpa using (List.mem_filter.1 mem).2

/-- The repositories that are left to the sources are those that are not indexed. -/
theorem Opened.contains_others_iff (opened : session.Opened disk indexed loaded)
    (mem : entry ∈ session.repositories.entries) :
    (roots.filter fun root => !session.index.isIndexed root).contains entry.1 = true ↔
      roots.contains entry.2.root = true ∧ ¬ indexed.contains entry.2.root = true := by
  have keyed := opened.keyed entry mem
  have isIndexed (root : Path) (same : (entry.1 == root) = true) :=
    opened.isIndexed_iff (List.mem_map_of_mem mem) (BEq.trans (BEq.symm keyed) same)
  rw [List.contains_iff_exists_mem_beq, List.contains_iff_exists_mem_beq]
  constructor
  · rintro ⟨root, hroot, same⟩
    obtain ⟨hroot, other⟩ := List.mem_filter.1 hroot
    refine ⟨⟨root, hroot, BEq.trans (BEq.symm keyed) same⟩, ?_⟩
    rw [← isIndexed root same]
    simpa using other
  · rintro ⟨⟨root, hroot, same⟩, other⟩
    have same : (entry.1 == root) = true := BEq.trans keyed same
    refine ⟨root, List.mem_filter.2 ⟨hroot, ?_⟩, same⟩
    rw [← isIndexed root same] at other
    simpa using other

/-- At a later stage than the first, the filters of details let a commit through when the index of
its repository does, or its source if the repository is not indexed. -/
theorem Opened.contains_filterDetails (opened : session.Opened disk indexed loaded)
    (later : stage ≠ .initial) (mem : entry ∈ session.repositories.entries)
    (has : session.HasCommit disk i entry.2 id commit) :
    ((session.searcher disk).filterDetails session.history filters stage roots
      (session.history.matchingHeads roots filters)).matching.contains i = true ↔
    filters.details = [] ∨ roots.contains entry.2.root = true ∧
      if indexed.contains entry.2.root then
        ∃ m, entry.2.IsDetails disk session.store indexed m ∧ m.hash = id ∧
          filters.acceptsDetails m = true
      else hasUserNames filters entry.2.root = true ∧
        ∃ found, entry.2.findCommits disk session.store (filtersFor filters entry.1)
          (stage.limit session.budget) = .ok found ∧ ∃ f ∈ found, f.hash = id := by
  have names : hasUserNames filters entry.1 = hasUserNames filters entry.2.root := by
    unfold hasUserNames
    simp only [UserFilter.userNames_congr (opened.keyed entry mem)]
  have split : ((session.searcher disk).filterDetails session.history filters stage roots
      (session.history.matchingHeads roots filters)).matching.contains i = true ↔
      filters.details = [] ∨
        i ∈ session.index.filter (roots.filter session.index.isIndexed) filters ∨
        ((session.searcher disk).filterWithSources filters
          (roots.filter fun root => !session.index.isIndexed root) stage).matching.contains i =
            true := by
    obtain ⟨free, all⟩ | ⟨some, none, all⟩ | ⟨some, all⟩ := opened.filterDetails_cases filters roots
    all_goals
      have answer := all stage
      dsimp only at answer
      rw [answer]
    · exact iff_of_true rfl (.inl free)
    · rw [MatchingSet.contains_only, or_iff_right some, none, opened.contains_sources_iff mem has]
      simp
    · rw [MatchingSet.contains_union, or_iff_right some]
      obtain ⟨initial, -⟩ | ⟨asked, same, given⟩ := cascade_cases (session.searcher disk)
        session.history.graph filters (roots.filter fun root => !session.index.isIndexed root)
        (session.history.matchingHeads (roots.filter fun root => !session.index.isIndexed root)
          filters) stage
      · exact absurd initial later
      · obtain ⟨initial, -⟩ | ⟨-, rfl⟩ := same
        · exact absurd initial later
        · rw [given]
          exact or_comm
  rw [split, opened.mem_index_filter has, opened.contains_sources_iff mem has,
    opened.contains_others_iff mem, names]
  refine or_congr_right ?_
  by_cases asked : indexed.contains entry.2.root = true
  · simp [asked]
  · simp [asked, and_assoc]

/-! ## What is shown -/

/-- The repositories that a search looks at. -/
theorem Opened.contains_visibleRoots (opened : session.Opened disk indexed loaded)
    (mem : repository ∈ session.repositories.entries.map (·.2)) :
    (visibleRoots session.history.roots filters.root filters.paths).contains repository.root =
      true ↔ filters.root.all (·.contains repository.root) = true ∧
        filters.paths.all (·.touchesRoot repository.root) = true := by
  obtain ⟨entry, hentry, rfl⟩ := List.mem_map.1 mem
  have same := opened.keyed entry hentry
  have congr (root : Path) (h : (root == entry.2.root) = true) :
      filters.root.all (·.contains root) = filters.root.all (·.contains entry.2.root) ∧
        filters.paths.all (·.touchesRoot root) = filters.paths.all (·.touchesRoot entry.2.root) :=
    ⟨by simp only [filter_contains_congr h], by simp only [touchesRoot_congr h]⟩
  rw [CommitLog.contains_visibleRoots]
  constructor
  · rintro ⟨root, -, h, passes⟩
    rwa [(congr root h).1, (congr root h).2] at passes
  · intro passes
    refine ⟨entry.1, ?_, same, ?_⟩
    · rw [opened.history]
      exact List.mem_map_of_mem hentry
    · rwa [(congr entry.1 same).1, (congr entry.1 same).2]

/-- What a search at a later stage than the first shows of a repository. -/
theorem Opened.shows_iff (opened : session.Opened disk indexed loaded) (later : stage ≠ .initial)
    (mem : entry ∈ session.repositories.entries)
    (has : session.HasCommit disk i entry.2 id commit) :
    let roots := visibleRoots session.history.roots filters.root filters.paths
    let heads := session.history.matchingHeads roots filters
    let matching := ((session.searcher disk).filterDetails session.history filters stage roots
      heads).matching
    session.history.graph.Shows heads.set? matching.set? i ↔
      (filters.root.all (·.contains entry.2.root) = true ∧
        filters.paths.all (·.touchesRoot entry.2.root) = true) ∧
      entry.2.Reaches disk filters.branch id ∧
      (filters.details = [] ∨
        if indexed.contains entry.2.root then
          ∃ m, entry.2.IsDetails disk session.store indexed m ∧ m.hash = id ∧
            filters.acceptsDetails m = true
        else hasUserNames filters entry.2.root = true ∧
          ∃ found, entry.2.findCommits disk session.store (filtersFor filters entry.1)
            (stage.limit session.budget) = .ok found ∧ ∃ f ∈ found, f.hash = id) := by
  intro roots heads matching
  have all : filters.root = none → filters.paths = none →
      ∀ e ∈ session.repositories.entries, roots.contains e.2.root = true := by
    intro root paths e he
    refine (opened.contains_visibleRoots (List.mem_map_of_mem he)).2 ?_
    rw [root, paths]
    exact ⟨rfl, rfl⟩
  have eligible : session.Eligible disk filters roots i ↔
      roots.contains entry.2.root = true ∧ entry.2.Reaches disk filters.branch id := by
    constructor
    · rintro ⟨r, id', c, has', h⟩
      obtain ⟨rfl, rfl, -⟩ := opened.unique has has'
      exact h
    · exact fun h => ⟨_, id, commit, has, h⟩
  rw [PermanentGraph.Shows, ← and_assoc, opened.heads_allow_iff all, eligible,
    ← MatchingSet.contains_iff, opened.contains_filterDetails later mem has,
    opened.contains_visibleRoots has.opened]
  tauto

/-- A search shows the eligible commits that the filters of details let through. -/
theorem Opened.commits_search (opened : session.Opened disk indexed loaded) {sort : SortOrder}
    (ordered : sort = .date ∨
      ∀ repository ∈ session.repositories.entries.map (·.2), repository.Acyclic disk)
    (noHash : filters.activeHash? = none) :
    let roots := visibleRoots session.history.roots filters.root filters.paths
    let shown := ((session.searcher disk).search session.history sort filters stage).graph.commits
    shown.Nodup ∧ ∀ i, i ∈ shown ↔ session.Eligible disk filters roots i ∧
      ((session.searcher disk).filterDetails session.history filters stage roots
        (session.history.matchingHeads roots filters)).matching.contains i = true := by
  intro roots shown
  obtain ⟨nodup, mem⟩ := @Searcher.commits_search (session.searcher disk) filters stage
    session.history opened.wellFormed sort (ordered.imp_right opened.childrenFirst) noHash
  refine ⟨nodup, fun i => ?_⟩
  rw [mem, ← and_assoc, opened.heads_allow_iff]
  intro root paths entry hentry
  refine (opened.contains_visibleRoots (List.mem_map_of_mem hentry)).2 ?_
  rw [root, paths]
  exact ⟨rfl, rfl⟩

end Session

end CommitLog
