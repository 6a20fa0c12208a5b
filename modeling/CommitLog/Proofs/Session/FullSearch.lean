import CommitLog.Proofs.Filter.Details
import CommitLog.Proofs.Session.Opening
import CommitLog.Proofs.Session.Search

/-!
# What a search of all stages shows

`Filters.Admits` says what the filters ask of a commit, by the objects of its repository alone.  At
the last stage a search of repositories whose objects can be read shows exactly these commits, each
once, whatever is indexed or kept in memory (`Session.commits_search_all`).

    i ∈ shown ↔ ∃ r id c, session.HasCommit disk i r id c ∧ filters.Admits user r disk id c
-/

namespace CommitLog

/-- A commit and its first parent differ in a file at or below a path of the filter. -/
def Repository.Changes (repository : Repository) (disk : Disk) (commit : Commit)
    (filter : StructureFilter) : Prop :=
  ∃ old names, (repository.reader disk).OldTree commit old ∧
    (repository.reader disk).Differs old (some commit.tree) names ∧
    filter.Covers repository.root names

namespace Filters

/-- What the filters of details ask of a commit of a repository. -/
structure AdmitsDetails (filters : Filters) (currentUser : Option String) (repository : Repository)
    (disk : Disk) (commit : Commit) : Prop where
  user : ∀ filter, filters.user = some filter →
    filter.Names (currentUser.or (filter.currentUser? repository.root)) commit.author
  date : ∀ filter, filters.date = some filter →
    filter.acceptsInstant commit.author.instant = true
  text : ∀ filter, filters.text = some filter → filter.acceptsMessage commit.message = true
  changes : ∀ filter, filters.paths = some filter → repository.Changes disk commit filter

/-- What the filters ask of a commit of a repository. -/
structure Admits (filters : Filters) (currentUser : Option String) (repository : Repository)
    (disk : Disk) (id : ObjectId) (commit : Commit) : Prop extends
    AdmitsDetails filters currentUser repository disk commit where
  root : ∀ filter, filters.root = some filter → filter.contains repository.root = true
  touched : ∀ filter, filters.paths = some filter → filter.touchesRoot repository.root = true
  reached : filters.branch.isSome = true ∨ filters.root.isSome = true ∨
    filters.paths.isSome = true → repository.Reaches disk filters.branch id

theorem admitsDetails_since {time : Int} {currentUser : Option String} {repository : Repository}
    {disk : Disk} {commit : Commit} :
    (Sample.since time).AdmitsDetails currentUser repository disk commit ↔
      (Time.Instant.ofSeconds time).notAfter commit.author.instant = true := by
  have window : (⟨some (.ofSeconds time), Option.none⟩ : DateFilter).acceptsInstant
      commit.author.instant = (Time.Instant.ofSeconds time).notAfter commit.author.instant :=
    Bool.and_true _
  constructor
  · intro admits
    rw [← window]
    exact admits.date _ rfl
  · intro late
    refine ⟨by simp [Sample.since, none], ?_, by simp [Sample.since, none],
      by simp [Sample.since, none]⟩
    intro filter same
    obtain rfl := Option.some.inj same
    rw [window, late]

theorem admits_since {time : Int} {currentUser : Option String} {repository : Repository}
    {disk : Disk} {id : ObjectId} {commit : Commit} :
    (Sample.since time).Admits currentUser repository disk id commit ↔
      (Time.Instant.ofSeconds time).notAfter commit.author.instant = true := by
  rw [← @admitsDetails_since time currentUser repository disk commit]
  refine ⟨fun admits => admits.toAdmitsDetails, fun details => ⟨details, ?_, ?_, ?_⟩⟩
  all_goals simp [Sample.since, none]

end Filters

namespace Session

open Searcher

variable {disk : Disk} {session : Session} {indexed : List Path} {loaded : LoadedRoots}
  {i : CommitIndex} {repository : Repository} {id : ObjectId} {commit : Commit} {filters : Filters}
  {roots : List Path} {m : Metadata} {entry : Path × Repository}

/-! ## Filters of details -/

/-- Details that describe a commit pass when the commit is admitted, if the filters of paths agree
about what it changes. -/
theorem acceptsDetails_map_iff (describes : repository.Describes id commit m)
    (narrow : StructureFilter → StructureFilter)
    (changes : ∀ filter, filters.paths = some filter →
      ((narrow filter).accepts m = true ↔ repository.Changes disk commit filter)) :
    ({ filters with paths := filters.paths.map narrow } : Filters).acceptsDetails m = true ↔
      filters.AdmitsDetails none repository disk commit := by
  have user (filter : UserFilter) : filter.accepts m = true ↔
      filter.Names (Option.or none (filter.currentUser? repository.root)) commit.author := by
    rw [UserFilter.accepts_iff, UserFilter.currentUser?_congr describes.root, describes.author,
      Option.none_or]
  have date (filter : DateFilter) : filter.accepts m =
      filter.acceptsInstant commit.author.instant := by
    rw [DateFilter.accepts, describes.author]
  have text (filter : TextFilter) : filter.accepts m = filter.acceptsMessage commit.message := by
    rw [TextFilter.accepts, describes.message]
  rw [Filters.acceptsDetails_iff]
  simp only [user, date, text]
  constructor
  · rintro ⟨users, dates, texts, paths⟩
    refine ⟨users, dates, texts, ?_⟩
    intro filter mem
    refine (changes filter mem).1 (paths _ ?_)
    rw [mem, Option.map_some]
  · intro admits
    refine ⟨admits.user, admits.date, admits.text, ?_⟩
    intro narrowed mem
    obtain ⟨filter, hfilter, rfl⟩ := Option.map_eq_some_iff.1 mem
    exact (changes filter hfilter).2 (admits.changes filter hfilter)

theorem covers_congr {filter : StructureFilter} {a b : Path} {names : List String}
    (same : (a == b) = true) : filter.Covers a names ↔ filter.Covers b names := by
  unfold StructureFilter.Covers
  rw [Path.beq_iff.1 same]

/-- The tree that a commit is compared with is whole, too. -/
theorem Opened.exists_oldTree (opened : session.Opened disk indexed loaded)
    (intact : repository.Intact disk) (has : session.HasCommit disk i repository id commit) :
    ∃ old, (repository.reader disk).OldTree commit old ∧
      ∀ tree ∈ old, (repository.reader disk).Whole tree := by
  unfold ObjectReader.OldTree
  cases head : commit.parents.head? with
  | none => exact ⟨none, rfl, by simp⟩
  | some parent =>
    obtain ⟨p, c, hp⟩ := opened.exists_parent has (List.mem_of_mem_head? head)
    refine ⟨some c.tree, ⟨c, hp.holds.1, rfl⟩, ?_⟩
    intro tree mem
    rw [← Option.some.inj mem]
    exact intact.whole parent c hp.holds

theorem oldTree_unique {reader : ObjectReader} {old old' : Option ObjectId}
    (h : reader.OldTree commit old) (h' : reader.OldTree commit old') : old' = old := by
  unfold ObjectReader.OldTree at h h'
  cases head : commit.parents.head? with
  | none =>
    rw [head] at h h'
    rw [h, h']
  | some parent =>
    rw [head] at h h'
    obtain ⟨c, read, rfl⟩ := h
    obtain ⟨c', read', rfl⟩ := h'
    rw [Except.ok.inj (read'.symm.trans read)]

/-- What is known of the changes of a commit decides about a filter of paths, as long as the
selection has all that the filter covers. -/
theorem accepts_iff_changes {filter narrowed : StructureFilter} {selection : PathSelection}
    {paths : List Path} {old : Option ObjectId} (absolute : repository.root.components ≠ [])
    (describes : repository.Describes id commit m) (changed : m.changedPaths = some paths)
    (hold : (repository.reader disk).OldTree commit old)
    (list : (repository.reader disk).IsChangeList old (some commit.tree) selection paths)
    (agree : ∀ names, (repository.reader disk).Differs old (some commit.tree) names →
      (selection.Wants names ∧ narrowed.Covers repository.root names ↔
        filter.Covers repository.root names)) :
    narrowed.accepts m = true ↔ repository.Changes disk commit filter := by
  have own : m = m.withChangedPaths paths := by
    rw [Metadata.withChangedPaths, ← changed]
  have absolute' : m.root.components ≠ [] := by
    rwa [Path.beq_iff.1 describes.root]
  rw [own, StructureFilter.accepts_withChangedPaths absolute' list]
  simp only [covers_congr describes.root]
  constructor
  · rintro ⟨names, ⟨differs, wants⟩, covers⟩
    exact ⟨old, names, hold, differs, (agree names differs).1 ⟨wants, covers⟩⟩
  · rintro ⟨old', names, hold', differs, covers⟩
    obtain rfl := oldTree_unique hold hold'
    obtain ⟨wants, covers⟩ := (agree names differs).2 covers
    exact ⟨names, ⟨differs, wants⟩, covers⟩

/-- The source of a repository judges a commit by what the filters ask of it. -/
theorem Opened.judge_iff (opened : session.Opened disk indexed loaded)
    (mem : entry ∈ session.repositories.entries) (intact : entry.2.Intact disk)
    (has : session.HasCommit disk i entry.2 id commit) :
    ∃ good, entry.2.judge disk session.store (filtersFor filters entry.1) ⟨id, commit⟩ =
        .ok good ∧ (good = true ↔ filters.AdmitsDetails none entry.2 disk commit) := by
  have absolute := opened.absolute entry mem
  have same : (entry.1 == entry.2.root) = true := opened.keyed entry mem
  unfold Repository.judge CommitStore.metadata?
  rw [has.number]
  dsimp only [Option.map_some]
  set m : Metadata := .ofCommit i ⟨id, entry.2.root⟩
    (session.store.parentsOf entry.2.root commit) commit
  have describes : entry.2.Describes id commit m := ⟨rfl, BEq.rfl, rfl, rfl⟩
  cases paths : filters.paths with
  | none =>
    have free : (filtersFor filters entry.1).paths = none := by
      rw [filtersFor, paths]
      rfl
    rw [free]
    refine ⟨_, rfl, ?_⟩
    rw [filtersFor]
    refine acceptsDetails_map_iff describes _ ?_
    intro filter h
    rw [paths] at h
    cases h
  | some filter =>
    have narrowed : (filtersFor filters entry.1).paths = some (filter.forRoot entry.1) := by
      rw [filtersFor, paths]
      rfl
    rw [narrowed]
    dsimp only
    obtain ⟨old, hold, wholeOld⟩ := opened.exists_oldTree intact has
    have whole := intact.whole id commit has.holds
    obtain ⟨changed, run, list⟩ := @ObjectReader.changesOf_spec (entry.2.reader disk) commit old
      (.ofPaths ((filter.forRoot entry.1).filesForRoot entry.2.root)) rfl hold wholeOld whole
    refine ⟨_, bind_eq_ok.2 ⟨changed, run, rfl⟩, ?_⟩
    rw [filtersFor]
    have describes' : entry.2.Describes id commit (m.withChangedPaths changed) :=
      ⟨rfl, BEq.rfl, rfl, rfl⟩
    refine acceptsDetails_map_iff describes' _ ?_
    intro filter' h
    rw [paths] at h
    obtain rfl := Option.some.inj h
    refine accepts_iff_changes absolute describes' rfl hold list ?_
    intro names differs
    -- cutting the filter down to the repository loses none of its files
    have isName := ObjectReader.isName_of_differs (fun id h => (wholeOld id h).fitsIn)
      (fun id h => Option.some.inj h ▸ whole.fitsIn) differs
    have absolute' : entry.1.components ≠ [] := by
      rwa [Path.beq_iff.1 same]
    rw [PathSelection.wants_filesForRoot absolute isName, and_self, ← covers_congr same,
      StructureFilter.covers_forRoot absolute', covers_congr same]

/-- The index judges a commit by what the filters ask of it. -/
theorem Opened.indexed_iff (opened : session.Opened disk indexed loaded)
    (mem : entry ∈ session.repositories.entries) (intact : entry.2.Intact disk)
    (has : session.HasCommit disk i entry.2 id commit)
    (asked : indexed.contains entry.2.root = true) :
    (∃ m, entry.2.IsDetails disk session.store indexed m ∧ m.hash = id ∧
      filters.acceptsDetails m = true) ↔ filters.AdmitsDetails none entry.2 disk commit := by
  have judged (m : Metadata) (details : entry.2.IsDetails disk session.store indexed m)
      (hash : m.hash = id) : filters.acceptsDetails m = true ↔
        filters.AdmitsDetails none entry.2 disk commit := by
    subst hash
    obtain ⟨c, holds, -, describes, -, changed⟩ := Repository.Describes.of_isDetails details
    obtain rfl := Except.ok.inj (holds.1.symm.trans has.holds.1)
    rw [if_pos asked] at changed
    obtain ⟨paths, run, changed⟩ := changed
    obtain ⟨old, hold, wholeOld⟩ := opened.exists_oldTree intact has
    obtain ⟨paths', run', list⟩ := @ObjectReader.changesOf_spec (entry.2.reader disk) c old
      .everything rfl hold wholeOld (intact.whole _ c has.holds)
    obtain rfl := Except.ok.inj (run.symm.trans run')
    have all := @acceptsDetails_map_iff disk entry.2 m.hash c filters m describes (fun f => f) ?_
    · rwa [Option.map_id'] at all
    · intro filter _
      refine accepts_iff_changes (opened.absolute entry mem) describes changed hold list ?_
      intro names _
      exact and_iff_right (PathSelection.wants_everything names)
  constructor
  · rintro ⟨m, details, hash, accepted⟩
    exact (judged m details hash).1 accepted
  · intro admits
    obtain ⟨m, hash, details⟩ := opened.covers.detailed entry.2 has.opened id commit has.holds
    rw [← opened.store] at details
    exact ⟨m, details, hash, (judged m details hash).2 admits⟩

theorem admitsDetails_of_nil {currentUser : Option String} (h : filters.details = []) :
    filters.AdmitsDetails currentUser repository disk commit := by
  obtain ⟨user, date, text, paths⟩ := Filters.details_eq_nil h
  constructor
  · intro filter some
    rw [user] at some
    cases some
  · intro filter some
    rw [date] at some
    cases some
  · intro filter some
    rw [text] at some
    cases some
  · intro filter some
    rw [paths] at some
    cases some

/-! ## The current user -/

/-- The filters that a session applies differ in the current user only. -/
theorem Opened.resolveUser_eq (opened : session.Opened disk indexed loaded) (filters : Filters) :
    ∃ resolve : UserFilter → UserFilter,
      session.resolveUser filters = { filters with user := filters.user.map resolve } ∧
      ∀ filter, (resolve filter).names = filter.names ∧
        ∀ entry ∈ session.repositories.entries, (resolve filter).currentUser? entry.2.root =
          session.currentUser.or (filter.currentUser? entry.2.root) := by
  unfold resolveUser
  obtain ⟨branch, root, paths, hash, user, date, text⟩ := filters
  cases session.currentUser with
  | none =>
    refine ⟨fun filter => filter, ?_, fun filter => ⟨rfl, fun entry _ => rfl⟩⟩
    cases user <;> rfl
  | some name =>
    refine ⟨fun filter => session.repositories.paths.foldl (·.withCurrentUser · name) filter, ?_,
      fun filter => ⟨UserFilter.names_foldl _ _, fun entry mem => ?_⟩⟩
    · cases user <;> rfl
    · have listed : session.repositories.paths.contains entry.2.root = true :=
        List.contains_iff_exists_mem_beq.2
          ⟨entry.1, List.mem_map_of_mem mem, BEq.symm (opened.keyed entry mem)⟩
      rw [UserFilter.currentUser?_foldl, if_pos listed]
      rfl

/-- With the current user in all repositories, the filters ask the same as with the user apart. -/
theorem Opened.admitsDetails_resolveUser (opened : session.Opened disk indexed loaded)
    (mem : entry ∈ session.repositories.entries) :
    (session.resolveUser filters).AdmitsDetails none entry.2 disk commit ↔
      filters.AdmitsDetails session.currentUser entry.2 disk commit := by
  obtain ⟨resolve, same, users⟩ := opened.resolveUser_eq filters
  have names (filter : UserFilter) :
      (resolve filter).Names (Option.or none ((resolve filter).currentUser? entry.2.root))
        commit.author ↔
      filter.Names (session.currentUser.or (filter.currentUser? entry.2.root)) commit.author := by
    rw [Option.none_or, (users filter).2 entry mem, UserFilter.Names, (users filter).1,
      UserFilter.Names]
  rw [same]
  constructor
  · intro admits
    refine ⟨?_, admits.date, admits.text, admits.changes⟩
    intro filter user
    refine (names filter).1 (admits.user _ ?_)
    exact congrArg (Option.map resolve) user
  · intro admits
    refine ⟨?_, admits.date, admits.text, admits.changes⟩
    intro resolved user
    obtain ⟨filter, own, rfl⟩ := Option.map_eq_some_iff.1 user
    exact (names filter).2 (admits.user filter own)

/-! ## The last stage -/

theorem hasUserNames_of_admits (same : (entry.1 == entry.2.root) = true)
    (admits : filters.AdmitsDetails none entry.2 disk commit) :
    hasUserNames filters entry.1 = true := by
  unfold hasUserNames
  cases user : filters.user with
  | none => rfl
  | some filter =>
    have names := admits.user filter user
    rw [Option.none_or, ← UserFilter.currentUser?_congr same] at names
    rw [Option.all_some, UserFilter.userNames_ne_nil names]
    rfl

/-- The sources select the commits that the filters of details admit. -/
theorem Opened.selects_iff (opened : session.Opened disk indexed loaded)
    (mem : entry ∈ session.repositories.entries) (intact : entry.2.Intact disk)
    (has : session.HasCommit disk i entry.2 id commit)
    (reached : entry.2.Reaches disk filters.branch id) :
    session.Selects disk filters roots i ↔
      roots.contains entry.1 = true ∧ filters.AdmitsDetails none entry.2 disk commit := by
  obtain ⟨good, judged, iff⟩ := @Opened.judge_iff disk session indexed loaded i id commit filters
    entry opened mem intact has
  constructor
  · rintro ⟨entry', mem', ⟨visible, -⟩, id', commit', has', passes⟩
    obtain ⟨sameRepository, rfl, rfl⟩ := opened.unique has has'
    have same : (entry'.1 == entry.1) = true := by
      refine BEq.trans (opened.keyed entry' mem') ?_
      rw [sameRepository]
      exact BEq.symm (opened.keyed entry mem)
    obtain rfl := opened.ascending.eq_of_beq mem' mem same
    refine ⟨visible, iff.1 ?_⟩
    exact Except.ok.inj (judged.symm.trans passes.good)
  · rintro ⟨visible, admits⟩
    refine ⟨entry, mem, ⟨visible, hasUserNames_of_admits (opened.keyed entry mem) admits⟩, id,
      commit, has, has.holds.1, reached, ?_⟩
    rw [judged, iff.2 admits]

/-- The sources of intact repositories answer. -/
theorem Opened.answers_of_intact (opened : session.Opened disk indexed loaded)
    (intact : ∀ entry ∈ session.repositories.entries, entry.2.Intact disk) {stage : Stage} :
    ∀ request ∈ ((session.searcher disk).filterWithSources filters roots stage).requests,
      session.Answers disk request := by
  intro request mem
  unfold filterWithSources requestsFor at mem
  obtain ⟨root, hroot, rfl⟩ := List.mem_map.1 mem
  have known := (List.mem_filter.1 hroot).1
  rw [paths_sources] at known
  obtain ⟨entry, hentry, rfl⟩ := List.mem_map.1 known
  have mem' : entry.2 ∈ session.repositories.entries.map (·.2) := List.mem_map_of_mem hentry
  refine (opened.answers_iff hentry).2 ?_
  refine Repository.exists_findCommits (opened.covers.readable entry.2 mem') _ ?_
  intro id commit holds
  obtain ⟨i, has⟩ := opened.exists_number mem' holds
  obtain ⟨good, judged, -⟩ := opened.judge_iff hentry (intact entry hentry) has
  exact ⟨good, judged⟩

/-- The filters of details ask nothing, or what the sources are asked for some repositories. -/
theorem Opened.requests_filterDetails (opened : session.Opened disk indexed loaded)
    (filters : Filters) (roots : List Path) (stage : Stage) :
    let requests := ((session.searcher disk).filterDetails session.history filters stage roots
      (session.history.matchingHeads roots filters)).requests
    requests = [] ∨ ∃ others asked,
      requests = ((session.searcher disk).filterWithSources filters others asked).requests := by
  intro requests
  rcases opened.filterDetails_cases filters roots with
    ⟨-, answer⟩ | ⟨-, -, answer⟩ | ⟨-, answer⟩
  · exact .inl (congrArg DetailsResult.requests (answer stage))
  · exact .inl (congrArg DetailsResult.requests (answer stage))
  · have requests_eq : requests = _ := congrArg DetailsResult.requests (answer stage)
    dsimp only at requests_eq
    rw [requests_eq]
    rcases cascade_cases (session.searcher disk) _ filters _ _ stage with
      ⟨-, -, run⟩ | ⟨asked, -, run⟩
    · exact .inl (congrArg DetailsResult.requests run)
    · exact .inr ⟨_, asked, congrArg DetailsResult.requests run⟩

/-- The sources of intact repositories answer every search. -/
theorem Opened.answers_search (opened : session.Opened disk indexed loaded)
    (intact : ∀ entry ∈ session.repositories.entries, entry.2.Intact disk) (sort : SortOrder)
    (filters : Filters) (stage : Stage) :
    ∀ request ∈ (session.search disk sort filters stage).requests,
      session.Answers disk request := by
  unfold search
  cases hash : (session.resolveUser filters).activeHash? with
  | some hashes =>
    rw [(search_of_hash hash).2.2.2]
    exact List.forall_mem_nil _
  | none =>
    rw [(search_outcome hash).2.2]
    rcases opened.requests_filterDetails (session.resolveUser filters) _ stage with
      requests | ⟨others, asked, requests⟩
    · rw [requests]
      exact List.forall_mem_nil _
    · rw [requests]
      exact opened.answers_of_intact intact

/-- At the last stage the filters of details let through what they admit. -/
theorem Opened.contains_all_iff (opened : session.Opened disk indexed loaded)
    (intact : ∀ entry ∈ session.repositories.entries, entry.2.Intact disk)
    (mem : entry ∈ session.repositories.entries)
    (has : session.HasCommit disk i entry.2 id commit)
    (visible : roots.contains entry.2.root = true)
    (reached : entry.2.Reaches disk filters.branch id) :
    ((session.searcher disk).filterDetails session.history filters .all roots
      (session.history.matchingHeads roots filters)).matching.contains i = true ↔
      filters.AdmitsDetails none entry.2 disk commit := by
  have same : (entry.1 == entry.2.root) = true := opened.keyed entry mem
  have covered : i ∈ session.index.filter (roots.filter session.index.isIndexed) filters ↔
      indexed.contains entry.2.root = true ∧ filters.AdmitsDetails none entry.2 disk commit := by
    rw [opened.mem_index_filter has, and_iff_right visible]
    refine and_congr_right fun asked => ?_
    exact opened.indexed_iff mem (intact entry mem) has asked
  obtain ⟨root, hroot, sameRoot⟩ := List.contains_iff_exists_mem_beq.1 visible
  have isIndexed := opened.isIndexed_iff has.opened sameRoot
  rcases opened.filterDetails_cases filters roots with
    ⟨free, answer⟩ | ⟨-, none, answer⟩ | ⟨-, answer⟩
  · have all := answer .all
    dsimp only at all
    rw [all]
    exact iff_of_true rfl (admitsDetails_of_nil free)
  · have all := answer .all
    dsimp only at all
    rw [all, MatchingSet.contains_only, covered]
    refine and_iff_right (isIndexed.1 ?_)
    by_contra notIndexed
    have other : root ∈ roots.filter fun root => !session.index.isIndexed root :=
      List.mem_filter.2 ⟨hroot, by simpa using notIndexed⟩
    rw [none] at other
    cases other
  · have all := answer .all
    dsimp only at all
    rw [all, MatchingSet.contains_union, covered]
    change ((session.searcher disk).filterWithSources filters _ .all).matching.contains i = true ∨
      _ ↔ _
    have selected : ((session.searcher disk).filterWithSources filters
        (roots.filter fun root => !session.index.isIndexed root) .all).matching.contains i = true ↔
        _ := ⟨opened.selects_of_contains,
          opened.contains_of_selects (opened.answers_of_intact intact) (.inl rfl)⟩
    rw [selected, opened.selects_iff mem (intact entry mem) has reached, ← or_and_right]
    refine and_iff_right ?_
    by_cases asked : indexed.contains entry.2.root = true
    · exact .inr asked
    · refine .inl (List.contains_iff_exists_mem_beq.2 ⟨root, List.mem_filter.2 ⟨hroot, ?_⟩, ?_⟩)
      · have notIndexed := mt isIndexed.1 asked
        simpa using notIndexed
      · exact BEq.trans same sameRoot

/-- What a search of all stages shows. -/
theorem Opened.mem_search_all (opened : session.Opened disk indexed loaded)
    (intact : ∀ entry ∈ session.repositories.entries, entry.2.Intact disk) (sort : SortOrder)
    (noHash : filters.activeHash? = none) :
    let shown := (session.search disk sort filters .all).graph.commits
    shown.Nodup ∧ ∀ i, i ∈ shown ↔ ∃ repository id commit,
      session.HasCommit disk i repository id commit ∧
        filters.Admits session.currentUser repository disk id commit := by
  intro shown
  obtain ⟨resolve, same, -⟩ := opened.resolveUser_eq filters
  have acyclic : ∀ repository ∈ session.repositories.entries.map (·.2),
      repository.Acyclic disk := by
    intro repository mem
    obtain ⟨entry, hentry, rfl⟩ := List.mem_map.1 mem
    exact (intact entry hentry).acyclic
  have noHash' : (session.resolveUser filters).activeHash? = none := by
    rw [same]
    exact noHash
  obtain ⟨nodup, mem⟩ := @Opened.commits_search disk session indexed loaded
    (session.resolveUser filters) .all opened sort (.inr acyclic) noHash'
  refine ⟨nodup, fun i => (mem i).trans ?_⟩
  constructor
  · rintro ⟨⟨repository, id, commit, has, visible, reached⟩, allowed⟩
    obtain ⟨entry, hentry, rfl⟩ := List.mem_map.1 has.opened
    have details := (opened.contains_all_iff intact hentry has visible reached).1 allowed
    rw [opened.contains_visibleRoots has.opened, same] at visible
    rw [same] at reached
    refine ⟨entry.2, id, commit, has, (opened.admitsDetails_resolveUser hentry).1 details, ?_, ?_,
      fun _ => reached⟩
    · intro filter root
      have passes := visible.1
      rwa [root] at passes
    · intro filter paths
      have passes := visible.2
      rwa [paths] at passes
  · rintro ⟨repository, id, commit, has, admits⟩
    obtain ⟨entry, hentry, rfl⟩ := List.mem_map.1 has.opened
    have visible : (visibleRoots session.history.roots (session.resolveUser filters).root
        (session.resolveUser filters).paths).contains entry.2.root = true := by
      rw [opened.contains_visibleRoots has.opened, same]
      exact ⟨(Option.all_eq_true _ _).2 admits.root, (Option.all_eq_true _ _).2 admits.touched⟩
    have reached : entry.2.Reaches disk (session.resolveUser filters).branch id := by
      rw [same]
      by_cases free : filters.branch = none
      · -- a commit that is held is reached by some branch
        rw [free]
        exact has.holds.reaches
      · exact admits.reached (.inl (Option.isSome_iff_ne_none.2 free))
    refine ⟨⟨entry.2, id, commit, has, visible, reached⟩, ?_⟩
    refine (opened.contains_all_iff intact hentry has visible reached).2 ?_
    exact (opened.admitsDetails_resolveUser hentry).2 admits.toAdmitsDetails

/-- The store has a commit under the root of its repository. -/
theorem Opened.commitId?_eq (opened : session.Opened disk indexed loaded)
    (has : session.HasCommit disk i repository id commit) :
    session.store.commitId? i = some ⟨id, repository.root⟩ := by
  obtain ⟨own, hown, same⟩ := opened.inStep.indexOf?_eq_some.1 has.number
  obtain ⟨hash, sameRoot⟩ := CommitId.beq_iff.1 same
  have known := Array.mem_of_getElem? hown
  rw [opened.store] at known
  obtain ⟨r, hr, root, -⟩ := opened.covers.ids own known
  rw [root] at sameRoot
  obtain rfl := opened.eq_of_root hr has.opened sameRoot
  obtain ⟨ownHash, ownRoot⟩ := own
  dsimp only at hash root
  rw [hown, hash, root]

/-- The commits shown, by their ids: nothing but the repositories counts. -/
theorem Opened.exists_shown_iff (opened : session.Opened disk indexed loaded)
    (intact : ∀ entry ∈ session.repositories.entries, entry.2.Intact disk) (sort : SortOrder)
    (noHash : filters.activeHash? = none) (own : CommitId) :
    (∃ i ∈ (session.search disk sort filters .all).graph.commits,
      session.store.commitId? i = some own) ↔
      ∃ repository ∈ session.repositories.entries.map (·.2), ∃ id commit,
        repository.Holds disk id commit ∧
        filters.Admits session.currentUser repository disk id commit ∧
        own = ⟨id, repository.root⟩ := by
  obtain ⟨-, mem⟩ := opened.mem_search_all intact sort noHash
  constructor
  · rintro ⟨i, shown, hown⟩
    obtain ⟨repository, id, commit, has, admits⟩ := (mem i).1 shown
    rw [opened.commitId?_eq has] at hown
    exact ⟨repository, has.opened, id, commit, has.holds, admits, (Option.some.inj hown).symm⟩
  · rintro ⟨repository, hrepository, id, commit, holds, admits, rfl⟩
    obtain ⟨i, has⟩ := opened.exists_number hrepository holds
    exact ⟨i, (mem i).2 ⟨repository, id, commit, has, admits⟩, opened.commitId?_eq has⟩

/-- **A search of all stages shows exactly the commits that the filters admit, each once.**  What is
indexed, how much is kept in memory and the limits of the other stages make no difference. -/
theorem commits_search_all {paths : List Path} {settings : SessionSettings}
    (run : openAt paths settings disk = .ok session)
    (intact : ∀ entry ∈ session.repositories.entries, entry.2.Intact disk)
    (sort : SortOrder) (filters : Filters) (noHash : filters.activeHash? = none) :
    let shown := (session.search disk sort filters .all).graph.commits
    shown.Nodup ∧
    (∀ i, i ∈ shown ↔ ∃ repository id commit, session.HasCommit disk i repository id commit ∧
      filters.Admits settings.currentUser repository disk id commit) ∧
    ∀ (settings' : SessionSettings) (session' : Session),
      openAt paths settings' disk = .ok session' → settings'.currentUser = settings.currentUser →
      ∀ own, (∃ i ∈ (session'.search disk sort filters .all).graph.commits,
          session'.store.commitId? i = some own) ↔
        ∃ i ∈ shown, session.store.commitId? i = some own := by
  intro shown
  obtain ⟨indexed, loaded, opened, -⟩ := opened_of_openAt run
  obtain ⟨found, _, _, -, hfound, table, -, whole⟩ := openAt_eq_ok run
  have user : session.currentUser = settings.currentUser := by rw [whole]
  obtain ⟨nodup, mem⟩ := opened.mem_search_all intact sort noHash
  rw [user] at mem
  refine ⟨nodup, mem, ?_⟩
  intro settings' session' run' sameUser own
  obtain ⟨indexed', loaded', opened', -⟩ := opened_of_openAt run'
  obtain ⟨found', _, _, -, hfound', table', -, whole'⟩ := openAt_eq_ok run'
  obtain rfl := Except.ok.inj (hfound.symm.trans hfound')
  have repositories : session'.repositories = session.repositories := by rw [table', table]
  have user' : session'.currentUser = session.currentUser := by rw [user, whole', sameUser]
  have intact' : ∀ entry ∈ session'.repositories.entries, entry.2.Intact disk := by
    rw [repositories]
    exact intact
  rw [opened'.exists_shown_iff intact' sort noHash, opened.exists_shown_iff intact sort noHash,
    repositories, user']

/-- Of the two commits of the sample, a search from a time between them shows the second. -/
theorem commits_search_all_since : ∃ session,
    openAt [Disk.pathOf Sample.root] .standard Sample.disk = .ok session ∧
      (∀ entry ∈ session.repositories.entries, entry.2.Intact Sample.disk) ∧
      (Sample.since 1500).activeHash? = none ∧
      ∃ i, session.HasCommit Sample.disk i Sample.repository Sample.secondId Sample.second ∧
        (session.search Sample.disk .topological (Sample.since 1500) .all).graph.commits = [i] := by
  obtain ⟨session, run⟩ := Sample.exists_session .standard rfl
  have intact := Sample.intact_entries run
  obtain ⟨nodup, shown, -⟩ :=
    commits_search_all run intact .topological (Sample.since 1500) rfl
  obtain ⟨indexed, loaded, opened, -⟩ := opened_of_openAt run
  obtain ⟨i, has⟩ := opened.exists_number (List.mem_map_of_mem (Sample.mem_entries run))
    (Sample.holds_commits List.mem_cons_self)
  refine ⟨session, run, intact, rfl, i, has, List.perm_singleton.1 ?_⟩
  refine (List.perm_ext_iff_of_nodup nodup (List.nodup_singleton i)).2 fun j => ?_
  rw [shown, List.mem_singleton]
  constructor
  · rintro ⟨r, id, commit, has', admits⟩
    have only : r = Sample.repository := by
      have known := has'.opened
      rw [Sample.entries_session run] at known
      exact List.mem_singleton.1 known
    subst only
    -- the first commit is too early
    have late := Filters.admits_since.1 admits
    rcases List.mem_cons.1 (Sample.readable_repository.2 id commit has'.holds) with same | early
    · cases same
      exact Option.some.inj (has'.number.symm.trans has.number)
    · cases List.mem_singleton.1 early
      cases late
  · rintro rfl
    exact ⟨_, _, _, has, Filters.admits_since.2 rfl⟩

end Session

end CommitLog
