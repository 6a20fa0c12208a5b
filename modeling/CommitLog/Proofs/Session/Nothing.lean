import CommitLog.Proofs.Session.Memory
import CommitLog.Proofs.Session.Widening

/-!
# Searches that show nothing

`VisibleGraph.nothing` is the definite answer that no commit can be shown.  It is true of the last
stage whenever the stage that gave it may find a commit at all.  With a limit of zero a stage is
content with no commit and gives this answer too, although a wider stage may show some
(`Session.graph_nothing_early`).

    result.graph = .nothing → full.graph = .nothing ∨
      result.canWiden = true ∧ result.stage.limit budget = 0
-/

namespace CommitLog

theorem PermanentGraph.visible_ne_nothing (graph : PermanentGraph) (sort : SortOrder)
    (heads commits : Option CommitSet) : graph.visible sort heads commits ≠ .nothing := by
  cases sort <;> exact nofun

namespace MatchingSet

theorem allowsNothing_iff {matching : MatchingSet} :
    matching.allowsNothing = true ↔ ∀ i, ¬ matching.contains i = true := by
  constructor
  · exact not_contains_of_allowsNothing
  · intro none
    cases matching with
    | unconstrained => exact absurd rfl (none 0)
    | only set => exact CommitSet.isEmpty_iff.2 fun i mem => none i (contains_only.2 mem)

/-- What allows no more than nothing allows nothing. -/
theorem allowsNothing_mono {matching other : MatchingSet}
    (sub : ∀ i, matching.contains i = true → other.contains i = true)
    (nothing : other.allowsNothing = true) : matching.allowsNothing = true :=
  allowsNothing_iff.2 fun i h => allowsNothing_iff.1 nothing i (sub i h)

end MatchingSet

namespace Searcher

variable {searcher : Searcher} {filters : Filters} {roots : List Path} {heads : MatchingSet}
  {stage : Stage}

/-- Nothing is shown when the heads or the filters of details allow nothing, and only then. -/
theorem graph_search_eq_nothing {history : LoadedHistory} {sort : SortOrder}
    (noHash : filters.activeHash? = none) :
    let roots := visibleRoots history.roots filters.root filters.paths
    let heads := history.matchingHeads roots filters
    (searcher.search history sort filters stage).graph = .nothing ↔ heads.allowsNothing = true ∨
      (searcher.filterDetails history filters stage roots heads).matching.allowsNothing = true := by
  intro roots heads
  unfold search
  rw [noHash]
  dsimp only
  rw [← Bool.or_eq_true]
  split
  · next nothing => exact iff_of_true rfl nothing
  · next some =>
    refine iff_of_false ?_ some
    exact PermanentGraph.visible_ne_nothing _ _ _ _

/-- A cascade that is content with nothing has a limit of zero. -/
theorem limit_of_cascade {graph : PermanentGraph}
    (canWiden : (searcher.cascade graph filters roots heads stage).canWiden = true)
    (nothing :
      (searcher.cascade graph filters roots heads stage).matching.allowsNothing = true) :
    (searcher.cascade graph filters roots heads stage).stage.limit searcher.budget = 0 := by
  have none {set : CommitSet} (h : (MatchingSet.only set).allowsNothing = true) : set.size = 0 :=
    List.length_eq_zero_iff.2 (List.isEmpty_iff.1 h)
  rcases cascade_cases searcher graph filters roots heads stage with
    ⟨-, enough, run⟩ | ⟨asked, -, run⟩
  · rw [run] at nothing ⊢
    rw [none nothing] at enough
    exact Nat.le_zero.1 enough
  · rw [run] at canWiden nothing ⊢
    have reached := of_decide_eq_true canWiden
    rw [none nothing] at reached
    exact Nat.le_zero.1 reached

end Searcher

namespace Session

open Searcher

variable {disk : Disk} {session : Session} {indexed : List Path} {loaded : LoadedRoots}
  {filters : Filters} {roots : List Path} {heads : MatchingSet} {stage : Stage}

/-- Filters of details that let nothing through at a stage where more could be found have a limit of
zero. -/
theorem Opened.limit_of_filterDetails (opened : session.Opened disk indexed loaded) :
    let result := (session.searcher disk).filterDetails session.history filters stage roots
      (session.history.matchingHeads roots filters)
    result.canWiden = true → result.matching.allowsNothing = true →
      result.stage.limit session.budget = 0 := by
  intro result canWiden nothing
  rcases opened.filterDetails_cases filters roots with
    ⟨-, same⟩ | ⟨-, -, same⟩ | ⟨-, split⟩
  · have result_eq : result = _ := same stage
    rw [result_eq] at canWiden
    cases canWiden
  · have result_eq : result = _ := same stage
    rw [result_eq] at canWiden
    cases canWiden
  · have result_eq : result = _ := split stage
    rw [result_eq] at canWiden nothing ⊢
    refine @limit_of_cascade (session.searcher disk) _ _ _ _ _ canWiden ?_
    exact MatchingSet.allowsNothing_mono (fun i h => MatchingSet.contains_union.2 (.inl h)) nothing

/-- **What shows nothing at the last stage shows nothing at any stage; and a stage that shows nothing
is right for the last stage, unless it is one that is content with no commit.** -/
theorem IsOpen.graph_nothing (isOpen : IsOpen disk session) (sort : SortOrder) (filters : Filters)
    (stage : Stage) (answered : ∀ request ∈ (session.search disk sort filters .all).requests,
      session.Answers disk request) :
    let result := session.search disk sort filters stage
    let full := session.search disk sort filters .all
    (full.graph = .nothing → result.graph = .nothing) ∧
      (result.graph = .nothing → full.graph = .nothing ∨
        result.canWiden = true ∧ result.stage.limit session.budget = 0) := by
  intro result full
  obtain ⟨indexed, loaded, opened⟩ := isOpen.exists_opened
  cases hash : (session.resolveUser filters).activeHash? with
  | some hashes =>
    have same : result.graph = full.graph :=
      (search_of_hash hash).1.trans (search_of_hash hash).1.symm
    rw [same]
    exact ⟨id, .inl⟩
  | none =>
    have outcome (stage : Stage) := @search_outcome (session.searcher disk)
      (session.resolveUser filters) stage session.history sort hash
    have nothing (stage : Stage) := @graph_search_eq_nothing (session.searcher disk)
      (session.resolveUser filters) stage session.history sort hash
    have requests : full.requests = _ := (outcome .all).2.2
    change ∀ request ∈ full.requests, _ at answered
    rw [requests] at answered
    obtain ⟨fewer, complete⟩ := @Opened.filterDetails_all disk session indexed loaded
      (session.resolveUser filters) _ stage opened answered
    constructor
    · intro none
      refine (nothing stage).2 (((nothing .all).1 none).imp_right ?_)
      exact MatchingSet.allowsNothing_mono fewer
    · intro none
      rcases (nothing stage).1 none with noHeads | noDetails
      · exact .inl ((nothing .all).2 (.inl noHeads))
      · have canWiden_eq : result.canWiden = _ := (outcome stage).1
        have stage_eq : result.stage = _ := (outcome stage).2.1
        rw [canWiden_eq, stage_eq]
        cases done : ((session.searcher disk).filterDetails session.history
            (session.resolveUser filters) stage _ _).canWiden with
        | false =>
          refine .inl ((nothing .all).2 (.inr ?_))
          exact MatchingSet.allowsNothing_mono (complete done) noDetails
        | true => exact .inr ⟨rfl, opened.limit_of_filterDetails done noDetails⟩

/-! ## Searches of the sample that show nothing -/

/-- Without an index, the filters of details are left to the sources after the first stage. -/
theorem filterDetails_sources (unindexed : session.index = .none) (some : filters.details ≠ [])
    (later : stage ≠ .initial) :
    (session.searcher disk).filterDetails session.history filters stage roots heads =
      (session.searcher disk).filterWithSources filters roots stage := by
  rw [filterDetails_cascade unindexed some]
  rcases cascade_cases (session.searcher disk) session.history.graph filters roots heads stage with
    ⟨initial, -⟩ | ⟨asked, ⟨initial, -⟩ | ⟨-, rfl⟩, run⟩
  · exact absurd initial later
  · exact absurd initial later
  · exact run

/-- The second stage shows nothing of the sample when the source finds nothing. -/
theorem search_sample_nothing {settings : SessionSettings} {time : Int}
    (run : openAt [Disk.pathOf Sample.root] settings Sample.disk = .ok session)
    (unindexed : settings.indexedRoots = []) (sort : SortOrder)
    (none : ∀ roots i, ¬ ((session.searcher Sample.disk).filterWithSources (Sample.since time) roots
      .firstStep).matching.contains i = true) :
    let result := session.search Sample.disk sort (Sample.since time) .firstStep
    result.graph = .nothing ∧ result.stage = .firstStep := by
  intro result
  have sources (roots : List Path) (heads : MatchingSet) :=
    @filterDetails_sources Sample.disk session (Sample.since time) roots heads .firstStep
      (index_of_openAt run unindexed) (List.cons_ne_nil _ _) nofun
  have shown := @graph_search_eq_nothing (session.searcher Sample.disk) (Sample.since time)
    .firstStep session.history sort rfl
  have outcome := @search_outcome (session.searcher Sample.disk) (Sample.since time) .firstStep
    session.history sort rfl
  dsimp only at shown outcome
  rw [sources] at shown outcome
  exact ⟨shown.2 (.inr (MatchingSet.allowsNothing_iff.2 (none _))), outcome.2.1⟩

/-- Sources that may find no commit find none. -/
theorem Opened.not_contains_of_limit (opened : session.Opened disk indexed loaded)
    (zero : stage.limit session.budget = 0) (i : CommitIndex) :
    ¬ ((session.searcher disk).filterWithSources filters roots stage).matching.contains i =
      true := by
  intro h
  obtain ⟨root, mem, -, h⟩ := mem_filterWithSources.1 h
  rw [paths_sources] at mem
  obtain ⟨entry, hentry, rfl⟩ := List.mem_map.1 mem
  obtain ⟨found, run, f, hf, -⟩ := (opened.mem_answer hentry).1 h
  obtain ⟨tips, -, run⟩ := Repository.findCommits_eq_ok.1 run
  change takeFound _ (stage.limit session.budget) _ = _ at run
  rw [zero, takeFound_zero] at run
  cases run
  cases hf

/-- No commit of the sample is late enough, which the second stage finds out. -/
theorem graph_nothing_since : ∃ session, IsOpen Sample.disk session ∧
    (∀ request ∈ (session.search Sample.disk .date (Sample.since 3000) .all).requests,
      session.Answers Sample.disk request) ∧
    (session.search Sample.disk .date (Sample.since 3000) .firstStep).graph = .nothing ∧
    (session.search Sample.disk .date (Sample.since 3000) .all).graph = .nothing := by
  obtain ⟨session, run⟩ := Sample.exists_session Sample.narrow rfl
  obtain ⟨indexed, loaded, opened, -⟩ := opened_of_openAt run
  have intact := Sample.intact_entries run
  have answered := opened.answers_search intact .date (Sample.since 3000) .all
  obtain ⟨early, stage⟩ := search_sample_nothing run rfl .date fun roots i h => by
    have selects : session.Selects Sample.disk (Sample.since 3000) roots i :=
      opened.selects_of_contains h
    have ⟨entry, mem, _, id, commit, has, _⟩ := selects
    have tooEarly : ∀ c ∈ Sample.commits,
        ¬ (Time.Instant.ofSeconds 3000).notAfter c.2.author.instant = true := by
      decide
    have admits := ((opened.selects_iff mem (intact entry mem) has has.holds.reaches).1 selects).2
    rw [Sample.entries_session run] at mem
    obtain rfl := List.mem_singleton.1 mem
    exact tooEarly _ (Sample.readable_repository.2 id commit has.holds)
      (Filters.admitsDetails_since.1 admits)
  refine ⟨session, .opened run, answered, early, ?_⟩
  refine ((IsOpen.graph_nothing (.opened run) .date (Sample.since 3000) .firstStep answered).2
    early).resolve_right ?_
  -- the stage that has answered may find one commit
  rintro ⟨-, limit⟩
  rw [stage, budget_of_openAt run] at limit
  cases limit

/-- With a limit of zero the second stage says that nothing can be shown, and the last stage shows
a commit. -/
theorem graph_nothing_early : ∃ session,
    openAt [Disk.pathOf Sample.root] { Sample.narrow with budget := ⟨5, 0⟩ } Sample.disk =
      .ok session ∧
    (∀ repository ∈ session.repositories.entries.map (·.2), repository.Acyclic Sample.disk) ∧
    (∀ stage, ∀ request ∈ (session.search Sample.disk .date (Sample.since 0) stage).requests,
      session.Answers Sample.disk request) ∧
    (session.search Sample.disk .date (Sample.since 0) .firstStep).graph = .nothing ∧
    ∃ i, i ∈ (session.search Sample.disk .date (Sample.since 0) .all).graph.commits := by
  obtain ⟨session, run⟩ := Sample.exists_session { Sample.narrow with budget := ⟨5, 0⟩ } rfl
  obtain ⟨indexed, loaded, opened, -⟩ := opened_of_openAt run
  have intact := Sample.intact_entries run
  refine ⟨session, run, Sample.acyclic_entries run, opened.answers_search intact .date _, ?_, ?_⟩
  · refine (search_sample_nothing run rfl .date fun _ => opened.not_contains_of_limit ?_).1
    rw [budget_of_openAt run]
    rfl
  · obtain ⟨i, has⟩ := opened.exists_number (List.mem_map_of_mem (Sample.mem_entries run))
      (Sample.holds_commits List.mem_cons_self)
    exact ⟨i, ((opened.mem_search_all intact .date rfl).2 i).2
      ⟨_, _, _, has, Filters.admits_since.2 rfl⟩⟩

end Session

end CommitLog
