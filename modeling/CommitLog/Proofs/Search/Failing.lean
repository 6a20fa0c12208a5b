import CommitLog.Proofs.Search.Dependence
import CommitLog.Proofs.Search.Named

/-!
# Sources that fail

A source that fails finds nothing, and the search goes on as if it were not there: what the other
sources are asked, and what is shown of what they find, stays the same (`Searcher.search_without`).

    let result := searcher.search history sort filters stage
    (∀ request ∈ result.requests, request.root ∈ roots → searcher.Fails request) →
      (searcher.without roots).search history sort filters stage =
        { result with requests := apart from those to the roots }
-/

namespace CommitLog

namespace PathTable

variable {α : Type} {table : PathTable α} {gone : List Path} {path : Path}

/-- The table without the entries of some paths. -/
def without (table : PathTable α) (gone : List Path) : PathTable α :=
  ⟨table.entries.filter fun entry => !gone.contains entry.1⟩

theorem paths_without :
    (table.without gone).paths = table.paths.filter fun p => !gone.contains p := by
  unfold paths without
  rw [List.filter_map]
  rfl

/-- The other entries stay. -/
theorem get?_without (other : gone.contains path = false) :
    (table.without gone).get? path = table.get? path := by
  unfold get? without
  rw [List.find?_filter]
  congr 2
  funext entry
  by_cases same : (entry.1 == path) = true
  · have kept : gone.contains entry.1 = false := (List.contains_congr same).trans other
    simp [same, kept]
  · simp [same]

end PathTable

/-- The requests that go to other repositories. -/
def SourceRequest.beside (roots : List Path) (requests : List SourceRequest) : List SourceRequest :=
  requests.filter fun request => !roots.contains request.root

namespace Searcher

/-- The search without the sources of some repositories. -/
def without (searcher : Searcher) (roots : List Path) : Searcher :=
  { searcher with sources := searcher.sources.without roots }

def Fails (searcher : Searcher) (request : SourceRequest) : Prop :=
  ∃ source fault, searcher.sources.get? request.root = some source ∧
    source.find request = .error fault

variable {searcher : Searcher} {history : LoadedHistory} {filters : Filters} {stage : Stage}
  {gone visible : List Path} {request : SourceRequest}

/-! ## Requests and answers -/

theorem answer_of_fails (fails : searcher.Fails request) : searcher.answer request = [] := by
  obtain ⟨source, fault, found, failed⟩ := fails
  unfold answer
  rw [found]
  dsimp only
  rw [failed]

theorem answer_without (other : gone.contains request.root = false) :
    (searcher.without gone).answer request = searcher.answer request := by
  have source : (searcher.without gone).sources.get? request.root =
      searcher.sources.get? request.root := PathTable.get?_without other
  unfold answer
  rw [source]
  rfl

/-- The other sources are asked the same. -/
theorem requestsFor_without (limit : Nat) :
    (searcher.without gone).requestsFor filters visible limit =
      SourceRequest.beside gone (searcher.requestsFor filters visible limit) := by
  have paths : (searcher.without gone).sources.paths =
      searcher.sources.paths.filter fun root => !gone.contains root := PathTable.paths_without
  unfold requestsFor SourceRequest.beside
  rw [paths, List.filter_map, List.filter_filter, List.filter_filter]
  congr 1
  exact List.filter_congr fun root _ => Bool.and_comm ..

/-- Requests that fail add nothing to what is found. -/
theorem flatMap_answer_beside {requests : List SourceRequest}
    (fails : ∀ request ∈ requests, gone.contains request.root = true → searcher.Fails request) :
    (SourceRequest.beside gone requests).flatMap (searcher.without gone).answer =
      requests.flatMap searcher.answer := by
  induction requests with
  | nil => rfl
  | cons request requests ih =>
    have rest := ih fun r mem => fails r (List.mem_cons_of_mem _ mem)
    unfold SourceRequest.beside at rest ⊢
    cases asked : gone.contains request.root with
    | true =>
      have nothing := answer_of_fails (fails request List.mem_cons_self asked)
      rw [List.filter_cons_of_neg (by simp [asked]), rest, List.flatMap_cons, nothing,
        List.nil_append]
    | false =>
      rw [List.filter_cons_of_pos (by simp [asked]), List.flatMap_cons, List.flatMap_cons, rest,
        answer_without asked]

/-! ## The cascade -/

theorem filterWithSources_without
    (fails : ∀ request ∈ (searcher.filterWithSources filters visible stage).requests,
      gone.contains request.root = true → searcher.Fails request) :
    let result := searcher.filterWithSources filters visible stage
    (searcher.without gone).filterWithSources filters visible stage =
      { result with requests := SourceRequest.beside gone result.requests } := by
  intro result
  unfold filterWithSources at fails
  have limit : stage.limit (searcher.without gone).budget = stage.limit searcher.budget := rfl
  simp only [result, filterWithSources, limit, requestsFor_without, flatMap_answer_beside fails]

theorem cascade_without {graph : PermanentGraph} {heads : MatchingSet}
    (fails : ∀ request ∈ (searcher.cascade graph filters visible heads stage).requests,
      gone.contains request.root = true → searcher.Fails request) :
    let result := searcher.cascade graph filters visible heads stage
    (searcher.without gone).cascade graph filters visible heads stage =
      { result with requests := SourceRequest.beside gone result.requests } := by
  intro result
  have memory : (searcher.without gone).filterInMemory graph filters visible heads =
      searcher.filterInMemory graph filters visible heads := filterInMemory_sources _
  have limit : stage.limit (searcher.without gone).budget = stage.limit searcher.budget := rfl
  unfold cascade at fails
  simp only [result, cascade, memory, limit]
  split at fails
  · dsimp only at fails
    split at fails
    · next initial enough =>
      rw [if_pos initial, if_pos enough, if_pos initial, if_pos enough]
      rfl
    · next initial few =>
      rw [if_pos initial, if_neg few, if_pos initial, if_neg few]
      exact filterWithSources_without fails
  · next later =>
    rw [if_neg later, if_neg later]
    exact filterWithSources_without fails

/-! ## The search -/

theorem filterDetails_without {heads : MatchingSet}
    (fails : ∀ request ∈ (searcher.filterDetails history filters stage visible heads).requests,
      gone.contains request.root = true → searcher.Fails request) :
    let result := searcher.filterDetails history filters stage visible heads
    (searcher.without gone).filterDetails history filters stage visible heads =
      { result with requests := SourceRequest.beside gone result.requests } := by
  intro result
  have index : (searcher.without gone).index = searcher.index := rfl
  unfold filterDetails at fails
  simp only [result, filterDetails, index]
  split at fails
  · next none =>
    rw [if_pos none, if_pos none]
    rfl
  next some =>
  rw [if_neg some, if_neg some]
  dsimp only at fails
  split at fails
  · next unable =>
    rw [if_pos unable, if_pos unable]
    exact cascade_without fails
  next able =>
  rw [if_neg able, if_neg able]
  split at fails
  · next whole =>
    rw [if_pos whole, if_pos whole]
    rfl
  · next others =>
    rw [if_neg others, if_neg others, cascade_without fails]

/-- **Sources that fail are as good as none.**  Without the sources of some repositories, all of
which fail when they are asked, a search shows the same rows, ends at the same stage, says the same
about a wider one and has the same filters; the other sources are asked the same. -/
theorem search_without (searcher : Searcher) (history : LoadedHistory) (sort : SortOrder)
    (filters : Filters) (stage : Stage) (roots : List Path)
    (fails : ∀ request ∈ (searcher.search history sort filters stage).requests,
      roots.contains request.root = true → searcher.Fails request) :
    let result := searcher.search history sort filters stage
    (searcher.without roots).search history sort filters stage =
      { result with requests := SourceRequest.beside roots result.requests } := by
  intro result
  cases hash : filters.activeHash? with
  | some hashes =>
    simp only [result, search, hash]
    rfl
  | none =>
    simp only [search, hash] at fails
    simp only [result, search, hash, filterDetails_without fails]

/-! ## An example -/

namespace Torn

open Twins Remembered

/-- A source for each of two repositories: one fails, the other finds its commit. -/
def torn : Searcher :=
  { finder with sources := ⟨[(⟨"/a"⟩, ⟨fun request => .error (.unknownRoot request.root)⟩),
    (⟨"/b"⟩, ⟨fun _ => .ok [⟨.zero, [], 4⟩]⟩)]⟩ }

theorem matching_torn : (torn.filterDetails (historyOf commits) anyTime .all
    (visibleRoots [⟨"/a"⟩, ⟨"/b"⟩] none none) .unconstrained).matching = .only (.ofList [1]) := by
  have number : torn.store.indexOf? ⟨.zero, ⟨"/b"⟩⟩ = some 1 :=
    (CommitStore.inStep_ofIds ids).indexOf?_eq_some.2 ⟨_, commitId?_finder 1, BEq.rfl⟩
  have answer : torn.answer ⟨⟨"/b"⟩, anyTime, greatestCount⟩ = [1] := by
    show [FoundCommit.mk .zero [] 4].filterMap (fun _ => torn.store.indexOf? _) = [1]
    exact List.filterMap_cons_some (by exact number)
  have answers : [⟨⟨"/a"⟩, anyTime, greatestCount⟩, ⟨⟨"/b"⟩, anyTime, greatestCount⟩].flatMap
      torn.answer = [1] := by
    rw [List.flatMap_cons, List.flatMap_singleton, answer]
    rfl
  exact congrArg (fun indices => MatchingSet.only (.ofList indices)) answers

theorem requests_torn : (torn.search (historyOf commits) .date anyTime .all).requests =
    [⟨⟨"/a"⟩, anyTime, greatestCount⟩, ⟨⟨"/b"⟩, anyTime, greatestCount⟩] := by
  rfl

theorem mem_commits_torn :
    1 ∈ (torn.search (historyOf commits) .date anyTime .all).graph.commits := by
  obtain ⟨-, shown⟩ := @commits_search torn anyTime .all (historyOf commits)
    (PermanentGraph.wellFormed_ofCommits commits []) .date (.inl rfl) rfl
  have known : ∃ c ∈ commits, c.index = 1 := by decide
  refine (shown 1).2 ⟨PermanentGraph.exists_row_ofCommits.2 known, fun set constraint => ?_, ?_⟩
  · cases constraint
  · refine (congrArg (fun matching => matching.contains 1) matching_torn).trans ?_
    decide

end Torn

open Torn Twins Remembered

/-- Both sources are asked, the first one fails, and the commit of the other is shown, as it is
without the first. -/
theorem search_without_torn :
    let result := torn.search (historyOf commits) .date anyTime .all
    (∀ request ∈ result.requests,
      [(⟨"/a"⟩ : Path)].contains request.root = true → torn.Fails request) ∧
    result.requests.length = 2 ∧ 1 ∈ result.graph.commits ∧
    (torn.without [⟨"/a"⟩]).search (historyOf commits) .date anyTime .all =
      { result with requests := [⟨⟨"/b"⟩, anyTime, greatestCount⟩] } := by
  intro result
  have asked : result.requests = _ := requests_torn
  have fails : ∀ request ∈ result.requests,
      [(⟨"/a"⟩ : Path)].contains request.root = true → torn.Fails request := by
    rw [asked]
    intro request mem visible
    rcases List.mem_cons.1 mem with rfl | mem
    · exact ⟨_, _, rfl, rfl⟩
    · rw [List.mem_singleton.1 mem] at visible
      cases visible
  refine ⟨fails, by rw [asked]; rfl, mem_commits_torn, ?_⟩
  refine (search_without torn (historyOf commits) .date anyTime .all [⟨"/a"⟩] fails).trans ?_
  rw [requests_torn]
  rfl

end Searcher

end CommitLog
