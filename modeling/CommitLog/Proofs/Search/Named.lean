import CommitLog.Proofs.Graph.Cycles
import CommitLog.Proofs.Graph.Resolve
import CommitLog.Proofs.Search.Shown
import CommitLog.Proofs.Text.Number
import CommitLog.Proofs.Text.Parts
import Mathlib.Data.List.Sort

/-!
# Searches for hashes

A text names a commit when it abbreviates its hash and that of no other commit of the same
repository (`CommitStore.IsOnlyMatch`).  A search for hashes shows the commits that they name and
nothing else counts, except that topological order leaves out what a cycle leads to
(`Searcher.search_hashes`, `Searcher.search_hashes_cycle`).

    i ∈ shown ↔ i is a commit of the graph ∧ (∃ text ∈ texts, store.IsOnlyMatch text i) ∧
      (sort = .topological → no cycle of named commits leads to i)
-/

namespace CommitLog

/-- Sets with the same members are equal. -/
theorem CommitSet.eq_of_mem_iff {a b : CommitSet} (same : ∀ n, n ∈ a ↔ n ∈ b) : a = b := by
  obtain ⟨as, ascending⟩ := a
  obtain ⟨bs, ascending'⟩ := b
  obtain rfl : as = bs := ascending.eq_of_mem_iff ascending' same
  rfl

theorem Text.isEmpty_trimmed {text : String} :
    (Text.trimmed text).isEmpty = true ↔ Text.trim text.toList = [] := by
  rw [String.isEmpty_iff, ← String.toList_eq_nil_iff, Text.trimmed, String.toList_ofList]

/-! ## Abbreviations -/

namespace ObjectId

variable {id : ObjectId} {text : String}

/-- The id begins with four to forty digits of the text, blanks around them and their case aside. -/
def IsAbbreviatedBy (id : ObjectId) (text : String) : Prop :=
  let digits := Text.trim text.toList
  4 ≤ digits.length ∧ digits.length ≤ 40 ∧ digits.map Char.toLower <+: id.digits

instance (id : ObjectId) (text : String) : Decidable (id.IsAbbreviatedBy text) :=
  inferInstanceAs (Decidable (_ ∧ _ ∧ _))

theorem isAbbreviatedBy_iff : id.IsAbbreviatedBy text ↔
    ∃ digits, normalPrefix? text = some digits ∧ id.startsWith digits = true := by
  have length : (typed text).length = (Text.trim text.toList).length := List.length_map _
  constructor
  · rintro ⟨least, most, front⟩
    -- what begins an id consists of digits
    have digits : IsPartial (typed text) := by
      refine ⟨by rwa [length], by rwa [length], fun c mem => ?_⟩
      exact Text.mem_hexDigits.2 (Text.mem_hex (front.subset mem))
    exact ⟨typed text, normalPrefix?_eq_some_iff.2 ⟨digits, rfl⟩,
      List.isPrefixOf_iff_prefix.2 front⟩
  · rintro ⟨digits, normal, front⟩
    obtain ⟨⟨least, most, -⟩, rfl⟩ := normalPrefix?_eq_some_iff.1 normal
    rw [length] at least most
    exact ⟨least, most, List.isPrefixOf_iff_prefix.1 front⟩

theorem isAbbreviatedBy_trimmed :
    id.IsAbbreviatedBy (Text.trimmed text) ↔ id.IsAbbreviatedBy text := by
  unfold IsAbbreviatedBy Text.trimmed
  rw [String.toList_ofList, Text.trim_trim]

end ObjectId

/-! ## Named commits -/

namespace CommitStore

variable {store : CommitStore} {text : String} {i : CommitIndex}

def ofIds (ids : List CommitId) : CommitStore :=
  ids.foldl (fun store id => (store.insert id).2) .empty

theorem indexed_ofIds (ids : List CommitId) : (ofIds ids).Indexed :=
  List.foldlRecOn ids _ indexed_empty fun _ indexed id _ => indexed.insert id

theorem inStep_ofIds (ids : List CommitId) : (ofIds ids).InStep :=
  List.foldlRecOn ids _ inStep_empty fun _ inStep id _ => inStep.insert id

/-- The text abbreviates the hash of a commit, and of no other one at the same root. -/
def IsOnlyMatch (store : CommitStore) (text : String) (i : CommitIndex) : Prop :=
  ∃ own, store.commitId? i = some own ∧ own.hash.IsAbbreviatedBy text ∧
    ∀ j other, store.commitId? j = some other → (other.root == own.root) = true →
      other.hash.IsAbbreviatedBy text → j = i

theorem isOnlyMatch_trimmed :
    store.IsOnlyMatch (Text.trimmed text) i ↔ store.IsOnlyMatch text i := by
  simp only [IsOnlyMatch, ObjectId.isAbbreviatedBy_trimmed]

theorem Indexed.mem_resolve_iff (indexed : store.Indexed) :
    i ∈ store.resolve text ↔ store.IsOnlyMatch text i := by
  rw [indexed.mem_resolve]
  constructor
  · rintro ⟨digits, normal, own, hown, starts, single⟩
    have abbreviated (id : ObjectId) : id.IsAbbreviatedBy text ↔ id.startsWith digits = true := by
      rw [ObjectId.isAbbreviatedBy_iff, normal]
      simp
    refine ⟨own, hown, (abbreviated _).2 starts, fun j other hother same fits => ?_⟩
    exact single j other hother ((abbreviated _).1 fits) same
  · rintro ⟨own, hown, fits, single⟩
    obtain ⟨digits, normal, starts⟩ := ObjectId.isAbbreviatedBy_iff.1 fits
    refine ⟨digits, normal, own, hown, starts, fun j other hother startsOther same => ?_⟩
    exact single j other hother same (ObjectId.isAbbreviatedBy_iff.2 ⟨digits, normal, startsOther⟩)

end CommitStore

namespace Searcher

variable {searcher : Searcher} {filters : Filters} {texts : List String} {i : CommitIndex}

/-! ## The search -/

/-- What the hashes of a filter name; blank texts name nothing. -/
theorem mem_resolveHashes (indexed : searcher.store.Indexed) :
    i ∈ searcher.resolveHashes (.ofTexts texts) ↔
      ∃ text ∈ texts, searcher.store.IsOnlyMatch text i := by
  simp only [resolveHashes, HashFilter.ofTexts, CommitSet.mem_ofList, List.mem_flatMap,
    List.mem_filter, List.mem_map, indexed.mem_resolve_iff]
  constructor
  · rintro ⟨_, ⟨⟨text, mem, rfl⟩, -⟩, named⟩
    exact ⟨text, mem, CommitStore.isOnlyMatch_trimmed.1 named⟩
  · rintro ⟨text, mem, named⟩
    refine ⟨_, ⟨⟨text, mem, rfl⟩, ?_⟩, CommitStore.isOnlyMatch_trimmed.2 named⟩
    -- a text that names a commit is not blank
    obtain ⟨own, -, ⟨least, -, -⟩, -⟩ := named
    rw [Bool.not_eq_true', Bool.eq_false_iff]
    intro empty
    rw [Text.isEmpty_trimmed.1 empty] at least
    cases least

theorem activeHash?_ofTexts (hashes : filters.hash = some (.ofTexts texts))
    (notBlank : ∃ text ∈ texts, Text.trim text.toList ≠ []) :
    filters.activeHash? = some (.ofTexts texts) := by
  obtain ⟨text, mem, ne⟩ := notBlank
  have kept : Text.trimmed text ∈ (HashFilter.ofTexts texts).hashes :=
    List.mem_filter.2 ⟨List.mem_map_of_mem mem, by simpa using mt Text.isEmpty_trimmed.1 ne⟩
  unfold Filters.activeHash?
  rw [hashes, Option.filter_some, if_pos]
  simpa [HashFilter.isEmpty] using List.ne_nil_of_mem kept

/-- **What a search for hashes shows.**  Whatever the other filters, the stage and whatever else can
be searched, it shows the commits of the graph that the hashes name, in permanent order or in
topological order; of these topological order leaves out those below a cycle.  It ends where it has
begun, asks no source, and no wider stage finds more. -/
theorem search_hashes {ids : List CommitId} {commits : List GraphCommit} {tips : List CommitIndex}
    {history : LoadedHistory} (sort : SortOrder) (stage : Stage)
    (store : searcher.store = .ofIds ids) (graph : history.graph = .ofCommits commits tips)
    (hashes : filters.hash = some (.ofTexts texts))
    (notBlank : ∃ text ∈ texts, Text.trim text.toList ≠ []) :
    let result := searcher.search history sort filters stage
    let byDate := (searcher.search history .date filters stage).graph
    (result.graph ≠ .nothing ∧ result.stage = stage ∧ result.canWiden = false ∧
      result.requests = []) ∧
    result.graph.commits.Nodup ∧
    (∀ i, i ∈ result.graph.commits ↔ (∃ c ∈ commits, c.index = i) ∧
      (∃ text ∈ texts, searcher.store.IsOnlyMatch text i) ∧
      (sort = .topological → ¬ BelowCycle byDate.rows i)) ∧
    (GraphCommit.Acyclic commits → ∀ i, ¬ BelowCycle byDate.rows i) ∧
    ∀ (other : Searcher) (others : Filters) (texts' : List String) (stage' : Stage),
      other.store = searcher.store → others.hash = some (.ofTexts texts') →
        (∀ text, text ∈ texts' ↔ text ∈ texts) →
        (other.search history sort others stage').graph = result.graph := by
  intro result byDate
  have wellFormed : history.graph.WellFormed := by
    rw [graph]
    exact PermanentGraph.wellFormed_ofCommits commits tips
  have named (own : Searcher) (same : own.store = searcher.store) (own_texts : List String)
      (i : CommitIndex) : i ∈ own.resolveHashes (.ofTexts own_texts) ↔
        ∃ text ∈ own_texts, searcher.store.IsOnlyMatch text i := by
    have indexed : own.store.Indexed := by
      rw [same, store]
      exact CommitStore.indexed_ofIds ids
    rw [mem_resolveHashes indexed, same]
  have active := activeHash?_ofTexts hashes notBlank
  obtain ⟨shown, widens, ends, asked⟩ :=
    @search_of_hash searcher filters stage history sort _ active
  obtain ⟨dated, -⟩ := @search_of_hash searcher filters stage history .date _ active
  have shows (i : CommitIndex) :
      history.graph.Shows none (some (searcher.resolveHashes (.ofTexts texts))) i ↔
        (∃ c ∈ commits, c.index = i) ∧ ∃ text ∈ texts, searcher.store.IsOnlyMatch text i := by
    simp only [PermanentGraph.Shows, reduceCtorEq, false_implies, implies_true, true_and,
      Option.some.injEq, forall_eq', named searcher rfl, graph, PermanentGraph.exists_row_ofCommits]
  refine ⟨⟨?_, ends, widens, asked⟩, ?_, ?_, ?_, ?_⟩
  · change (searcher.search history sort filters stage).graph ≠ .nothing
    rw [shown]
    cases sort <;> exact VisibleGraph.noConfusion
  · change (searcher.search history sort filters stage).graph.commits.Nodup
    rw [shown]
    exact (PermanentGraph.commits_visible_iff wellFormed sort _ _).1
  · intro i
    change i ∈ (searcher.search history sort filters stage).graph.commits ↔ _ ∧ _ ∧ (_ → ¬
      BelowCycle (searcher.search history .date filters stage).graph.rows i)
    rw [shown, dated, (PermanentGraph.commits_visible_iff wellFormed sort _ _).2, shows, and_assoc]
  · intro acyclic i
    change ¬ BelowCycle (searcher.search history .date filters stage).graph.rows i
    rw [dated]
    have ordered : GraphCommit.ChildrenFirst history.graph.rows := by
      rw [graph]
      exact PermanentGraph.childrenFirst_ofCommits tips acyclic
    exact not_belowCycle_of_parentsLater
      (PermanentGraph.commits_visible_iff wellFormed .date _ _).1
      (PermanentGraph.parentsLater_visible wellFormed ordered .date _ _)
  · intro other others texts' stage' same hashes' members
    obtain ⟨text, mem, ne⟩ := notBlank
    obtain ⟨shown', -⟩ := @search_of_hash other others stage' history sort _
      (activeHash?_ofTexts hashes' ⟨text, (members text).2 mem, ne⟩)
    have sets : other.resolveHashes (.ofTexts texts') = searcher.resolveHashes (.ofTexts texts) :=
      CommitSet.eq_of_mem_iff fun i => by
        simp only [named other same, named searcher rfl, members]
    change _ = (searcher.search history sort filters stage).graph
    rw [shown', shown, sets]

/-! ## An example -/

namespace Twins

/-- The same hash in two repositories. -/
def ids : List CommitId := [⟨.zero, ⟨"/a"⟩⟩, ⟨.zero, ⟨"/b"⟩⟩]

def finder : Searcher := ⟨.ofIds ids, .empty 0, .empty, .empty, .none, .standard⟩

def historyOf (commits : List GraphCommit) : LoadedHistory :=
  ⟨.ofCommits commits [], [], [⟨"/a"⟩, ⟨"/b"⟩]⟩

def commits : List GraphCommit := [⟨0, [], 5⟩, ⟨1, [], 4⟩]

/-- What is typed: the first digits of the hash among blanks. -/
def typed : List String := [" 0000 ", ""]

def byHash : Filters := { Filters.none with hash := some (.ofTexts typed) }

theorem commitId?_finder (i : CommitIndex) : finder.store.commitId? i = ids[i]? := by
  have first : CommitStore.empty.indexOf? ⟨.zero, ⟨"/a"⟩⟩ = none := CommitStore.indexOf?_empty
  have second : (CommitStore.empty.insert ⟨.zero, ⟨"/a"⟩⟩).2.indexOf? ⟨.zero, ⟨"/b"⟩⟩ = none := by
    refine (CommitStore.inStep_empty.insert _).indexOf?_eq_none_iff.2 fun id mem => ?_
    rw [CommitStore.insert_of_indexOf?_eq_none first] at mem
    have only : id = ⟨.zero, ⟨"/a"⟩⟩ := by simpa [CommitStore.empty] using mem
    rw [only]
    exact Bool.false_ne_true
  have store : finder.store = ((CommitStore.empty.insert ⟨.zero, ⟨"/a"⟩⟩).2.insert
    ⟨.zero, ⟨"/b"⟩⟩).2 := rfl
  rw [store, CommitStore.insert_of_indexOf?_eq_none second,
    CommitStore.insert_of_indexOf?_eq_none first, CommitStore.commitId?_eq]
  rfl

theorem exists_not_blank : ∃ text ∈ typed, Text.trim text.toList ≠ [] :=
  ⟨" 0000 ", List.mem_cons_self, by decide⟩

/-- The hash is named in both repositories. -/
theorem isOnlyMatch_iff {i : CommitIndex} :
    (∃ text ∈ typed, finder.store.IsOnlyMatch text i) ↔ i = 0 ∨ i = 1 := by
  have fits : ObjectId.zero.IsAbbreviatedBy " 0000 " := by decide
  have apart : ((⟨"/a"⟩ : Path) == ⟨"/b"⟩) = false ∧ ((⟨"/b"⟩ : Path) == ⟨"/a"⟩) = false :=
    ⟨rfl, rfl⟩
  have small {j : CommitIndex} {other : CommitId} (known : ids[j]? = some other) :
      j = 0 ∧ other = ⟨.zero, ⟨"/a"⟩⟩ ∨ j = 1 ∧ other = ⟨.zero, ⟨"/b"⟩⟩ := by
    match j with
    | 0 => exact .inl ⟨rfl, (Option.some.inj known).symm⟩
    | 1 => exact .inr ⟨rfl, (Option.some.inj known).symm⟩
    | _ + 2 => cases known
  simp only [CommitStore.IsOnlyMatch, commitId?_finder]
  constructor
  · rintro ⟨-, -, own, known, -⟩
    exact (small known).imp And.left And.left
  · rintro (rfl | rfl)
    · refine ⟨" 0000 ", List.mem_cons_self, _, rfl, fits, fun j other known same _ => ?_⟩
      rcases small known with ⟨rfl, -⟩ | ⟨-, rfl⟩
      · rfl
      · exact absurd (apart.2.symm.trans same) Bool.false_ne_true
    · refine ⟨" 0000 ", List.mem_cons_self, _, rfl, fits, fun j other known same _ => ?_⟩
      rcases small known with ⟨-, rfl⟩ | ⟨rfl, -⟩
      · exact absurd (apart.1.symm.trans same) Bool.false_ne_true
      · rfl

end Twins

open Twins

/-- The commits of both repositories are shown. -/
theorem search_hashes_twins :
    let result := finder.search (historyOf commits) .topological byHash .initial
    result.graph ≠ .nothing ∧ result.canWiden = false ∧ 0 ∈ result.graph.commits ∧
      1 ∈ result.graph.commits := by
  intro result
  obtain ⟨⟨some, -, widens, -⟩, -, shown, free, -⟩ := @search_hashes finder byHash typed ids
    commits [] (historyOf commits) .topological .initial rfl rfl rfl exists_not_blank
  have acyclic : GraphCommit.Acyclic commits := GraphCommit.acyclic_of_rank id (by decide)
  have named (i : CommitIndex) (own : i = 0 ∨ i = 1) : i ∈ result.graph.commits := by
    refine (shown i).2 ⟨?_, isOnlyMatch_iff.2 own, fun _ => free acyclic i⟩
    rcases own with rfl | rfl <;> decide
  exact ⟨some, widens, named 0 (.inl rfl), named 1 (.inr rfl)⟩

/-- A commit that is its own parent is named, but not shown in topological order. -/
theorem search_hashes_cycle : ∃ (ids : List CommitId) (searcher : Searcher)
    (commits : List GraphCommit) (tips : List CommitIndex) (history : LoadedHistory)
    (filters : Filters) (texts : List String) (i : CommitIndex),
    searcher.store = .ofIds ids ∧ history.graph = .ofCommits commits tips ∧
    filters.hash = some (.ofTexts texts) ∧ (∃ text ∈ texts, Text.trim text.toList ≠ []) ∧
    (∃ c ∈ commits, c.index = i) ∧ (∃ text ∈ texts, searcher.store.IsOnlyMatch text i) ∧
    i ∉ (searcher.search history .topological filters .initial).graph.commits := by
  have named : finder.resolveHashes (.ofTexts typed) = .ofList [0, 1] := by
    refine CommitSet.eq_of_mem_iff fun i => ?_
    rw [mem_resolveHashes (CommitStore.indexed_ofIds ids), isOnlyMatch_iff]
    simp
  have rows : ((historyOf [⟨0, [0], 5⟩]).graph.visible .topological none
      (some (.ofList [0, 1]))).commits = [] := by
    decide +kernel
  refine ⟨ids, finder, [⟨0, [0], 5⟩], [], historyOf [⟨0, [0], 5⟩], byHash, typed, 0, rfl, rfl, rfl,
    exists_not_blank, by decide, isOnlyMatch_iff.2 (.inl rfl), ?_⟩
  obtain ⟨shown, -⟩ := @search_of_hash finder byHash .initial (historyOf [⟨0, [0], 5⟩]) .topological
    _ (activeHash?_ofTexts rfl exists_not_blank)
  rw [shown, named, rows]
  exact List.not_mem_nil

end Searcher

end CommitLog
