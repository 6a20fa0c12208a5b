import CommitLog.Proofs.Graph.PartLines
import CommitLog.Proofs.Session.Loaded
import CommitLog.Proofs.Session.Numbering

/-!
# Repositories side by side

Repositories that are opened together do not interfere.  A session with one of them alone
(`Session.IsAlone`) numbers its commits with smaller numbers, finds the same commits, and shows them
in the same order with the same parents, in searches at all stages but the first: that one looks at
what is in memory, where the repositories share the room.

    session.IsAlone alone … → stage ≠ .initial →
      (session.search disk sort filters stage).graph.rows.filter own =
        (alone.search disk sort filters stage).graph.rows.map (raise k)
-/

namespace CommitLog

open PermanentGraph

/-! ## Filters in a repository -/

namespace Searcher

variable {root a b : Path} {filters other : Filters}

theorem hasUserNames_congr (agree : Filters.AgreeAt root filters other) :
    hasUserNames filters root = hasUserNames other root := by
  have all (filters : Filters) : hasUserNames filters root =
      (filters.user.map (·.userNames root)).all fun names => !names.isEmpty := by
    unfold hasUserNames
    cases filters.user <;> rfl
  rw [all, all, agree.user]

/-- What a source gets does not depend on the spelling of its root. -/
theorem agreeAt_filtersFor (agree : Filters.AgreeAt root filters other)
    (paths : filters.paths = other.paths) (absolute : root.components ≠ [])
    (ha : (a == root) = true) (hb : (b == root) = true) :
    Filters.AgreeAt root (filtersFor filters a) (filtersFor other b) := by
  refine ⟨agree.branch, agree.date, agree.text, agree.user, ?_⟩
  unfold filtersFor
  dsimp only
  rw [← paths, Option.map_map, Option.map_map]
  congr 1
  funext filter
  have absoluteA : a.components ≠ [] := by
    rw [Path.beq_iff.1 ha]
    exact absolute
  exact StructureFilter.map_components_filesForRoot absolute
    (StructureFilter.map_components_forRoot absoluteA (BEq.trans ha (BEq.symm hb)))

end Searcher

namespace Session

open Searcher

def belongsTo (session : Session) (root : Path) (i : CommitIndex) : Bool :=
  session.store.root? i == some root

/-- A row read as ids: that of its commit and those of its parents. -/
def idRow (session : Session) (row : VisibleRow) : Option CommitId × List (Option CommitId) :=
  (session.store.commitId? row.commit, row.parents.map session.store.commitId?)

/-- A session, and one with the same settings of one of its repositories alone, where the commits
have smaller numbers. -/
structure IsAlone (session alone : Session) (disk : Disk) (indexed : List Path)
    (loaded loadedAlone : LoadedRoots) (repository : Repository) (k : Nat) : Prop where
  opened : session.Opened disk indexed loaded
  openedAlone : alone.Opened disk indexed loadedAlone
  mem : repository ∈ session.repositories.entries.map (·.2)
  only : alone.repositories.entries = [(repository.root, repository)]
  number : ∀ j own, alone.store.commitId? j = some own →
    session.store.commitId? (k + j) = some own
  table : session.store.Indexed
  tableAlone : alone.store.Indexed
  budget : alone.budget = session.budget
  user : alone.currentUser = session.currentUser

variable {session alone : Session} {disk : Disk} {indexed : List Path}
  {loaded loadedAlone : LoadedRoots} {repository : Repository} {i j k : Nat} {id : ObjectId}
  {commit : Commit} {filters : Filters} {stage : Stage}

/-! ## Numbers -/

theorem Opened.belongsTo_iff (opened : session.Opened disk indexed loaded) {other : Repository}
    (has : session.HasCommit disk i other id commit)
    (mem : repository ∈ session.repositories.entries.map (·.2)) :
    session.belongsTo repository.root i = true ↔ other = repository := by
  have root : session.store.root? i = some other.root := by
    rw [CommitStore.root?, opened.commitId?_eq has]
    rfl
  unfold belongsTo
  rw [root]
  constructor
  · exact opened.eq_of_root has.opened mem
  · rintro rfl
    exact BEq.rfl

namespace IsAlone

variable (isAlone : IsAlone session alone disk indexed loaded loadedAlone repository k)

include isAlone

theorem entry_mem : (repository.root, repository) ∈ alone.repositories.entries := by
  rw [isAlone.only]
  exact List.mem_singleton_self _

theorem mem_alone {other : Repository} :
    other ∈ alone.repositories.entries.map (·.2) ↔ other = repository := by
  rw [isAlone.only]
  exact List.mem_singleton

theorem hasCommit (has : alone.HasCommit disk j repository id commit) :
    session.HasCommit disk (k + j) repository id commit := by
  refine ⟨isAlone.mem, has.holds, ?_⟩
  refine isAlone.opened.inStep.indexOf?_eq_some.2 ⟨_, ?_, BEq.rfl⟩
  exact isAlone.number j _ (isAlone.openedAlone.commitId?_eq has)

/-- The numbers of the repository are those that it has alone, greater by a constant. -/
theorem exists_number (has : session.HasCommit disk i repository id commit) :
    ∃ j, i = k + j ∧ alone.HasCommit disk j repository id commit := by
  obtain ⟨j, hj⟩ :=
    isAlone.openedAlone.exists_number (isAlone.mem_alone.2 rfl) has.holds
  exact ⟨j, Option.some.inj (has.number.symm.trans (isAlone.hasCommit hj).number), hj⟩

theorem exists_hasCommit {own : CommitId} (known : alone.store.commitId? j = some own) :
    ∃ commit, own.root = repository.root ∧ alone.HasCommit disk j repository own.hash commit := by
  obtain ⟨r, commit, root, has⟩ := isAlone.openedAlone.exists_hasCommit known
  obtain rfl := isAlone.mem_alone.1 has.opened
  exact ⟨commit, root, has⟩

theorem map_parentsOf (has : alone.HasCommit disk j repository id commit) :
    (alone.store.parentsOf repository.root commit).map (k + ·) =
      session.store.parentsOf repository.root commit := by
  unfold CommitStore.parentsOf
  rw [List.map_filterMap]
  refine List.filterMap_congr fun parent mem => ?_
  obtain ⟨p, c, hp⟩ := isAlone.openedAlone.exists_parent has mem
  rw [hp.number, (isAlone.hasCommit hp).number, Option.map_some]

/-! ## Graphs -/

/-- The rows of the repository are those that it has alone. -/
theorem isPart : IsPart (session.belongsTo repository.root) k session.history.graph
    alone.history.graph := by
  refine isPart_of_mem isAlone.opened.wellFormed.numbered isAlone.opened.greedyOrder
    isAlone.openedAlone.wellFormed.numbered isAlone.openedAlone.greedyOrder ?_ fun c => ⟨?_, ?_⟩
  · intro c hc p hp
    obtain ⟨r, id, commit, has, parents, -⟩ := isAlone.opened.row hc
    rw [parents] at hp
    obtain ⟨parent, mem, number⟩ := List.mem_filterMap.1 hp
    obtain ⟨n, c', hn⟩ := isAlone.opened.exists_parent has mem
    obtain rfl := Option.some.inj (number.symm.trans hn.number)
    rw [Bool.eq_iff_iff, isAlone.opened.belongsTo_iff has isAlone.mem,
      isAlone.opened.belongsTo_iff hn isAlone.mem]
  · rintro ⟨hc, isOwn⟩
    obtain ⟨r, id, commit, has, parents, time⟩ := isAlone.opened.row hc
    obtain rfl := (isAlone.opened.belongsTo_iff has isAlone.mem).1 isOwn
    obtain ⟨j, index, has'⟩ := isAlone.exists_number has
    obtain ⟨d, hd, rfl⟩ := isAlone.openedAlone.exists_row.2 ⟨_, id, commit, has'⟩
    obtain ⟨r', id', commit', has'', parents', time'⟩ := isAlone.openedAlone.row hd
    obtain ⟨rfl, rfl, rfl⟩ := isAlone.openedAlone.unique has' has''
    refine ⟨d, hd, ?_⟩
    obtain ⟨_, _, _⟩ := c
    dsimp only at index parents time
    rw [GraphCommit.raise, parents', isAlone.map_parentsOf has', ← parents, time', ← time, ← index]
  · rintro ⟨d, hd, rfl⟩
    obtain ⟨r, id, commit, has, parents, time⟩ := isAlone.openedAlone.row hd
    obtain rfl := isAlone.mem_alone.1 has.opened
    have has' := isAlone.hasCommit has
    obtain ⟨c, hc, index⟩ := isAlone.opened.exists_row.2 ⟨_, id, commit, has'⟩
    obtain ⟨r', id', commit', has'', parents', time'⟩ := isAlone.opened.row hc
    rw [index] at has''
    obtain ⟨rfl, rfl, rfl⟩ := isAlone.opened.unique has' has''
    have same : d.raise k = c := by
      obtain ⟨_, _, _⟩ := c
      dsimp only at index parents' time'
      rw [GraphCommit.raise, parents, isAlone.map_parentsOf has, ← parents', time, ← time', index]
    exact ⟨same ▸ hc, (isAlone.opened.belongsTo_iff has' isAlone.mem).2 rfl⟩

/-- Rows of the repository alone are read as the same ids in both sessions. -/
theorem idRow_raise {row : VisibleRow}
    (known : ∀ n ∈ row.commit :: row.parents, ∃ c ∈ alone.history.graph.rows, c.index = n) :
    session.idRow (row.raise k) = alone.idRow row := by
  have same (n : CommitIndex) (hn : n ∈ row.commit :: row.parents) :
      session.store.commitId? (k + n) = alone.store.commitId? n := by
    obtain ⟨r, id, commit, has⟩ := isAlone.openedAlone.exists_row.1 (known n hn)
    rw [isAlone.openedAlone.commitId?_eq has,
      isAlone.number n _ (isAlone.openedAlone.commitId?_eq has)]
  unfold idRow VisibleRow.raise
  dsimp only
  rw [same row.commit List.mem_cons_self, List.map_map]
  refine congrArg _ (List.map_congr_left fun p hp => ?_)
  exact same p (List.mem_cons_of_mem _ hp)

/-! ## Searches -/

/-- The filters that both sessions apply ask the same of the repository. -/
theorem agree (filters : Filters) : Filters.AgreeAt repository.root (session.resolveUser filters)
    (alone.resolveUser filters) := by
  obtain ⟨resolve, same, users⟩ := isAlone.opened.resolveUser_eq filters
  obtain ⟨resolve', same', users'⟩ := isAlone.openedAlone.resolveUser_eq filters
  obtain ⟨entry, hentry, rfl⟩ := List.mem_map.1 isAlone.mem
  rw [same, same']
  refine ⟨rfl, rfl, rfl, ?_, rfl⟩
  dsimp only
  rw [Option.map_map, Option.map_map]
  congr 1
  funext filter
  have user : (resolve filter).currentUser? entry.2.root =
      (resolve' filter).currentUser? entry.2.root := by
    rw [(users filter).2 entry hentry, (users' filter).2 _ isAlone.entry_mem, isAlone.user]
  show (resolve filter).userNames entry.2.root = (resolve' filter).userNames entry.2.root
  unfold UserFilter.userNames
  rw [(users filter).1, (users' filter).1, user]

/-- The details that both sessions load of a commit pass the same filters. -/
theorem acceptsDetails_iff {other : Filters}
    (agree : Filters.AgreeAt repository.root filters other) (holds : repository.Holds disk id commit) :
    (∃ m, repository.IsDetails disk session.store indexed m ∧ m.hash = id ∧
      filters.acceptsDetails m = true) ↔
    ∃ m, repository.IsDetails disk alone.store indexed m ∧ m.hash = id ∧
      other.acceptsDetails m = true := by
  -- the number and the parents make no difference
  have same {m n : Metadata} (hm : repository.IsDetails disk session.store indexed m)
      (hn : repository.IsDetails disk alone.store indexed n) (hash : m.hash = n.hash) :
      filters.acceptsDetails m = other.acceptsDetails n := by
    obtain ⟨c, heldM, -, describesM, -, changedM⟩ := Repository.Describes.of_isDetails hm
    obtain ⟨d, heldN, -, describesN, -, changedN⟩ := Repository.Describes.of_isDetails hn
    rw [hash] at heldM
    obtain rfl := Except.ok.inj (heldM.1.symm.trans heldN.1)
    refine agree.acceptsDetails describesM.root describesN.root
      (describesM.author.trans describesN.author.symm)
      (describesM.message.trans describesN.message.symm) (.inr ?_)
    split at changedM
    · next asked =>
      rw [if_pos asked] at changedN
      obtain ⟨paths, run, changed⟩ := changedM
      obtain ⟨paths', run', changed'⟩ := changedN
      obtain rfl := Except.ok.inj (run.symm.trans run')
      rw [changed, changed']
    · next other =>
      rw [if_neg other] at changedN
      rw [changedM, changedN]
  constructor
  · rintro ⟨m, hm, rfl, accepted⟩
    obtain ⟨n, hash, hn⟩ := isAlone.openedAlone.covers.detailed repository
      (isAlone.mem_alone.2 rfl) _ _ holds
    rw [← isAlone.openedAlone.store] at hn
    exact ⟨n, hn, hash, by rwa [← same hm hn hash.symm]⟩
  · rintro ⟨n, hn, rfl, accepted⟩
    obtain ⟨m, hash, hm⟩ := isAlone.opened.covers.detailed repository isAlone.mem _ _ holds
    rw [← isAlone.opened.store] at hm
    exact ⟨m, hm, hash, by rwa [same hm hn hash]⟩

/-- The source of the repository finds the same in both sessions. -/
theorem findCommits_eq {other : Filters} (agree : Filters.AgreeAt repository.root filters other)
    (limit : Nat) : repository.findCommits disk session.store filters limit =
      repository.findCommits disk alone.store other limit := by
  refine Repository.findCommits_congr agree (fun id commit holds => ?_) limit
  obtain ⟨j, hj⟩ := isAlone.openedAlone.exists_number (isAlone.mem_alone.2 rfl) holds
  exact ⟨⟨k + j, (isAlone.hasCommit hj).number⟩, j, hj.number⟩

/-- Without a hash filter both sessions show the same commits of the repository. -/
theorem shows_iff (later : stage ≠ .initial)
    (has : alone.HasCommit disk j repository id commit) :
    let shows (session : Session) (i : CommitIndex) : Prop :=
      let filters := session.resolveUser filters
      let roots := visibleRoots session.history.roots filters.root filters.paths
      let heads := session.history.matchingHeads roots filters
      let matching := ((session.searcher disk).filterDetails session.history filters stage roots
        heads).matching
      session.history.graph.Shows heads.set? matching.set? i
    shows session (k + j) ↔ shows alone j := by
  intro shows
  have agree := isAlone.agree filters
  obtain ⟨resolve, same, -⟩ := isAlone.opened.resolveUser_eq filters
  obtain ⟨resolve', same', -⟩ := isAlone.openedAlone.resolveUser_eq filters
  have details : (session.resolveUser filters).details = [] ↔
      (alone.resolveUser filters).details = [] := by
    rw [same, same']
    simp [Filters.details]
  have paths : (session.resolveUser filters).paths = (alone.resolveUser filters).paths := by
    rw [same, same']
  have root : (session.resolveUser filters).root = (alone.resolveUser filters).root := by
    rw [same, same']
  obtain ⟨entry, hentry, rfl⟩ := List.mem_map.1 isAlone.mem
  have keyed := isAlone.opened.keyed entry hentry
  have absolute := isAlone.opened.absolute entry hentry
  have found := isAlone.findCommits_eq
    (agreeAt_filtersFor agree paths absolute keyed BEq.rfl) (stage.limit session.budget)
  refine (isAlone.opened.shows_iff later hentry (isAlone.hasCommit has)).trans
    (Iff.trans ?_ (isAlone.openedAlone.shows_iff later isAlone.entry_mem has).symm)
  dsimp only
  rw [root, paths, agree.branch, details, hasUserNames_congr agree, found, isAlone.budget,
    isAlone.acceptsDetails_iff agree has.holds]

/-- A partial hash names a commit of the repository in both sessions or in none. -/
theorem isNamedBy_iff {digits : List Char} {own : CommitId}
    (known : alone.store.commitId? j = some own) :
    session.store.IsNamedBy digits (k + j) ↔ alone.store.IsNamedBy digits j := by
  obtain ⟨commit, root, -⟩ := isAlone.exists_hasCommit known
  unfold CommitStore.IsNamedBy
  simp only [known, isAlone.number j own known, Option.some.injEq, exists_eq_left']
  refine and_congr_right fun _ => ⟨fun single n other hother starts same => ?_,
    fun single n other hother starts same => ?_⟩
  · exact Nat.add_left_cancel (single (k + n) other (isAlone.number n other hother) starts same)
  · -- the other commit is of the same repository, so it has a number there, too
    obtain ⟨r, c, hroot, has⟩ := isAlone.opened.exists_hasCommit hother
    rw [root, hroot] at same
    obtain rfl := isAlone.opened.eq_of_root has.opened isAlone.mem same
    obtain ⟨m, rfl, hm⟩ := isAlone.exists_number has
    have hother' := isAlone.openedAlone.commitId?_eq hm
    rw [single m _ hother' starts (by rw [root]; exact BEq.rfl)]

theorem mem_resolveHashes {hash : HashFilter} (known : alone.store.commitId? j ≠ none) :
    k + j ∈ (session.searcher disk).resolveHashes hash ↔
      j ∈ (alone.searcher disk).resolveHashes hash := by
  obtain ⟨own, known⟩ := Option.ne_none_iff_exists'.1 known
  have mem (session : Session) (table : session.store.Indexed) (n : CommitIndex) :
      n ∈ (session.searcher disk).resolveHashes hash ↔ ∃ text ∈ hash.hashes, ∃ digits,
        ObjectId.normalPrefix? text = some digits ∧ session.store.IsNamedBy digits n := by
    unfold resolveHashes
    rw [CommitSet.mem_ofList, List.mem_flatMap]
    exact exists_congr fun text => and_congr_right fun _ => table.mem_resolve
  rw [mem session isAlone.table, mem alone isAlone.tableAlone]
  simp only [isAlone.isNamedBy_iff known]

/-- Searches in both sessions show views of the same commits of the repository. -/
theorem exists_views (ordered : ∀ r ∈ session.repositories.entries.map (·.2), r.Acyclic disk)
    (later : stage ≠ .initial) (sort : SortOrder) (filters : Filters) :
    ∃ heads commits heads' commits',
      (session.search disk sort filters stage).graph.rows =
        (session.history.graph.visible sort heads commits).rows ∧
      (alone.search disk sort filters stage).graph.rows =
        (alone.history.graph.visible sort heads' commits').rows ∧
      ∀ j, (∃ d ∈ alone.history.graph.rows, d.index = j) →
        (session.history.graph.Shows heads commits (k + j) ↔
          alone.history.graph.Shows heads' commits' j) := by
  have acyclicAlone : ∀ r ∈ alone.repositories.entries.map (·.2), r.Acyclic disk := by
    intro r mem
    rw [isAlone.mem_alone.1 mem]
    exact ordered repository isAlone.mem
  obtain ⟨resolve, same, -⟩ := isAlone.opened.resolveUser_eq filters
  obtain ⟨resolve', same', -⟩ := isAlone.openedAlone.resolveUser_eq filters
  have active : (session.resolveUser filters).activeHash? = filters.activeHash? := by
    rw [same]
    rfl
  have active' : (alone.resolveUser filters).activeHash? = filters.activeHash? := by
    rw [same']
    rfl
  cases hash : filters.activeHash? with
  | some hash' =>
    rw [hash] at active active'
    refine ⟨_, _, _, _, congrArg VisibleGraph.rows (search_of_hash active).1,
      congrArg VisibleGraph.rows (search_of_hash active').1, fun j hj => ?_⟩
    obtain ⟨r, id, commit, has⟩ := isAlone.openedAlone.exists_row.1 hj
    have known : alone.store.commitId? j ≠ none := by
      rw [isAlone.openedAlone.commitId?_eq has]
      exact Option.some_ne_none _
    have row : ∃ c ∈ session.history.graph.rows, c.index = k + j :=
      (isAlone.isPart.known_iff.1 hj).2
    simp only [PermanentGraph.Shows, hj, row, true_and, reduceCtorEq, false_implies, implies_true,
      Option.some.injEq, forall_eq']
    exact isAlone.mem_resolveHashes known
  | none =>
    rw [hash] at active active'
    refine ⟨_, _, _, _,
      Searcher.rows_search isAlone.opened.wellFormed (.inr (isAlone.opened.childrenFirst ordered))
        active,
      Searcher.rows_search isAlone.openedAlone.wellFormed
        (.inr (isAlone.openedAlone.childrenFirst acyclicAlone)) active', fun j hj => ?_⟩
    obtain ⟨r, id, commit, has⟩ := isAlone.openedAlone.exists_row.1 hj
    obtain rfl := isAlone.mem_alone.1 has.opened
    exact isAlone.shows_iff later has

/-- The rows of the repository, read as ids, are those that a search of it alone shows. -/
theorem map_idRow_search (ordered : ∀ r ∈ session.repositories.entries.map (·.2), r.Acyclic disk)
    (later : stage ≠ .initial) (sort : SortOrder) (filters : Filters) :
    ((session.search disk sort filters stage).graph.rows.filter
        fun row => session.belongsTo repository.root row.commit).map session.idRow =
      (alone.search disk sort filters stage).graph.rows.map alone.idRow := by
  obtain ⟨heads, commits, heads', commits', rows, rows', shows⟩ :=
    isAlone.exists_views ordered later sort filters
  have childrenFirst := isAlone.opened.childrenFirst ordered
  have childrenFirst' := isAlone.openedAlone.childrenFirst fun r mem => by
    rw [isAlone.mem_alone.1 mem]
    exact ordered repository isAlone.mem
  have wellFormed' := isAlone.openedAlone.wellFormed
  rw [rows, rows', isAlone.isPart.visible isAlone.opened.wellFormed wellFormed' childrenFirst
    childrenFirst' shows sort, List.map_map]
  refine List.map_congr_left fun row hrow => isAlone.idRow_raise fun n hn => ?_
  -- the commit and its parents are shown, so they have rows
  obtain ⟨-, shown⟩ := @PermanentGraph.commits_visible alone.history.graph wellFormed' sort
    (.inr childrenFirst') heads' commits'
  have isShown : ∃ r ∈ (alone.history.graph.visible sort heads' commits').rows, r.commit = n := by
    rcases List.mem_cons.1 hn with rfl | hn
    · exact ⟨row, hrow, rfl⟩
    · exact (parentsLater_visible wellFormed' childrenFirst' sort heads' commits').known row hrow
        n hn
  exact ((shown n).1 (List.mem_map.2 isShown)).1

end IsAlone

/-! ## Opening one repository alone -/

variable {paths : List Path} {settings : SessionSettings}

/-- A repository of a session opens alone, too: all of it has been read before. -/
theorem exists_alone (h : openAt paths settings disk = .ok session)
    (mem : repository ∈ session.repositories.entries.map (·.2)) {path : Path}
    (run : Repository.openAt path disk = .ok repository) :
    ∃ alone, openAt [path] settings disk = .ok alone := by
  obtain ⟨indexed, loaded, hindexed, -, opened, -⟩ := loaded_of_openAt h
  have hopened : [path].mapM (fun path => Repository.openAt path disk) = .ok [repository] :=
    mapM_eq_ok.2 (.cons run .nil)
  refine exists_openAt hindexed hopened (List.cons_ne_nil _ _) ?_ ?_ ?_
  · intro r hr
    rw [List.mem_singleton.1 hr]
    exact opened.covers.readable repository mem
  · intro r hr asked id commit holds
    rw [List.mem_singleton.1 hr] at asked holds ⊢
    obtain ⟨m, rfl, details⟩ := opened.covers.detailed repository mem id commit holds
    obtain ⟨c, holds', -, -, -, changed⟩ := Repository.Describes.of_isDetails details
    obtain rfl := Except.ok.inj (holds.1.symm.trans holds'.1)
    rw [if_pos asked] at changed
    obtain ⟨paths, changes, -⟩ := changed
    exact ⟨paths, changes⟩
  · intro store distinct held
    have among : ∀ r ∈ [repository], ∀ id commit, r.Holds disk id commit →
        ⟨id, r.root⟩ ∈ session.store.ids.toList := by
      intro r hr id commit holds
      rw [List.mem_singleton.1 hr] at holds ⊢
      obtain ⟨i, has⟩ := opened.exists_number mem holds
      exact Array.mem_toList_iff.2 (Array.mem_of_getElem? (opened.commitId?_eq has))
    have room := opened.covers.room
    rw [← opened.store] at room
    exact Nat.le_trans (holdAtMost_of_subset among store distinct held) room

/-- What two sessions have to do with each other when one has a repository of the other alone. -/
theorem exists_isAlone (h : openAt paths settings disk = .ok session)
    (mem : repository ∈ session.repositories.entries.map (·.2)) {path : Path}
    (run : Repository.openAt path disk = .ok repository)
    (hAlone : openAt [path] settings disk = .ok alone) : ∃ indexed loaded loadedAlone k,
      IsAlone session alone disk indexed loaded loadedAlone repository k := by
  obtain ⟨indexed, loaded, hindexed, hloaded, opened, -⟩ := loaded_of_openAt h
  obtain ⟨indexed', loadedAlone, hindexed', hloadedAlone, openedAlone, -⟩ :=
    loaded_of_openAt hAlone
  obtain rfl := Except.ok.inj (hindexed.symm.trans hindexed')
  have entries := entries_of_openAt hAlone run
  have added : LoadedRoots.add disk indexed .empty repository = .ok loadedAlone := by
    rw [entries] at hloadedAlone
    obtain ⟨next, hnext, same⟩ := bind_eq_ok.1 hloadedAlone
    rw [hnext, ← Except.ok.inj same]
  obtain ⟨k, number⟩ := LoadedRoots.exists_shift opened.roots_differ mem hloaded added
  refine ⟨indexed, loaded, loadedAlone, k, opened, openedAlone, mem, entries, ?_, ?_, ?_, ?_, ?_⟩
  · rw [opened.store, openedAlone.store]
    exact number
  · rw [opened.store]
    exact LoadedRoots.indexed_foldlM hloaded
  · rw [openedAlone.store]
    exact LoadedRoots.indexed_foldlM hloadedAlone
  · rw [budget_of_openAt h, budget_of_openAt hAlone]
  · rw [currentUser_of_openAt h, currentUser_of_openAt hAlone]

/-- **Other repositories do not interfere.**  The rows of a repository in a session with others are
those of a session of it alone with the same settings: the same commits in the same order, with the
same parents. -/
theorem search_alone (h : openAt paths settings disk = .ok session)
    (acyclic : ∀ r ∈ session.repositories.entries.map (·.2), r.Acyclic disk) :
    ∀ repository ∈ session.repositories.entries.map (·.2),
      (∃ path ∈ paths, Repository.openAt path disk = .ok repository) ∧
      ∀ path, Repository.openAt path disk = .ok repository →
        ∃ alone, openAt [path] settings disk = .ok alone ∧
          ∀ (sort : SortOrder) (filters : Filters) (stage : Stage), stage ≠ .initial →
            ((session.search disk sort filters stage).graph.rows.filter
                fun row => session.belongsTo repository.root row.commit).map session.idRow =
              (alone.search disk sort filters stage).graph.rows.map alone.idRow := by
  intro repository mem
  refine ⟨(holdsHistories_of_openAt h).opened repository mem, fun path run => ?_⟩
  obtain ⟨alone, hAlone⟩ := exists_alone h mem run
  obtain ⟨indexed, loaded, loadedAlone, k, isAlone⟩ := exists_isAlone h mem run hAlone
  exact ⟨alone, hAlone, fun sort filters stage later =>
    isAlone.map_idRow_search acyclic later sort filters⟩

end Session

/-! ## The sample twice -/

namespace Sample

open Disk

def digits : String := "fd34f7b8"

def named : Filters := { Filters.none with hash := some ⟨[digits]⟩ }

variable {name : String} {all : List (Place × Node)} {settings : SessionSettings}
  {session : Session} {indexed : List Path} {loaded : LoadedRoots} {i n : CommitIndex}

/-- The digits name the second commit and no other one. -/
theorem HasFiles.mem_resolveHashes_iff (hasFiles : HasFiles name all)
    (opened : session.Opened (.ofNodes all) indexed loaded) (table : session.store.Indexed)
    (only : ∀ r ∈ session.repositories.entries.map (·.2), r = repositoryIn name)
    (has : session.HasCommit (.ofNodes all) i (repositoryIn name) secondId second) :
    n ∈ (session.searcher (.ofNodes all)).resolveHashes ⟨[digits]⟩ ↔ n = i := by
  have starts : ∀ c ∈ commits, c.1.startsWith digits.toList = true ↔ c.1 = secondId := by
    decide
  have isSecond {j : CommitIndex} {own : CommitId} (h : session.store.commitId? j = some own)
      (begins : own.hash.startsWith digits.toList = true) : j = i := by
    obtain ⟨r, commit, -, hasOwn⟩ := opened.exists_hasCommit h
    obtain rfl := only r hasOwn.opened
    have hash : own.hash = secondId :=
      (starts _ (hasFiles.readable.2 _ commit hasOwn.holds)).1 begins
    have number := hasOwn.number
    rw [hash, has.number] at number
    exact (Option.some.inj number).symm
  have normal : ObjectId.normalPrefix? digits = some digits.toList := by decide
  unfold Searcher.resolveHashes
  rw [CommitSet.mem_ofList, List.flatMap_singleton]
  refine table.mem_resolve.trans ⟨?_, ?_⟩
  · rintro ⟨ds, hds, own, hown, begins, -⟩
    obtain rfl := Option.some.inj (normal.symm.trans hds)
    exact isSecond hown begins
  · rintro rfl
    refine ⟨_, normal, _, opened.commitId?_eq has, (starts _ List.mem_cons_self).2 rfl, ?_⟩
    exact fun j other hother begins _ => isSecond hother begins

/-- A search for the second commit of a repository that is opened alone. -/
theorem HasFiles.map_idRow_search (hasFiles : HasFiles name all)
    (run : Session.openAt [pathOf [name]] settings (.ofNodes all) = .ok session) (sort : SortOrder)
    (stage : Stage) :
    (session.search (.ofNodes all) sort named stage).graph.rows.map session.idRow =
      [(some ⟨secondId, pathOf [name]⟩, [])] := by
  obtain ⟨indexed, loaded, -, hloaded, opened, -⟩ := Session.loaded_of_openAt run
  have entries := Session.entries_of_openAt run hasFiles.openAt
  have only : ∀ r ∈ session.repositories.entries.map (·.2), r = repositoryIn name := by
    rw [entries]
    exact fun r mem => List.mem_singleton.1 mem
  have mem : repositoryIn name ∈ session.repositories.entries.map (·.2) := by
    rw [entries]
    exact List.mem_singleton_self _
  have childrenFirst := opened.childrenFirst fun r hr => by
    rw [only r hr]
    exact hasFiles.acyclic
  have table : session.store.Indexed := by
    rw [opened.store]
    exact LoadedRoots.indexed_foldlM hloaded
  obtain ⟨i, has⟩ := opened.exists_number mem (hasFiles.holds List.mem_cons_self)
  set found := (session.searcher (.ofNodes all)).resolveHashes ⟨[digits]⟩
  have graph : (session.search (.ofNodes all) sort named stage).graph =
      session.history.graph.visible sort none found :=
    (Searcher.search_of_hash rfl).1
  obtain ⟨nodup, shown⟩ := @PermanentGraph.commits_visible session.history.graph
    opened.wellFormed sort (.inr childrenFirst) none found
  have commits : (session.history.graph.visible sort none found).commits = [i] := by
    refine List.perm_singleton.1 ((List.perm_ext_iff_of_nodup nodup (List.nodup_singleton i)).2 ?_)
    intro n
    rw [shown, List.mem_singleton, ← hasFiles.mem_resolveHashes_iff opened table only has]
    constructor
    · rintro ⟨-, -, mem⟩
      exact mem _ rfl
    · intro mem
      obtain rfl := (hasFiles.mem_resolveHashes_iff opened table only has).1 mem
      refine ⟨opened.exists_row.2 ⟨_, _, _, has⟩, fun _ none => (nomatch none), fun set same => ?_⟩
      rwa [← Option.some.inj same]
  have rows := (PermanentGraph.parentsLater_visible opened.wellFormed childrenFirst sort none
    found).eq_singleton commits
  rw [graph, rows]
  show [(session.store.commitId? i, [])] = _
  rw [opened.commitId?_eq has]
  rfl

/-- The repository in two directories. -/
def pairNodes : List (Place × Node) := nodes ++ nodesIn "play"

theorem hasFiles_pair : ∀ name ∈ ["work", "play"], HasFiles name pairNodes := by
  have proper : ∀ entry ∈ pairNodes, entry.1 ≠ [] := by decide
  have distinct : (pairNodes.map (·.1)).Nodup := by decide
  have above : ∀ entry ∈ pairNodes,
      entry.1.dropLast = [] ∨ (entry.1.dropLast, .directory) ∈ pairNodes := by
    decide
  have unbranched : ∀ name ∈ ["work", "play"], ∀ names ∈ [["packed-refs"], ["refs", "heads"]],
      Repository.gitPlace [name] ++ names ∉ pairNodes.map (·.1) := by
    decide
  have objects : ∀ name ∈ ["work", "play"], ∀ entry ∈ objects,
      IsPlace (Repository.objectPlace [name] entry.1) := by
    decide
  have refs : ∀ name ∈ ["work", "play"],
      ∀ names ∈ [["packed-refs"], ["refs", "heads"], [BranchName.headText]],
        IsPlace (Repository.gitPlace [name] ++ names) := by
    decide
  have files : ∀ name ∈ ["work", "play"], ∀ entry ∈ nodesIn name, entry ∈ pairNodes := by
    intro name hname entry mem
    rcases List.mem_cons.1 hname with rfl | hname
    · exact List.mem_append_left _ (hasFiles.files _ mem)
    · obtain rfl := List.mem_singleton.1 hname
      exact List.mem_append_right _ mem
  exact fun name mem => ⟨proper, distinct, above, files name mem, objects name mem, refs name mem,
    unbranched name mem⟩

/-- In a session of two repositories with equal histories, the first digits of the second commit name
it in both of them, and each repository shows what it shows alone. -/
theorem search_alone_pair : ∃ session,
    Session.openAt [pathOf ["work"], pathOf ["play"]] .standard (.ofNodes pairNodes) =
      .ok session ∧
    (∀ r ∈ session.repositories.entries.map (·.2), r.Acyclic (.ofNodes pairNodes)) ∧
    ∀ name ∈ ["work", "play"],
      ((session.search (.ofNodes pairNodes) .topological named .firstStep).graph.rows.filter
          fun row => session.belongsTo (pathOf [name]) row.commit).map session.idRow =
        [(some ⟨secondId, pathOf [name]⟩, [])] := by
  obtain ⟨session, run⟩ := exists_sessionIn hasFiles_pair (List.cons_ne_nil _ _) (by decide)
    .standard rfl
  have entries : session.repositories.entries.map (·.2) = ["play", "work"].map repositoryIn := by
    obtain ⟨opened, _, _, -, hopened, table, -, -⟩ := Session.openAt_eq_ok run
    rw [table, Except.ok.inj (hopened.symm.trans (mapM_openAt hasFiles_pair))]
    rfl
  have mem_entries (r : Repository) : r ∈ session.repositories.entries.map (·.2) ↔
      ∃ name ∈ ["work", "play"], repositoryIn name = r := by
    rw [entries, List.mem_map]
    simp [or_comm]
  have acyclic : ∀ r ∈ session.repositories.entries.map (·.2), r.Acyclic (.ofNodes pairNodes) := by
    intro r hr
    obtain ⟨name, mem, rfl⟩ := (mem_entries r).1 hr
    exact (hasFiles_pair name mem).acyclic
  refine ⟨session, run, acyclic, fun name mem => ?_⟩
  obtain ⟨-, alone⟩ := Session.search_alone run acyclic (repositoryIn name)
    ((mem_entries _).2 ⟨name, mem, rfl⟩)
  obtain ⟨own, runAlone, same⟩ := alone _ (hasFiles_pair name mem).openAt
  refine (same .topological named .firstStep Stage.noConfusion).trans ?_
  exact (hasFiles_pair name mem).map_idRow_search runAlone .topological .firstStep

end Sample

end CommitLog
