import CommitLog.Proofs.Graph.Greedy
import CommitLog.Proofs.Session.Memory
import CommitLog.Proofs.Session.Opening

/-!
# What a session has loaded

The graph of a session has the commits that the branches and the heads of its repositories lead to,
each of them once, with the numbers from zero on (`Session.HoldsHistories`).  No link gets lost: the
parents of a row are the numbers of all parents of the object.  A session does not open when one of
these commits cannot be read.

    session.openAt paths settings disk = .ok session → session.HoldsHistories disk paths
-/

namespace CommitLog

/-! ## Repositories -/

/-- Repositories that have been opened are the same when their roots are. -/
theorem Repository.eq_of_openAt {disk : Disk} (names : ∀ name ∈ disk.here, Disk.IsFileName name)
    {p q : Path} {a b : Repository} (ha : openAt p disk = .ok a) (hb : openAt q disk = .ok b)
    (same : (a.root == b.root) = true) : a = b := by
  have place {p : Path} {a : Repository} (ha : openAt p disk = .ok a) :
      ∃ place, a = ⟨Disk.pathOf place⟩ ∧ ∀ name ∈ place, Disk.IsFileName name := by
    obtain ⟨root, hroot, h⟩ := bind_eq_ok.1 ha
    obtain ⟨found, hfound, hcanonical⟩ := bind_eq_ok.1 (mapError_eq_ok.1 hroot)
    cases hcanonical
    split at h
    · cases h
    · cases h
      exact ⟨found.1, rfl, Disk.names_of_find names hfound⟩
  obtain ⟨placeA, rfl, namesA⟩ := place ha
  obtain ⟨placeB, rfl, namesB⟩ := place hb
  rw [Disk.eq_of_beq_pathOf namesA namesB same]

namespace Session

/-- Every repository has an entry under its root, which may be that of another one. -/
theorem isSome_get?_tableOf {opened : List Repository} {repository : Repository}
    (mem : repository ∈ opened) : ((tableOf opened).get? repository.root).isSome = true := by
  have run : ∀ (rest : List Repository) (table : PathTable Repository),
      repository ∈ rest ∨ (table.get? repository.root).isSome = true →
      (((rest.map fun r => (r.root, r)).foldl (fun table entry => table.insert entry.1 entry.2)
        table).get? repository.root).isSome = true := by
    intro rest
    induction rest with
    | nil =>
      intro table h
      exact h.resolve_left List.not_mem_nil
    | cons r rest ih =>
      intro table h
      refine ih (table.insert r.root r) ?_
      rw [PathTable.get?_insert]
      rcases h with mem | known
      · rcases List.mem_cons.1 mem with rfl | mem
        · rw [if_pos BEq.rfl]
          exact Or.inr rfl
        · exact Or.inl mem
      · refine Or.inr ?_
        split
        · rfl
        · exact known
  exact run opened .empty (Or.inl mem)

variable {disk : Disk} {session : Session} {indexed : List Path} {loaded : LoadedRoots}
  {i : CommitIndex} {repository : Repository} {id : ObjectId} {commit : Commit}
  {paths : List Path} {settings : SessionSettings}

/-! ## Numbers -/

/-- A number that is given belongs to a commit. -/
theorem Opened.exists_hasCommit (opened : session.Opened disk indexed loaded) {own : CommitId}
    (h : session.store.commitId? i = some own) :
    ∃ repository commit, own.root = repository.root ∧
      session.HasCommit disk i repository own.hash commit := by
  have known := Array.mem_of_getElem? h
  rw [opened.store] at known
  obtain ⟨repository, mem, root, commit, holds⟩ := opened.covers.ids own known
  refine ⟨repository, commit, root, mem, holds, ?_⟩
  rw [← root]
  exact opened.inStep.indexOf?_eq_some.2 ⟨own, h, BEq.rfl⟩

theorem Opened.exists_number_iff (opened : session.Opened disk indexed loaded) :
    (∃ repository id commit, session.HasCommit disk i repository id commit) ↔
      i < session.store.size := by
  constructor
  · rintro ⟨repository, id, commit, h⟩
    exact opened.inStep.lt_size_of_indexOf? h.number
  · intro lt
    have found : session.store.commitId? i = some session.store.ids[i] :=
      Array.getElem?_eq_getElem lt
    obtain ⟨repository, commit, -, h⟩ := opened.exists_hasCommit found
    exact ⟨repository, _, commit, h⟩

/-- All parents of a commit have numbers. -/
theorem Opened.map_parentsOf (opened : session.Opened disk indexed loaded)
    (h : session.HasCommit disk i repository id commit) :
    (session.store.parentsOf repository.root commit).map session.store.commitId? =
      commit.parents.map fun parent => some ⟨parent, repository.root⟩ := by
  have numbers : ∀ ps : List ObjectId, (∀ p ∈ ps, p ∈ commit.parents) →
      (ps.filterMap fun p => session.store.indexOf? ⟨p, repository.root⟩).map
        session.store.commitId? = ps.map fun p => some ⟨p, repository.root⟩ := by
    intro ps sub
    induction ps with
    | nil => rfl
    | cons p ps ih =>
      obtain ⟨n, c, hn⟩ := opened.exists_parent h (sub p List.mem_cons_self)
      simp only [List.filterMap_cons, hn.number, List.map_cons, opened.commitId?_eq hn,
        ih fun q hq => sub q (List.mem_cons_of_mem _ hq)]
  exact numbers commit.parents fun p hp => hp

/-! ## Rows -/

/-- A row has the parents and the time of its commit. -/
theorem Opened.row (opened : session.Opened disk indexed loaded) {row : GraphCommit}
    (hrow : row ∈ session.history.graph.rows) : ∃ repository id commit,
      session.HasCommit disk row.index repository id commit ∧
        row.parents = session.store.parentsOf repository.root commit ∧
        row.time = commit.committer.time := by
  rw [opened.history, PermanentGraph.mem_rows_ofCommits] at hrow
  obtain ⟨first, found, hrow⟩ := hrow
  have hfirst := List.mem_of_find?_eq_some found
  have index : first.index = row.index := by simpa using List.find?_some found
  rw [opened.covers.commits] at hfirst
  obtain ⟨m, hm, rfl⟩ := List.mem_map.1 hfirst
  obtain ⟨repository, mem, commit, holds, number, run⟩ := (opened.covers.metadata m).1 hm
  have details := (LoadedRoots.details_eq_ok.1 run).1
  rw [← opened.store] at number details
  dsimp only at index
  rw [index] at number
  have has : session.HasCommit disk row.index repository m.hash commit := ⟨mem, holds, number⟩
  have parents : m.parents = session.store.parentsOf repository.root commit := by rw [details]; rfl
  refine ⟨repository, m.hash, commit, has, ?_, ?_⟩
  · -- the parents are numbers of commits, so none of them is dropped
    rw [hrow, ← parents]
    refine List.filter_eq_self.2 fun p hp => ?_
    dsimp only at hp
    rw [parents] at hp
    obtain ⟨parent, hparent, same⟩ := List.mem_filterMap.1 hp
    obtain ⟨n, c, hn⟩ := opened.exists_parent has hparent
    obtain rfl := Option.some.inj (same.symm.trans hn.number)
    obtain ⟨known, hknown, sameIndex⟩ := opened.exists_commit.2 ⟨repository, parent, c, hn⟩
    exact List.any_eq_true.2 ⟨known, hknown, by simpa using sameIndex⟩
  · rw [hrow]
    dsimp only
    rw [details]
    rfl

/-- The row of a commit. -/
theorem Opened.row_of_hasCommit (opened : session.Opened disk indexed loaded)
    (h : session.HasCommit disk i repository id commit) :
    ∃ row ∈ session.history.graph.rows, row.index = i ∧
      row.parents = session.store.parentsOf repository.root commit ∧
      row.time = commit.committer.time := by
  obtain ⟨row, hrow, rfl⟩ := opened.exists_row.2 ⟨repository, id, commit, h⟩
  obtain ⟨r, id', c, has, parents, time⟩ := opened.row hrow
  obtain ⟨rfl, rfl, rfl⟩ := opened.unique h has
  exact ⟨row, hrow, rfl, parents, time⟩

/-- The rows have the numbers from zero on. -/
theorem Opened.map_index_rows (opened : session.Opened disk indexed loaded) :
    (session.history.graph.rows.map (·.index)).Perm (List.range session.store.size) := by
  refine (List.perm_ext_iff_of_nodup opened.wellFormed.numbered List.nodup_range).2 fun i => ?_
  rw [List.mem_map, opened.exists_row, opened.exists_number_iff, List.mem_range]

/-! ## Heads -/

theorem Opened.mem_heads (opened : session.Opened disk indexed loaded) {head : NamedHead} :
    head ∈ session.history.heads ↔ ∃ r ∈ session.repositories.entries.map (·.2),
      ∃ tips, r.tips disk none = .ok tips ∧ ∃ id, (head.name, id) ∈ tips ∧
        session.store.commitId? head.commit = some ⟨id, r.root⟩ ∧ head.root = r.root := by
  have heads : session.history.heads = loaded.heads := by rw [opened.history]
  rw [heads, opened.covers.heads, ← opened.store]
  refine exists_congr fun r => and_congr_right fun hr => exists_congr fun tips =>
    and_congr_right fun htips => exists_congr fun id => and_congr_right fun mem =>
    and_congr_left fun _ => ?_
  obtain ⟨commit, holds⟩ := LoadedRoots.holds_tip (opened.covers.readable r hr) htips mem
  constructor
  · intro number
    exact opened.commitId?_eq ⟨hr, holds, number⟩
  · intro found
    exact opened.inStep.indexOf?_eq_some.2 ⟨_, found, BEq.rfl⟩

/-- The heads of the graph are the commits that branches and heads name. -/
theorem Opened.mem_graph_heads (opened : session.Opened disk indexed loaded) {h : CommitIndex} :
    h ∈ session.history.graph.heads ↔ ∃ head ∈ session.history.heads, head.commit = h := by
  have heads : session.history.heads = loaded.heads := by rw [opened.history]
  have graph : session.history.graph =
      .ofCommits loaded.commits (loaded.heads.map (·.commit)) := by rw [opened.history]
  rw [graph, PermanentGraph.mem_heads_ofCommits, ← graph, ← heads, List.mem_map]
  refine and_iff_left_of_imp ?_
  rintro ⟨head, mem, rfl⟩
  obtain ⟨r, hr, tips, htips, id, -, found, -⟩ := opened.mem_heads.1 mem
  obtain ⟨repository, commit, -, has⟩ := opened.exists_hasCommit found
  exact opened.exists_row.2 ⟨repository, _, commit, has⟩

/-! ## All of it -/

/-- A session holds the histories of the repositories at some paths. -/
structure HoldsHistories (session : Session) (disk : Disk) (paths : List Path) : Prop where
  /-- The repositories of the session are those at the paths, -/
  opened : ∀ r ∈ session.repositories.entries.map (·.2),
    ∃ path ∈ paths, Repository.openAt path disk = .ok r
  /-- and there is one for every path. -/
  every : ∀ path ∈ paths, ∃ r, Repository.openAt path disk = .ok r ∧
    ∃ own ∈ session.repositories.entries.map (·.2), (own.root == r.root) = true
  /-- The commits with a number are those that a branch or a head leads to. -/
  reachable : ∀ own : CommitId, (∃ i, session.store.commitId? i = some own) ↔
    ∃ r ∈ session.repositories.entries.map (·.2), own.root = r.root ∧
      ∃ tips, r.tips disk none = .ok tips ∧
        ∃ tip ∈ tips, (r.reader disk).Leads tip.2 own.hash
  /-- No commit has two numbers. -/
  once : ∀ i j a b, session.store.commitId? i = some a → session.store.commitId? j = some b →
    (a == b) = true → i = j
  /-- Every number has one row, and there are no others. -/
  numbers : (session.history.graph.rows.map (·.index)).Perm (List.range session.store.size)
  /-- A row has all parents of its commit, in their order, and the time of its committer. -/
  rows : ∀ row ∈ session.history.graph.rows, ∃ r ∈ session.repositories.entries.map (·.2),
    ∃ id commit, session.store.commitId? row.index = some ⟨id, r.root⟩ ∧
      (r.reader disk).commit id = .ok commit ∧
      row.parents.map session.store.commitId? =
        commit.parents.map (fun parent => some ⟨parent, r.root⟩) ∧
      row.time = commit.committer.time
  /-- The named heads are the branches and heads of the repositories, -/
  heads : ∀ head, head ∈ session.history.heads ↔ ∃ r ∈ session.repositories.entries.map (·.2),
    ∃ tips, r.tips disk none = .ok tips ∧ ∃ id, (head.name, id) ∈ tips ∧
      session.store.commitId? head.commit = some ⟨id, r.root⟩ ∧ head.root = r.root
  /-- and the graph has their commits as heads. -/
  commits : ∀ h, h ∈ session.history.graph.heads ↔ ∃ head ∈ session.history.heads, head.commit = h

theorem holdsHistories_of_openAt (h : openAt paths settings disk = .ok session) :
    session.HoldsHistories disk paths := by
  obtain ⟨repositories, indexed, loaded, -, hopened, table, -, -⟩ := openAt_eq_ok h
  have hopened := mapM_eq_ok.1 hopened
  obtain ⟨indexed, loaded, opened, -⟩ := opened_of_openAt h
  refine ⟨fun r mem => ?_, fun path mem => ?_, fun own => ⟨?_, ?_⟩, ?_, opened.map_index_rows,
    fun row hrow => ?_, fun head => opened.mem_heads, fun h => opened.mem_graph_heads⟩
  · obtain ⟨entry, hentry, rfl⟩ := List.mem_map.1 mem
    rw [table] at hentry
    have isOpened := ((tableOf_spec repositories).2 entry hentry).2
    obtain ⟨path, hpath, run⟩ := exists_of_mem_right hopened isOpened
    exact ⟨path, hpath, run⟩
  · obtain ⟨r, hr, run⟩ := exists_of_mem_left hopened mem
    have found := isSome_get?_tableOf hr
    rw [← table, PathTable.get?, Option.isSome_map] at found
    obtain ⟨⟨root, own⟩, found⟩ := Option.isSome_iff_exists.1 found
    have hentry := List.mem_of_find?_eq_some found
    have key : (root == r.root) = true := by simpa using List.find?_some found
    have keyed : (root == own.root) = true := opened.keyed (root, own) hentry
    exact ⟨r, run, own, List.mem_map.2 ⟨_, hentry, rfl⟩, BEq.trans (BEq.symm keyed) key⟩
  · rintro ⟨i, found⟩
    obtain ⟨r, commit, root, has⟩ := opened.exists_hasCommit found
    exact ⟨r, has.opened, root, has.holds.2⟩
  · rintro ⟨r, hr, root, tips, htips, tip, mem, leads⟩
    obtain ⟨tips', htips', all⟩ := opened.covers.readable r hr
    obtain rfl := Except.ok.inj (htips.symm.trans htips')
    obtain ⟨commit, read⟩ := all own.hash ⟨tip, mem, leads⟩
    obtain ⟨i, has⟩ := opened.exists_number hr ⟨read, tips, htips, tip, mem, leads⟩
    refine ⟨i, ?_⟩
    rw [opened.commitId?_eq has, ← root]
  · intro i j a b ha hb
    exact opened.inStep.distinct.eq ha hb
  · obtain ⟨r, id, commit, has, parents, time⟩ := opened.row hrow
    refine ⟨r, has.opened, id, commit, opened.commitId?_eq has, has.holds.1, ?_, time⟩
    rw [parents, opened.map_parentsOf has]

/-- A session with a repository that cannot be read does not open. -/
theorem openAt_of_unreadable (names : ∀ name ∈ disk.here, Disk.IsFileName name) {path : Path}
    (mem : path ∈ paths) (run : Repository.openAt path disk = .ok repository)
    (unreadable : ¬ repository.Readable disk) :
    ∃ fault, openAt paths settings disk = .error fault := by
  cases h : openAt paths settings disk with
  | error fault => exact ⟨fault, rfl⟩
  | ok session =>
    have holds := holdsHistories_of_openAt h
    obtain ⟨r, run', own, hown, same⟩ := holds.every path mem
    obtain rfl := Except.ok.inj (run.symm.trans run')
    obtain ⟨path', -, run'⟩ := holds.opened own hown
    obtain rfl := Repository.eq_of_openAt names run' run same
    obtain ⟨indexed, loaded, opened, -⟩ := opened_of_openAt h
    exact absurd (opened.covers.readable own hown) unreadable

/-- **A session that opens holds the histories of its repositories, and none opens if a commit in
them cannot be read.**  The names of the directory where relative paths start have to be such as
files can have. -/
theorem openAt_holds (paths : List Path) (settings : SessionSettings) (disk : Disk) :
    (∀ session, openAt paths settings disk = .ok session → session.HoldsHistories disk paths) ∧
    ((∀ name ∈ disk.here, Disk.IsFileName name) → ∀ path ∈ paths, ∀ r,
      Repository.openAt path disk = .ok r → ∀ tips, r.tips disk none = .ok tips →
      ∀ tip ∈ tips, ∀ id, (r.reader disk).Leads tip.2 id →
      ∀ fault, (r.reader disk).commit id = .error fault →
        ∃ fault, openAt paths settings disk = .error fault) := by
  refine ⟨fun session h => holdsHistories_of_openAt h, ?_⟩
  intro names path mem r run tips htips tip htip id leads fault failed
  refine openAt_of_unreadable names mem run ?_
  rintro ⟨tips', htips', all⟩
  obtain rfl := Except.ok.inj (htips.symm.trans htips')
  obtain ⟨commit, read⟩ := all id ⟨tip, htip, leads⟩
  rw [failed] at read
  cases read

end Session

/-! ## A repository without its commits -/

namespace Sample

open Disk

def hollowNodes : List (Place × Node) :=
  [(root, .directory), (Repository.gitPlace root, .directory),
    (Repository.gitPlace root ++ [BranchName.headText], .file (Utf8.ofString secondId.text))]

def hollow : Disk := .ofNodes hollowNodes

theorem proper_hollow : ∀ entry ∈ hollowNodes, entry.1 ≠ [] := by decide

theorem distinct_hollow : (hollowNodes.map (·.1)).Nodup := by decide

theorem rooted_hollow : hollow.Rooted := by
  have above : ∀ entry ∈ hollowNodes,
      entry.1.dropLast = [] ∨ (entry.1.dropLast, .directory) ∈ hollowNodes := by
    decide
  exact rooted_ofNodes proper_hollow distinct_hollow above

theorem tips_hollow : repository.tips hollow none = .ok [(.head, secondId)] := by
  refine tips_ofNodes proper_hollow distinct_hollow rooted_hollow hasFiles.refs
    (by simp [hollowNodes]) ?_ ?_
  all_goals decide

theorem exists_fault : ∃ fault, (repository.reader hollow).commit secondId = .error fault := by
  cases h : (repository.reader hollow).commit secondId with
  | error fault => exact ⟨fault, rfl⟩
  | ok commit =>
    obtain ⟨object, read, -⟩ := bind_eq_ok.1 h
    have isPlace : IsPlace (Repository.objectPlace root secondId) := by decide
    obtain ⟨file, content, node, -, -⟩ := (Repository.read_eq_ok rooted_hollow isPlace).1 read
    have none : hollow.node? (Repository.objectPlace root secondId) = none :=
      node?_of_not_mem proper_hollow (by simp [Repository.objectPlace]) (by decide)
    rw [none] at node
    cases node

theorem openAt_hollow : Repository.openAt (pathOf root) hollow = .ok repository := by
  have git : hollow.node? (Repository.gitPlace root) = some .directory :=
    node?_of_mem proper_hollow distinct_hollow (by simp [hollowNodes])
  exact Repository.openAt_pathOf rooted_hollow (by decide) (by decide) git

/-- The repository has its history in a session, and without its objects there is no session. -/
theorem openAt_holds_unless_hollow :
    (∃ session, Session.openAt [pathOf root] narrow disk = .ok session ∧
      session.HoldsHistories disk [pathOf root]) ∧
    ∃ fault, Session.openAt [pathOf root] narrow hollow = .error fault := by
  obtain ⟨session, run⟩ := exists_session narrow rfl
  obtain ⟨fault, failed⟩ := exists_fault
  refine ⟨⟨session, run, (Session.openAt_holds [pathOf root] narrow disk).1 session run⟩, ?_⟩
  have here : ∀ name ∈ hollow.here, IsFileName name := fun _ mem => absurd mem List.not_mem_nil
  exact (Session.openAt_holds [pathOf root] narrow hollow).2 here _ (List.mem_singleton_self _) _
    openAt_hollow _ tips_hollow _ (List.mem_singleton_self _) _ .refl fault failed

end Sample

end CommitLog
