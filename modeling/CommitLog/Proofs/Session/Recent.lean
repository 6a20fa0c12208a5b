import CommitLog.Proofs.Graph.Greedy
import CommitLog.Proofs.Search.Newest
import CommitLog.Proofs.Session.Loaded
import CommitLog.Proofs.Session.Memory

/-!
# The commits in the cache

The cache of a session that has just been opened keeps the newest commits
(`Session.keeps_of_openAt`).  These are the first of the permanent graph as long as no parent goes
before a child of it (`Session.openAt_keeps`); a commit that was made with a slow clock may be older
than its parent (`Skewed.not_keeps_first`).

    newest.Perm rows → newest.Pairwise goesBefore → session.Keeps (newest.take cacheSize)
    ParentsFollow rows → newest = rows
-/

namespace CommitLog

/-- Lists whose fronts have the same members are equal. -/
theorem eq_of_mem_take {α : Type} {a b : List α} (ha : a.Nodup) (hb : b.Nodup)
    (same : ∀ n x, x ∈ a.take n ↔ x ∈ b.take n) : a = b := by
  induction a generalizing b with
  | nil =>
    refine (List.eq_nil_iff_forall_not_mem.2 fun x hx => ?_).symm
    have found := (same b.length x).2 (by rwa [List.take_length])
    simp at found
  | cons x a ih =>
    cases b with
    | nil =>
      have found := (same 1 x).1 (by simp)
      cases found
    | cons y b =>
      obtain rfl : x = y := by simpa using (same 1 x).1 (by simp)
      obtain ⟨xa, ha⟩ := List.nodup_cons.1 ha
      obtain ⟨xb, hb⟩ := List.nodup_cons.1 hb
      refine congrArg (x :: ·) (ih ha hb fun n z => ?_)
      have next := same (n + 1) z
      simp only [List.take_succ_cons, List.mem_cons] at next
      by_cases first : z = x
      · subst first
        exact iff_of_false (fun h => xa (List.mem_of_mem_take h))
          fun h => xb (List.mem_of_mem_take h)
      · simpa [first] using next

namespace GraphCommit

def age (c : GraphCommit) : Age := ⟨c.time, c.index⟩

variable {commits : List GraphCommit}

/-- Ages stand in the order of the queue. -/
theorem pairwise_map_age (numbered : Numbered commits)
    (sorted : commits.Pairwise (·.goesBefore ·)) : (commits.map age).Pairwise (·.isBefore ·) := by
  refine List.pairwise_map.2 ((sorted.and (List.pairwise_map.1 numbered)).imp ?_)
  rintro c d ⟨before, differ⟩
  exact Age.isBefore_iff.2 ((goesBefore_iff.1 before).imp_right fun ⟨time, index⟩ =>
    ⟨time, Nat.lt_of_le_of_ne index differ⟩)

/-- In a graph of two commits the child comes first. -/
theorem greedyOrder_pair {child parent : GraphCommit} (differ : child.index ≠ parent.index)
    (link : child.parents = [parent.index]) (root : parent.parents = []) :
    GreedyOrder [child, parent] := by
  refine .next ⟨List.mem_cons_self, ?_⟩ (fun d free => ?_)
    (.next ⟨List.mem_cons_self, ?_⟩ (fun d free => ?_) (.stuck (fun c free => ?_) .nil))
  · simp [link, root, differ]
  · rcases List.mem_cons.1 free.1 with rfl | mem
    · exact (goesBefore_total d d).elim id id
    · have notFree := free.2 child List.mem_cons_self
      rw [link, List.mem_singleton.1 mem] at notFree
      exact absurd (List.mem_singleton_self _) notFree
  · simp [root]
  · rw [List.mem_singleton.1 free.1]
    exact (goesBefore_total parent parent).elim id id
  · cases free.1

end GraphCommit

namespace Session

variable {disk : Disk} {session : Session} {indexed : List Path} {loaded : LoadedRoots}
  {i : CommitIndex} {paths : List Path} {settings : SessionSettings}

/-- The details in the cache are those of some commits. -/
def Keeps (session : Session) (commits : List GraphCommit) : Prop :=
  ∀ i, (session.recent.get? i).isSome = true ↔ ∃ c ∈ commits, c.index = i

/-- The details that have been loaded are as old as the rows of the graph. -/
theorem Opened.exists_age (opened : session.Opened disk indexed loaded) {age : Age} :
    (∃ c ∈ session.history.graph.rows, c.age = age) ↔ ∃ m ∈ loaded.metadata, m.age = age := by
  have commits := opened.covers.commits
  have graph : session.history.graph = .ofCommits loaded.commits (loaded.heads.map (·.commit)) := by
    rw [opened.history]
  have known : ∀ c ∈ session.history.graph.rows, ∃ m ∈ loaded.metadata, m.age = c.age := by
    intro c hc
    rw [graph, PermanentGraph.mem_rows_ofCommits] at hc
    obtain ⟨first, found, hc⟩ := hc
    have hfirst := List.mem_of_find?_eq_some found
    rw [commits] at hfirst
    obtain ⟨m, hm, rfl⟩ := List.mem_map.1 hfirst
    refine ⟨m, hm, ?_⟩
    rw [hc]
    rfl
  constructor
  · rintro ⟨c, hc, rfl⟩
    exact known c hc
  · rintro ⟨m, hm, rfl⟩
    have given : ∃ c ∈ loaded.commits, c.index = m.index := by
      rw [commits]
      exact ⟨_, List.mem_map_of_mem hm, rfl⟩
    rw [graph] at known ⊢
    obtain ⟨c, hc, index⟩ := PermanentGraph.exists_row_ofCommits.2 given
    obtain ⟨own, hown, same⟩ := known c hc
    have differ := opened.covers.numbered opened.roots_differ
    obtain rfl := List.inj_on_of_nodup_map differ hown hm ((congrArg Age.index same).trans index)
    exact ⟨c, hc, same.symm⟩

/-- A cache keeps the newest commits. -/
theorem keeps_of_openAt (run : openAt paths settings disk = .ok session)
    {newest : List GraphCommit} (perm : newest.Perm session.history.graph.rows)
    (sorted : newest.Pairwise (·.goesBefore ·)) :
    session.Keeps (newest.take settings.cacheSize) := by
  obtain ⟨indexed, loaded, opened, recent⟩ := opened_of_openAt run
  have ages : ∀ age, age ∈ newest.map GraphCommit.age ↔ ∃ m ∈ loaded.metadata, m.age = age := by
    intro age
    simp only [← opened.exists_age, List.mem_map, perm.mem_iff]
  have numbered := opened.wellFormed.numbered.perm perm
  intro i
  rw [recent, Option.isSome_iff_exists]
  simp only [RecentCache.get?_store_empty (opened.covers.numbered opened.roots_differ)
    (GraphCommit.pairwise_map_age numbered sorted) ages, ← List.map_take, List.mem_map]
  constructor
  · rintro ⟨m, -, rfl, c, mem, same⟩
    exact ⟨c, mem, congrArg Age.index same⟩
  · rintro ⟨c, mem, rfl⟩
    obtain ⟨m, hm, same⟩ := (ages c.age).1 (List.mem_map_of_mem (List.mem_of_mem_take mem))
    exact ⟨m, hm, congrArg Age.index same, c, mem, same.symm⟩

/-- A cache does not keep two sets of commits. -/
theorem Keeps.subset {a b commits : List GraphCommit} (ha : session.Keeps a)
    (hb : session.Keeps b) (numbered : GraphCommit.Numbered commits) (subA : a ⊆ commits)
    (subB : b ⊆ commits) : a ⊆ b := by
  intro c hc
  obtain ⟨d, hd, same⟩ := (hb c.index).1 ((ha c.index).2 ⟨c, hc, rfl⟩)
  rwa [← numbered.eq (subB hd) (subA hc) same]

end Session

/-! ## A commit that is older than its parent

Ada commits twice, the second time with a clock that is slow. -/

namespace Skewed

open Disk Sample

def earlyId : ObjectId := ⟨[223, 79, 77, 209, 152, 11, 157, 15, 148, 158, 107, 78, 169, 253, 221,
  168, 218, 60, 128, 96], rfl⟩

def early : Commit := .byAuthor [firstId] treeId (ada 500) "Early\n"

def commits : List (ObjectId × Commit) := [(earlyId, early), (firstId, first)]

def earlyObject : RawObject := ⟨.commit, body ["tree 4b825dc642cb6eb9a060e54bf8d69288fbee4904",
  "parent e200acb1365cab6206a7ac294f95d2877d27b29e", "author Ada <ada@example.com> 500 +0000",
  "committer Ada <ada@example.com> 500 +0000", "", "Early"]⟩

def objects : List (ObjectId × RawObject) := [(firstId, firstObject), (earlyId, earlyObject)]

def nodes : List (Place × Node) :=
  [(root, .directory), (Repository.gitPlace root, .directory),
    (Repository.gitPlace root ++ [BranchName.headText], .file (Utf8.ofString earlyId.text)),
    (Repository.gitPlace root ++ ["objects"], .directory)] ++
  objects.flatMap fun (id, object) => [((Repository.objectPlace root id).dropLast, .directory),
    (Repository.objectPlace root id, .file (Compression.compress object.serialize))]

def disk : Disk := .ofNodes nodes

theorem proper_nodes : ∀ entry ∈ nodes, entry.1 ≠ [] := by decide +kernel

theorem distinct_nodes : (nodes.map (·.1)).Nodup := by decide +kernel

theorem rooted_disk : disk.Rooted := by
  have above : ∀ entry ∈ nodes, entry.1.dropLast = [] ∨
      (entry.1.dropLast, .directory) ∈ nodes := by
    decide +kernel
  exact rooted_ofNodes proper_nodes distinct_nodes above

theorem read_objects {id : ObjectId} {object : RawObject} (mem : (id, object) ∈ objects) :
    repository.objects.read disk id = .ok object := by
  have isPlace : ∀ entry ∈ objects, IsPlace (Repository.objectPlace root entry.1) := by decide
  have stored : ∀ entry ∈ objects,
      Compression.decompress? (Compression.compress entry.2.serialize) = some entry.2.serialize ∧
        (parseHeader entry.2.serialize).toOption =
          some (entry.2.kind, entry.2.body.length, entry.2.body) := by
    refine List.forall_mem_cons.2 ⟨decompress?_objects _ (by simp [Sample.objects]), ?_⟩
    decide +kernel
  obtain ⟨content, header⟩ := stored _ mem
  refine read_ofNodes proper_nodes distinct_nodes rooted_disk (isPlace _ mem) ?_ content header
  refine List.mem_append_right _ (List.mem_flatMap.2 ⟨_, mem, ?_⟩)
  exact List.mem_cons_of_mem _ List.mem_cons_self

theorem readCommit {id : ObjectId} {commit : Commit} (mem : (id, commit) ∈ commits) :
    (repository.reader disk).commit id = .ok commit := by
  have parsed : ∀ c ∈ commits, ∃ object, (c.1, object) ∈ objects ∧ object.kind = .commit ∧
      (Commit.parse object.body).toOption = some c.2 := by
    refine List.forall_mem_cons.2 ⟨⟨earlyObject, by simp [objects], rfl, by decide +kernel⟩, ?_⟩
    refine List.forall_mem_singleton.2 ⟨firstObject, by simp [objects], rfl, by decide +kernel⟩
  obtain ⟨object, stored, kind, parsed⟩ := parsed _ mem
  exact Repository.readCommit_of_read (read_objects stored) kind (toOption_eq_some.1 parsed)

theorem tips_repository : repository.tips disk none = .ok [(.head, earlyId)] := by
  refine tips_ofNodes proper_nodes distinct_nodes rooted_disk hasFiles.refs (by simp [nodes]) ?_ ?_
  · decide
  · decide +kernel

/-- The repository can be read, and holds the two commits and nothing else. -/
theorem readable_repository : repository.Readable disk ∧
    ∀ id commit, repository.Holds disk id commit → (id, commit) ∈ commits := by
  refine LoadedRoots.readable_of_closed tips_repository (fun c mem => readCommit mem) ?_ ?_
  · intro tip mem
    obtain rfl := List.mem_singleton.1 mem
    exact ⟨_, List.mem_cons_self, rfl⟩
  · decide

theorem openAt_repository : Repository.openAt (pathOf root) disk = .ok repository := by
  have git : disk.node? (Repository.gitPlace root) = some .directory :=
    node?_of_mem proper_nodes distinct_nodes (by simp [nodes])
  exact Repository.openAt_pathOf rooted_disk (List.cons_ne_nil _ _) (by decide) git

/-- A session of the repository, which keeps the details of some commits. -/
theorem exists_session (size : Nat) : ∃ session,
    Session.openAt [pathOf root] ⟨.standard, size, [], none⟩ disk = .ok session := by
  refine @Session.exists_openAt _ [] _ ⟨.standard, size, [], none⟩ [repository] rfl ?_ (by simp)
    ?_ ?_ ?_
  · exact mapM_eq_ok.2 (.cons openAt_repository .nil)
  · exact List.forall_mem_singleton.2 readable_repository.1
  · intro r _ asked
    cases asked
  · have among := @holdAtMost_of_subset disk [repository]
      (commits.map fun c => ⟨c.1, repository.root⟩) ?_
    · exact fun store distinct held => Nat.le_trans (among store distinct held) (by decide)
    · refine List.forall_mem_singleton.2 fun id commit holds => ?_
      exact List.mem_map_of_mem (readable_repository.2 id commit holds)

theorem holds_commits {id : ObjectId} {commit : Commit} (mem : (id, commit) ∈ commits) :
    repository.Holds disk id commit := by
  have parent : (repository.reader disk).IsParent earlyId firstId :=
    ⟨early, readCommit List.mem_cons_self, List.mem_singleton_self _⟩
  refine ⟨readCommit mem, _, tips_repository, _, List.mem_singleton_self _, ?_⟩
  rcases List.mem_cons.1 mem with same | mem
  · cases same
    exact .refl
  · cases List.mem_singleton.1 mem
    exact .single parent

variable {settings : SessionSettings} {session : Session}

/-- The rows are the two commits. -/
theorem exists_pair (run : Session.openAt [pathOf root] settings disk = .ok session) :
    ∃ child parent : GraphCommit, [child, parent].Perm session.history.graph.rows ∧
      child.index ≠ parent.index ∧ child.parents = [parent.index] ∧ parent.parents = [] ∧
      child.time = 500 ∧ parent.time = 1000 := by
  obtain ⟨indexed, loaded, opened, -⟩ := Session.opened_of_openAt run
  have numbered := opened.wellFormed.numbered
  have only : ∀ r ∈ session.repositories.entries.map (·.2), r = repository := by
    rw [Session.entries_of_openAt run openAt_repository]
    exact List.forall_mem_singleton.2 rfl
  have mem : repository ∈ session.repositories.entries.map (·.2) := by
    rw [Session.entries_of_openAt run openAt_repository]
    exact List.mem_singleton_self _
  obtain ⟨i, hi⟩ := opened.exists_number mem (holds_commits List.mem_cons_self)
  obtain ⟨j, hj⟩ := opened.exists_number mem (@holds_commits firstId first (by simp [commits]))
  obtain ⟨child, hchild, rfl, link, time⟩ := opened.row_of_hasCommit hi
  obtain ⟨parent, hparent, rfl, none, time'⟩ := opened.row_of_hasCommit hj
  have differ : child.index ≠ parent.index := by
    intro same
    have ids := (opened.unique (same ▸ hi) hj).2.1
    revert ids
    decide
  have members : ∀ c, c ∈ [child, parent] ↔ c ∈ session.history.graph.rows := by
    intro c
    simp only [List.mem_cons, List.not_mem_nil, or_false]
    refine ⟨by rintro (rfl | rfl) <;> assumption, fun hc => ?_⟩
    obtain ⟨r, id, commit, has, -⟩ := opened.row hc
    obtain rfl := only r has.opened
    rcases List.mem_cons.1 (readable_repository.2 id commit has.holds) with same | mem
    · cases same
      exact .inl (numbered.eq hc hchild (Option.some.inj (has.number.symm.trans hi.number)))
    · cases List.mem_singleton.1 mem
      exact .inr (numbered.eq hc hparent (Option.some.inj (has.number.symm.trans hj.number)))
  have nodup : [child, parent].Nodup := by
    simpa using fun same => differ (congrArg GraphCommit.index same)
  refine ⟨child, parent, (List.perm_ext_iff_of_nodup nodup numbered.nodup).2 members, differ, ?_,
    none, time, time'⟩
  rw [link]
  simp [CommitStore.parentsOf, early, Commit.byAuthor, hj.number]

/-- The graph has the second commit first. -/
theorem exists_rows (run : Session.openAt [pathOf root] settings disk = .ok session) :
    ∃ child parent : GraphCommit, session.history.graph.rows = [child, parent] ∧
      child.index ≠ parent.index ∧ child.time = 500 ∧ parent.time = 1000 := by
  obtain ⟨indexed, loaded, opened, -⟩ := Session.opened_of_openAt run
  obtain ⟨child, parent, perm, differ, link, none, time, time'⟩ := exists_pair run
  have order := (GraphCommit.greedyOrder_pair differ link none).unique opened.greedyOrder
    (opened.wellFormed.numbered.perm perm) perm
  exact ⟨child, parent, order.symm, differ, time, time'⟩

end Skewed

/-! ## The cache and the permanent order -/

/-- **The cache of a new session.**  It keeps the first commits of the order by age.  This is the
permanent order exactly if the caches of all sizes keep the first commits of the graph, and so it is
when no parent goes before a child of it; without cycles only then. -/
theorem Session.openAt_keeps {disk : Disk} {session : Session} {paths : List Path}
    {settings : SessionSettings} (run : openAt paths settings disk = .ok session) :
    let rows := session.history.graph.rows
    ∃ newest : List GraphCommit, newest.Perm rows ∧ newest.Pairwise (·.goesBefore ·) ∧
      session.Keeps (newest.take settings.cacheSize) ∧
      (newest = rows ↔ ∀ size, ∃ other,
        openAt paths { settings with cacheSize := size } disk = .ok other ∧
          other.Keeps (rows.take size)) ∧
      (GraphCommit.ParentsFollow rows → newest = rows) ∧
      ((∀ r ∈ session.repositories.entries.map (·.2), r.Acyclic disk) →
        newest = rows → GraphCommit.ParentsFollow rows) := by
  intro rows
  obtain ⟨indexed, loaded, opened, -⟩ := opened_of_openAt run
  have numbered : GraphCommit.Numbered rows := opened.wellFormed.numbered
  obtain ⟨perm, sorted⟩ := GraphCommit.sorted_spec rows
  set newest := GraphCommit.sorted rows
  have others (size : Nat) : ∃ other,
      openAt paths { settings with cacheSize := size } disk = .ok other ∧
        other.Keeps (newest.take size) := by
    obtain ⟨recent, again⟩ := exists_openAt_cacheSize run size
    exact ⟨_, again, @keeps_of_openAt _ _ _ { settings with cacheSize := size } again _ perm sorted⟩
  refine ⟨newest, perm, sorted, keeps_of_openAt run perm sorted, ⟨?_, ?_⟩, ?_, ?_⟩
  · intro same size
    rw [← same]
    exact others size
  · intro each
    refine eq_of_mem_take (numbered.perm perm).nodup numbered.nodup fun n c => ?_
    obtain ⟨other, again, keeps⟩ := each n
    obtain ⟨other', again', keeps'⟩ := others n
    obtain rfl := Except.ok.inj (again.symm.trans again')
    have subA : newest.take n ⊆ rows := fun c hc => perm.mem_iff.1 (List.mem_of_mem_take hc)
    have subB : rows.take n ⊆ rows := fun c hc => List.mem_of_mem_take hc
    exact ⟨fun hc => keeps'.subset keeps numbered subA subB hc,
      fun hc => keeps.subset keeps' numbered subB subA hc⟩
  · intro follow
    exact (numbered.eq_of_pairwise (opened.greedyOrder.pairwise follow) sorted perm.symm).symm
  · intro acyclic same
    rw [same] at sorted
    exact (opened.childrenFirst acyclic).parentsFollow numbered sorted

namespace Skewed

open Disk Sample

/-- With room for one commit the cache has the first commit that was made, and not the first of the
graph. -/
theorem not_keeps_first : ∃ session,
    Session.openAt [pathOf root] ⟨.standard, 1, [], none⟩ disk = .ok session ∧
      ¬ session.Keeps (session.history.graph.rows.take 1) := by
  obtain ⟨session, run⟩ := exists_session 1
  refine ⟨session, run, fun keeps => ?_⟩
  obtain ⟨child, parent, rows, differ, time, time'⟩ := exists_rows run
  have before : parent.goesBefore child = true :=
    GraphCommit.goesBefore_iff.2 (.inl (by rw [time, time']; decide))
  have newest := @Session.keeps_of_openAt _ _ _ _ run [parent, child]
    (rows ▸ .swap child parent []) (List.pairwise_pair.2 before)
  have held := (newest parent.index).2 ⟨parent, List.mem_cons_self, rfl⟩
  obtain ⟨c, mem, same⟩ := (keeps parent.index).1 held
  rw [rows] at mem
  rw [List.mem_singleton.1 mem] at same
  exact differ same

/-- The order by age is not that of the graph. -/
theorem openAt_keeps_skewed : ∃ session,
    Session.openAt [pathOf root] ⟨.standard, 1, [], none⟩ disk = .ok session ∧
      ∃ newest : List GraphCommit, newest.Perm session.history.graph.rows ∧
        newest.Pairwise (·.goesBefore ·) ∧ session.Keeps (newest.take 1) ∧
        newest ≠ session.history.graph.rows := by
  obtain ⟨session, run⟩ := exists_session 1
  obtain ⟨newest, perm, sorted, keeps, -⟩ := Session.openAt_keeps run
  refine ⟨session, run, newest, perm, sorted, keeps, ?_⟩
  rintro rfl
  obtain ⟨child, parent, rows, -, time, time'⟩ := exists_rows run
  rw [rows, List.pairwise_pair, GraphCommit.goesBefore_iff, time, time'] at sorted
  simp at sorted

end Skewed

end CommitLog
