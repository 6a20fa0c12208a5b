import CommitLog.Proofs.Graph.Permanent
import CommitLog.Proofs.History.Changes
import CommitLog.Proofs.Session.Opened

/-!
# The graph of a session

The graph of an open session has a row for every commit that a repository holds, and its links are
those between the objects: numbers lead to each other just as the ids do.

    session.HasCommit disk i r id c → (graph.Leads i j ↔
      ∃ id' c', session.HasCommit disk j r id' c' ∧ (r.reader disk).Leads id id')
-/

namespace CommitLog

/-- No commit that a repository holds leads back to itself. -/
def Repository.Acyclic (repository : Repository) (disk : Disk) : Prop :=
  ∀ id commit, repository.Holds disk id commit →
    ¬ Relation.TransGen (repository.reader disk).IsParent id id

/-- Objects that can be read, in a history and in trees without cycles. -/
structure Repository.Intact (repository : Repository) (disk : Disk) : Prop where
  acyclic : repository.Acyclic disk
  whole : ∀ id commit, repository.Holds disk id commit →
    (repository.reader disk).Whole commit.tree

/-- A history in which every parent ranks below its children. -/
theorem Repository.acyclic_of_rank {repository : Repository} {disk : Disk}
    (readable : repository.Readable disk) (rank : ObjectId → Nat)
    (below : ∀ id commit, repository.Holds disk id commit →
      ∀ parent ∈ commit.parents, rank parent < rank id) : repository.Acyclic disk := by
  have descends {id other : ObjectId} {commit : Commit} (holds : repository.Holds disk id commit)
      (h : Relation.TransGen (repository.reader disk).IsParent id other) :
      rank other < rank id := by
    induction h with
    | single parent =>
      obtain ⟨c, read, mem⟩ := parent
      obtain rfl := Except.ok.inj (holds.1.symm.trans read)
      exact below id commit holds _ mem
    | tail path parent ih =>
      obtain ⟨c, read, mem⟩ := parent
      obtain ⟨c', holds'⟩ := LoadedRoots.holds_of_leads readable holds path.to_reflTransGen
      obtain rfl := Except.ok.inj (holds'.1.symm.trans read)
      exact Nat.lt_trans (below _ _ holds' _ mem) ih
  intro id commit holds cycle
  exact Nat.lt_irrefl _ (descends holds cycle)

namespace Session

variable {disk : Disk} {session : Session} {indexed : List Path} {loaded : LoadedRoots}
  {i j : CommitIndex} {repository : Repository} {id : ObjectId} {commit : Commit}

/-- A number belongs to one commit of one repository. -/
theorem Opened.unique (opened : session.Opened disk indexed loaded) {repository' : Repository}
    {id' : ObjectId} {commit' : Commit} (h : session.HasCommit disk i repository id commit)
    (h' : session.HasCommit disk i repository' id' commit') :
    repository' = repository ∧ id' = id ∧ commit' = commit := by
  have number := h.number
  have number' := h'.number
  have same := opened.inStep.beq_of_indexOf? number' number
  obtain ⟨hash, root⟩ := CommitId.beq_iff.1 same
  dsimp only at hash root
  subst hash
  obtain rfl := opened.eq_of_root h'.opened h.opened root
  exact ⟨rfl, rfl, Except.ok.inj (h'.holds.1.symm.trans h.holds.1)⟩

/-- Every commit that is held has a number. -/
theorem Opened.exists_number (opened : session.Opened disk indexed loaded)
    (mem : repository ∈ session.repositories.entries.map (·.2))
    (holds : repository.Holds disk id commit) : ∃ i, session.HasCommit disk i repository id commit := by
  obtain ⟨i, hi⟩ := opened.covers.known repository mem id commit holds
  exact ⟨i, mem, holds, by rw [opened.store, hi]⟩

/-- The parents of a commit have numbers, too. -/
theorem Opened.exists_parent (opened : session.Opened disk indexed loaded)
    (h : session.HasCommit disk i repository id commit) {parent : ObjectId}
    (hparent : parent ∈ commit.parents) : ∃ p c, session.HasCommit disk p repository parent c := by
  have readable := opened.covers.readable repository h.opened
  obtain ⟨c, holds⟩ := LoadedRoots.holds_parent readable h.holds hparent
  obtain ⟨p, hp⟩ := opened.exists_number h.opened holds
  exact ⟨p, c, hp⟩

/-! ## Rows -/

theorem Opened.wellFormed (opened : session.Opened disk indexed loaded) :
    session.history.graph.WellFormed := by
  rw [opened.history]
  exact PermanentGraph.wellFormed_ofCommits _ _

/-- A loaded commit has a number, and its parents are numbers of its parents. -/
theorem Opened.of_mem_commits (opened : session.Opened disk indexed loaded) {c : GraphCommit}
    (hc : c ∈ loaded.commits) : ∃ repository id commit,
      session.HasCommit disk c.index repository id commit ∧
        c.parents = session.store.parentsOf repository.root commit := by
  rw [opened.covers.commits] at hc
  obtain ⟨m, hm, rfl⟩ := List.mem_map.1 hc
  obtain ⟨repository, mem, details⟩ := (opened.covers.metadata m).1 hm
  obtain ⟨commit, holds, number, -, parents, -⟩ := Repository.Describes.of_isDetails details
  rw [← opened.store] at number parents
  exact ⟨repository, m.hash, commit, ⟨mem, holds, number⟩, parents⟩

theorem Opened.exists_commit (opened : session.Opened disk indexed loaded) :
    (∃ c ∈ loaded.commits, c.index = i) ↔
      ∃ repository id commit, session.HasCommit disk i repository id commit := by
  constructor
  · rintro ⟨c, hc, rfl⟩
    obtain ⟨repository, id, commit, h, -⟩ := opened.of_mem_commits hc
    exact ⟨repository, id, commit, h⟩
  · rintro ⟨repository, id, commit, h⟩
    obtain ⟨m, rfl, details⟩ := opened.covers.detailed repository h.opened id commit h.holds
    have hm := (opened.covers.metadata m).2 ⟨repository, h.opened, details⟩
    have number : session.store.indexOf? ⟨m.hash, repository.root⟩ = some m.index := by
      obtain ⟨_, -, number, -⟩ := details
      rw [opened.store, number]
    refine ⟨⟨m.index, m.parents, m.committedAt⟩, ?_, ?_⟩
    · rw [opened.covers.commits]
      exact List.mem_map_of_mem hm
    · exact Option.some.inj (number.symm.trans h.number)

/-- The rows of the graph are the commits that the repositories hold. -/
theorem Opened.exists_row (opened : session.Opened disk indexed loaded) :
    (∃ c ∈ session.history.graph.rows, c.index = i) ↔
      ∃ repository id commit, session.HasCommit disk i repository id commit := by
  rw [opened.history, PermanentGraph.exists_row_ofCommits, opened.exists_commit]

/-! ## Links -/

/-- A link between loaded commits is one between their objects. -/
theorem Opened.isParent_iff (opened : session.Opened disk indexed loaded)
    (h : session.HasCommit disk i repository id commit) :
    GraphCommit.IsParent loaded.commits i j ↔
      ∃ parent ∈ commit.parents, ∃ c, session.HasCommit disk j repository parent c := by
  -- whichever commit of this number comes first, its parents are these
  have parents : ∀ c ∈ loaded.commits, c.index = i →
      (j ∈ c.parents ↔ ∃ parent ∈ commit.parents, ∃ c, session.HasCommit disk j repository parent c)
      := by
    rintro c hc rfl
    obtain ⟨repository', id', commit', h', same⟩ := opened.of_mem_commits hc
    obtain ⟨rfl, rfl, rfl⟩ := opened.unique h h'
    rw [same, CommitStore.parentsOf, List.mem_filterMap]
    refine exists_congr fun parent => and_congr_right fun hparent => ?_
    constructor
    · intro number
      obtain ⟨p, c', hp⟩ := opened.exists_parent h' hparent
      obtain rfl := Option.some.inj (number.symm.trans hp.number)
      exact ⟨c', hp⟩
    · rintro ⟨c', hp⟩
      exact hp.number
  constructor
  · rintro ⟨c, found, hj⟩
    have same : c.index = i := by simpa using List.find?_some found
    exact (parents c (List.mem_of_find?_eq_some found) same).1 hj
  · intro link
    obtain ⟨c, hc, same⟩ := opened.exists_commit.2 ⟨repository, id, commit, h⟩
    have found : (loaded.commits.find? (·.index == i)).isSome = true :=
      List.find?_isSome.2 ⟨c, hc, by simpa using same⟩
    obtain ⟨d, hd⟩ := Option.isSome_iff_exists.1 found
    have same : d.index = i := by simpa using List.find?_some hd
    exact ⟨d, hd, (parents d (List.mem_of_find?_eq_some hd) same).2 link⟩

theorem Opened.mem_parents (opened : session.Opened disk indexed loaded)
    (h : session.HasCommit disk i repository id commit) :
    j ∈ session.history.graph.parents i ↔
      ∃ parent ∈ commit.parents, ∃ c, session.HasCommit disk j repository parent c := by
  rw [opened.history, PermanentGraph.mem_parents_ofCommits, opened.isParent_iff h]
  refine and_iff_left_of_imp ?_
  rintro ⟨parent, -, c, hc⟩
  exact opened.exists_commit.2 ⟨repository, parent, c, hc⟩

/-- Numbers lead to each other as the ids do. -/
theorem Opened.leads_iff (opened : session.Opened disk indexed loaded)
    (h : session.HasCommit disk i repository id commit) : session.history.graph.Leads i j ↔
      ∃ id' c, session.HasCommit disk j repository id' c ∧
        (repository.reader disk).Leads id id' := by
  constructor
  · intro leads
    induction leads with
    | refl => exact ⟨id, commit, h, .refl⟩
    | tail _ link ih =>
      obtain ⟨id', c, h', leads⟩ := ih
      obtain ⟨parent, mem, c', hparent⟩ := (opened.mem_parents h').1 link
      exact ⟨parent, c', hparent, leads.tail ⟨c, h'.holds.1, mem⟩⟩
  · rintro ⟨id', c, h', leads⟩
    induction leads generalizing j c with
    | refl =>
      obtain rfl := Option.some.inj (h.number.symm.trans h'.number)
      exact .refl
    | tail before link ih =>
      obtain ⟨c', read, mem⟩ := link
      have readable := opened.covers.readable repository h.opened
      have holds := LoadedRoots.holds_of_leads readable h.holds before
      obtain ⟨d, hd⟩ := holds
      obtain rfl := Except.ok.inj (read.symm.trans hd.1)
      obtain ⟨k, hk⟩ := opened.exists_number h.opened hd
      exact (ih _ hk).tail ((opened.mem_parents hk).2 ⟨_, mem, c, h'⟩)

/-! ## Order -/

/-- The rows stand in permanent order. -/
theorem Opened.greedyOrder (opened : session.Opened disk indexed loaded) :
    GraphCommit.GreedyOrder session.history.graph.rows := by
  rw [opened.history]
  exact (PermanentGraph.rows_ofCommits _ _).2

/-- Children come first when no commit leads back to itself. -/
theorem Opened.childrenFirst (opened : session.Opened disk indexed loaded)
    (acyclic : ∀ repository ∈ session.repositories.entries.map (·.2), repository.Acyclic disk) :
    GraphCommit.ChildrenFirst session.history.graph.rows := by
  rw [opened.history]
  refine PermanentGraph.childrenFirst_ofCommits _ ?_
  intro i cycle
  have chain : ∀ j, Relation.TransGen (GraphCommit.IsParent loaded.commits) i j →
      ∀ repository id commit, session.HasCommit disk i repository id commit →
        ∃ id' c, session.HasCommit disk j repository id' c ∧
          Relation.TransGen (repository.reader disk).IsParent id id' := by
    intro j path repository id commit h
    induction path with
    | single link =>
      obtain ⟨parent, mem, c, hparent⟩ := (opened.isParent_iff h).1 link
      exact ⟨parent, c, hparent, .single ⟨commit, h.holds.1, mem⟩⟩
    | tail _ link ih =>
      obtain ⟨id', c, h', path⟩ := ih
      obtain ⟨parent, mem, c', hparent⟩ := (opened.isParent_iff h').1 link
      exact ⟨parent, c', hparent, path.tail ⟨c, h'.holds.1, mem⟩⟩
  have known : ∃ c ∈ loaded.commits, c.index = i := by
    obtain ⟨j, ⟨c, found, -⟩, -⟩ := Relation.TransGen.head'_iff.1 cycle
    exact ⟨c, List.mem_of_find?_eq_some found, by simpa using List.find?_some found⟩
  obtain ⟨repository, id, commit, h⟩ := opened.exists_commit.1 known
  obtain ⟨id', c, h', path⟩ := chain i cycle repository id commit h
  obtain ⟨-, rfl, -⟩ := opened.unique h h'
  exact acyclic repository h.opened _ commit h.holds path

end Session

end CommitLog
