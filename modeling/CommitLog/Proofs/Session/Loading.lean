import CommitLog.Proofs.Graph.Store
import CommitLog.Proofs.History.Walk
import CommitLog.Proofs.Steps
import CommitLog.Session.Basic

/-!
# What is loaded of repositories

Reading one repository after the other gives every commit that the branches and the head of one of
them lead to a number and its details (`LoadedRoots.Covers`).  Reading fails unless all of these
commits can be read.
-/

namespace CommitLog

namespace Repository

/-- A commit that the branches and the head of a repository lead to, and what is read of it. -/
def Holds (repository : Repository) (disk : Disk) (id : ObjectId) (commit : Commit) : Prop :=
  (repository.reader disk).commit id = .ok commit ∧
    ∃ tips, repository.tips disk none = .ok tips ∧
      ∃ tip ∈ tips, (repository.reader disk).Leads tip.2 id

/-- The branches and the head can be read, and all commits that they lead to. -/
def Readable (repository : Repository) (disk : Disk) : Prop :=
  ∃ tips, repository.tips disk none = .ok tips ∧
    ∀ id, (∃ tip ∈ tips, (repository.reader disk).Leads tip.2 id) →
      ∃ commit, (repository.reader disk).commit id = .ok commit

/-- The details that a session loads of a commit when these repositories are to be indexed. -/
def IsDetails (repository : Repository) (disk : Disk) (store : CommitStore) (indexed : List Path)
    (metadata : Metadata) : Prop :=
  ∃ commit, repository.Holds disk metadata.hash commit ∧
    store.indexOf? ⟨metadata.hash, repository.root⟩ = some metadata.index ∧
    LoadedRoots.details (repository.reader disk) (indexed.contains repository.root)
      (.ofCommit metadata.index ⟨metadata.hash, repository.root⟩
        (store.parentsOf repository.root commit) commit) commit = .ok metadata

end Repository

namespace LoadedRoots

variable {disk : Disk} {indexed : List Path} {repository : Repository}

/-! ## Numbering a history -/

theorem number_spec {root : Path} {store final : CommitStore}
    {visits : List (Except Fault ReadCommit)} {reads : List ReadCommit}
    (inStep : store.InStep) (room : store.size ≤ CommitStore.capacity)
    (h : number root store visits = .ok (reads, final)) :
    visits = reads.map .ok ∧ final.InStep ∧ final.size ≤ CommitStore.capacity ∧
      final.Extends store ∧ (∀ own ∈ final.ids, own ∈ store.ids ∨ ∃ r ∈ reads, own = ⟨r.id, root⟩) ∧
      ∀ r ∈ reads, ∃ i, final.indexOf? ⟨r.id, root⟩ = some i := by
  induction visits generalizing store reads with
  | nil =>
    cases h
    exact ⟨rfl, inStep, room, .refl _, fun own hown => .inl hown, by simp⟩
  | cons visit rest ih =>
    obtain ⟨read, hread, h⟩ := bind_eq_ok.1 h
    obtain ⟨⟨i, middle⟩, hregister, h⟩ := bind_eq_ok.1 h
    obtain ⟨⟨reads', final'⟩, hrest, h⟩ := bind_eq_ok.1 h
    cases h
    obtain rfl := mapError_eq_ok.1 hread
    obtain ⟨inStepM, roomM, extendsM, idsM, knownM⟩ :=
      CommitStore.register_spec inStep room hregister
    obtain ⟨rfl, inStepF, roomF, extendsF, idsF, knownF⟩ := ih inStepM roomM hrest
    refine ⟨rfl, inStepF, roomF, extendsF.trans extendsM, fun own hown => ?_, fun r hr => ?_⟩
    · rcases idsF own hown with hown | ⟨r, hr, rfl⟩
      · rcases idsM own hown with hown | rfl
        · exact .inl hown
        · exact .inr ⟨read, List.mem_cons_self, rfl⟩
      · exact .inr ⟨r, List.mem_cons_of_mem _ hr, rfl⟩
    · rcases List.mem_cons.1 hr with rfl | hr
      · exact ⟨i, extendsF.indexOf? inStepM inStepF knownM⟩
      · exact knownF r hr

/-- A walk without faults visits the commits that a readable repository holds. -/
theorem reads_of_history {tips : List (BranchName × ObjectId)} {reads : List ReadCommit}
    (htips : repository.tips disk none = .ok tips)
    (h : (repository.reader disk).history (tips.map (·.2)) = reads.map .ok) :
    repository.Readable disk ∧
      ∀ id commit, ⟨id, commit⟩ ∈ reads ↔ repository.Holds disk id commit := by
  have tip (id : ObjectId) : (∃ t ∈ tips.map (·.2), (repository.reader disk).Leads t id) ↔
      ∃ t ∈ tips, (repository.reader disk).Leads t.2 id := by
    simp only [List.mem_map, exists_exists_and_eq_and]
  refine ⟨⟨tips, htips, fun id leads => ?_⟩, fun id commit => ?_⟩
  · cases read : (repository.reader disk).commit id with
    | ok commit => exact ⟨commit, rfl⟩
    | error cause =>
      have reported := ((repository.reader disk).error_mem_history (tips.map (·.2))).2
        ⟨id, (tip id).2 leads, cause, read, rfl⟩
      rw [h] at reported
      obtain ⟨_, -, differ⟩ := List.mem_map.1 reported
      cases differ
  · have visited : .ok ⟨id, commit⟩ ∈ (repository.reader disk).history (tips.map (·.2)) ↔ _ :=
      ObjectReader.ok_mem_history (repository.reader disk) (tips.map (·.2))
    rw [h, tip] at visited
    have : (.ok ⟨id, commit⟩ : Except Fault ReadCommit) ∈ reads.map .ok ↔ ⟨id, commit⟩ ∈ reads := by
      simp
    rw [← this, visited, Repository.Holds]
    refine and_congr_right fun _ => ⟨fun leads => ⟨tips, htips, leads⟩, ?_⟩
    rintro ⟨tips', htips', leads⟩
    obtain rfl := Except.ok.inj (htips.symm.trans htips')
    exact leads

/-! ## Details -/

theorem details_eq_ok {reader : ObjectReader} {isIndexed : Bool} {metadata m : Metadata}
    {commit : Commit} : details reader isIndexed metadata commit = .ok m ↔
      m = { metadata with changedPaths := m.changedPaths } ∧
        if isIndexed then ∃ paths, reader.changesOf commit .everything = .ok paths ∧
          m.changedPaths = some paths else m.changedPaths = metadata.changedPaths := by
  unfold details
  split
  · rw [map_eq_ok]
    constructor
    · rintro ⟨paths, run, rfl⟩
      exact ⟨rfl, paths, run, rfl⟩
    · rintro ⟨same, paths, run, changed⟩
      refine ⟨paths, run, ?_⟩
      rw [same, changed]
      rfl
  · constructor
    · intro h
      cases h
      exact ⟨rfl, rfl⟩
    · rintro ⟨same, changed⟩
      rw [same, changed]

/-- The details of the commits of a repository. -/
theorem mem_metadata {store : CommitStore} {reads : List ReadCommit} {ms : List Metadata}
    (known : ∀ r ∈ reads, ∃ i, store.indexOf? ⟨r.id, repository.root⟩ = some i)
    (holds : ∀ id commit, ⟨id, commit⟩ ∈ reads ↔ repository.Holds disk id commit)
    (h : reads.filterMapM (fun read => (store.metadata? repository.root read).mapM fun metadata =>
      details (repository.reader disk) (indexed.contains repository.root) metadata read.commit) =
        .ok ms) : (∀ m, m ∈ ms ↔ repository.IsDetails disk store indexed m) ∧
      ∀ id commit, repository.Holds disk id commit → ∃ m ∈ ms, m.hash = id := by
  obtain ⟨os, each, rfl⟩ := filterMapM_eq_ok.1 h
  -- what the step gives for a commit with a number
  have step (r : ReadCommit) (i : CommitIndex)
      (hi : store.indexOf? ⟨r.id, repository.root⟩ = some i) (o : Option Metadata) :
      ((store.metadata? repository.root r).mapM fun metadata =>
        details (repository.reader disk) (indexed.contains repository.root) metadata r.commit) =
          .ok o ↔ ∃ m, o = some m ∧ details (repository.reader disk)
            (indexed.contains repository.root) (.ofCommit i ⟨r.id, repository.root⟩
              (store.parentsOf repository.root r.commit) r.commit) r.commit = .ok m := by
    simp only [CommitStore.metadata?, hi, Option.map_some, Option.mapM_some]
    refine map_eq_ok.trans (exists_congr fun m => ?_)
    rw [and_comm, eq_comm]
  simp only [List.mem_filterMap, id]
  refine ⟨fun m => ⟨?_, ?_⟩, fun own commit hholds => ?_⟩
  · rintro ⟨_, ho, rfl⟩
    obtain ⟨⟨id, commit⟩, hr, run⟩ := exists_of_mem_right each ho
    obtain ⟨i, hi⟩ := known _ hr
    obtain ⟨m', same, hm⟩ := (step _ i hi _).1 run
    obtain rfl := Option.some.inj same
    have same := (details_eq_ok.1 hm).1
    have hhash : m.hash = id := by rw [same]; rfl
    have hindex : m.index = i := by rw [same]; rfl
    subst hhash hindex
    exact ⟨commit, (holds _ commit).1 hr, hi, hm⟩
  · rintro ⟨commit, hholds, hi, hm⟩
    obtain ⟨o, ho, run⟩ := exists_of_mem_left each ((holds _ _).2 hholds)
    obtain ⟨m', rfl, hm'⟩ := (step _ _ hi _).1 run
    exact ⟨some m', ho, congrArg some (Except.ok.inj (hm'.symm.trans hm))⟩
  · have hr := (holds own commit).2 hholds
    obtain ⟨o, ho, run⟩ := exists_of_mem_left each hr
    obtain ⟨i, hi⟩ := known _ hr
    obtain ⟨m, rfl, hm⟩ := (step _ i hi _).1 run
    exact ⟨m, ⟨some m, ho, rfl⟩, by rw [(details_eq_ok.1 hm).1]; rfl⟩

/-- No commit has its details twice. -/
theorem map_hash_metadata {store : CommitStore} {reads : List ReadCommit} {ms : List Metadata}
    (h : reads.filterMapM (fun read => (store.metadata? repository.root read).mapM fun metadata =>
      details (repository.reader disk) (indexed.contains repository.root) metadata read.commit) =
        .ok ms) : (ms.map (·.hash)).Sublist (reads.map (·.id)) := by
  obtain ⟨os, each, rfl⟩ := filterMapM_eq_ok.1 h
  clear h
  induction each with
  | nil => exact .slnil
  | @cons read o reads os step _ ih =>
    cases number : store.indexOf? ⟨read.id, repository.root⟩ with
    | none =>
      simp only [CommitStore.metadata?, number, Option.map_none, Option.mapM_none] at step
      obtain rfl := Except.ok.inj step
      exact ih.cons _
    | some i =>
      simp only [CommitStore.metadata?, number, Option.map_some, Option.mapM_some] at step
      obtain ⟨m, run, rfl⟩ := map_eq_ok.1 step
      have hash : m.hash = read.id := by
        rw [(details_eq_ok.1 run).1]
        rfl
      show ((m :: os.filterMap id).map (·.hash)).Sublist _
      rw [List.map_cons, List.map_cons, hash]
      exact ih.cons_cons _

/-! ## One more repository -/

/-- What reading a repository adds. -/
structure Adds (disk : Disk) (indexed : List Path) (repository : Repository)
    (loaded next : LoadedRoots) (ms : List Metadata) : Prop where
  readable : repository.Readable disk
  inStep : next.store.InStep
  room : next.store.size ≤ CommitStore.capacity
  grows : next.store.Extends loaded.store
  ids : ∀ own ∈ next.store.ids, own ∈ loaded.store.ids ∨
    own.root = repository.root ∧ ∃ commit, repository.Holds disk own.hash commit
  known : ∀ id commit, repository.Holds disk id commit →
    ∃ i, next.store.indexOf? ⟨id, repository.root⟩ = some i
  details : ∀ m, m ∈ ms ↔ repository.IsDetails disk next.store indexed m
  detailed : ∀ id commit, repository.Holds disk id commit → ∃ m ∈ ms, m.hash = id
  differ : (ms.map (·.hash)).Nodup
  metadata : next.metadata = loaded.metadata ++ ms
  commits : next.commits = loaded.commits ++ ms.map fun m => ⟨m.index, m.parents, m.committedAt⟩
  heads : ∃ tips, repository.tips disk none = .ok tips ∧
    next.heads = loaded.heads ++ tips.filterMap fun (name, id) =>
      (next.store.indexOf? ⟨id, repository.root⟩).map fun index => ⟨name, index, repository.root⟩
  index : next.index = if indexed.contains repository.root
    then loaded.index.indexRoot repository.root ms else loaded.index

theorem add_spec {loaded next : LoadedRoots} (inStep : loaded.store.InStep)
    (room : loaded.store.size ≤ CommitStore.capacity)
    (h : add disk indexed loaded repository = .ok next) :
    ∃ ms, Adds disk indexed repository loaded next ms := by
  obtain ⟨tips, htips, h⟩ := bind_eq_ok.1 h
  obtain ⟨⟨reads, store⟩, hnumber, h⟩ := bind_eq_ok.1 h
  obtain ⟨ms, hms, h⟩ := bind_eq_ok.1 h
  cases h
  obtain ⟨hhistory, inStep', room', grows, ids, known⟩ := number_spec inStep room hnumber
  obtain ⟨readable, holds⟩ := reads_of_history htips hhistory
  refine ⟨ms, readable, inStep', room', grows, fun own hown => ?_, fun id commit hholds => ?_,
    (mem_metadata known holds hms).1, (mem_metadata known holds hms).2, ?_, rfl, rfl,
    ⟨tips, htips, rfl⟩, rfl⟩
  · refine (ids own hown).imp_right ?_
    rintro ⟨r, hr, rfl⟩
    exact ⟨rfl, r.commit, (holds r.id r.commit).1 hr⟩
  · exact known _ ((holds id commit).2 hholds)
  · have nodup := (repository.reader disk).nodup_history (tips.map (·.2))
    rw [hhistory, readsOf_map_ok] at nodup
    exact (map_hash_metadata hms).nodup nodup

/-! ## All repositories -/

/-- What has been read of some repositories. -/
structure Covers (disk : Disk) (indexed : List Path) (done : List Repository)
    (loaded : LoadedRoots) : Prop where
  inStep : loaded.store.InStep
  room : loaded.store.size ≤ CommitStore.capacity
  readable : ∀ r ∈ done, r.Readable disk
  ids : ∀ own ∈ loaded.store.ids, ∃ r ∈ done,
    own.root = r.root ∧ ∃ commit, r.Holds disk own.hash commit
  known : ∀ r ∈ done, ∀ id commit, r.Holds disk id commit →
    ∃ i, loaded.store.indexOf? ⟨id, r.root⟩ = some i
  metadata : ∀ m, m ∈ loaded.metadata ↔ ∃ r ∈ done, r.IsDetails disk loaded.store indexed m
  detailed : ∀ r ∈ done, ∀ id commit, r.Holds disk id commit →
    ∃ m, m.hash = id ∧ r.IsDetails disk loaded.store indexed m
  numbered : done.Pairwise (fun a b => ¬ (a.root == b.root) = true) →
    (loaded.metadata.map (·.index)).Nodup
  commits : loaded.commits =
    loaded.metadata.map fun m => ⟨m.index, m.parents, m.committedAt⟩
  heads : ∀ head, head ∈ loaded.heads ↔ ∃ r ∈ done, ∃ tips, r.tips disk none = .ok tips ∧
    ∃ id, (head.name, id) ∈ tips ∧ loaded.store.indexOf? ⟨id, r.root⟩ = some head.commit ∧
      head.root = r.root
  answers : ∀ r ∈ done, indexed.contains r.root = true →
    ∃ r' ∈ done, (r'.root == r.root) = true ∧ ∃ ms, loaded.index.commits.get? r.root = some ms ∧
      ∀ m, m ∈ ms ↔ r'.IsDetails disk loaded.store indexed m
  asked : ∀ root ms, loaded.index.commits.get? root = some ms →
    ∃ r ∈ done, (r.root == root) = true ∧ indexed.contains r.root = true
  supported : loaded.index.supported = DetailKind.all

/-- What a commit that a readable repository holds leads to is held, too. -/
theorem holds_of_leads (readable : repository.Readable disk) {id other : ObjectId} {commit : Commit}
    (holds : repository.Holds disk id commit) (h : (repository.reader disk).Leads id other) :
    ∃ c, repository.Holds disk other c := by
  obtain ⟨read, tips, htips, tip, htip, leads⟩ := holds
  obtain ⟨tips', htips', all⟩ := readable
  obtain rfl := Except.ok.inj (htips.symm.trans htips')
  obtain ⟨c, hc⟩ := all other ⟨tip, htip, leads.trans h⟩
  exact ⟨c, hc, tips, htips, tip, htip, leads.trans h⟩

theorem holds_parent (readable : repository.Readable disk) {id parent : ObjectId} {commit : Commit}
    (holds : repository.Holds disk id commit) (h : parent ∈ commit.parents) :
    ∃ c, repository.Holds disk parent c :=
  holds_of_leads readable holds (.single ⟨commit, holds.1, h⟩)

/-- The commits that the branches and the head of a readable repository point to are held. -/
theorem holds_tip (readable : repository.Readable disk) {tips : List (BranchName × ObjectId)}
    (htips : repository.tips disk none = .ok tips) {tip : BranchName × ObjectId} (h : tip ∈ tips) :
    ∃ c, repository.Holds disk tip.2 c := by
  obtain ⟨tips', htips', all⟩ := readable
  obtain rfl := Except.ok.inj (htips.symm.trans htips')
  obtain ⟨c, hc⟩ := all tip.2 ⟨tip, h, .refl⟩
  exact ⟨c, hc, tips, htips, tip, h, .refl⟩

/-- A repository holds nothing but some commits when its branches and its head point to these and
their parents are among them. -/
theorem readable_of_closed {commits : List (ObjectId × Commit)}
    {tips : List (BranchName × ObjectId)} (htips : repository.tips disk none = .ok tips)
    (reads : ∀ c ∈ commits, (repository.reader disk).commit c.1 = .ok c.2)
    (start : ∀ tip ∈ tips, ∃ c ∈ commits, c.1 = tip.2)
    (closed : ∀ c ∈ commits, ∀ parent ∈ c.2.parents, ∃ p ∈ commits, p.1 = parent) :
    repository.Readable disk ∧ ∀ id commit, repository.Holds disk id commit →
      (id, commit) ∈ commits := by
  have among (tip id : ObjectId) (h : (repository.reader disk).Leads tip id)
      (first : ∃ c ∈ commits, c.1 = tip) : ∃ c ∈ commits, c.1 = id := by
    induction h with
    | refl => exact first
    | tail _ parent ih =>
      obtain ⟨c, mem, rfl⟩ := ih
      obtain ⟨commit, read, hparent⟩ := parent
      obtain rfl := Except.ok.inj ((reads c mem).symm.trans read)
      exact closed c mem _ hparent
  refine ⟨⟨tips, htips, ?_⟩, ?_⟩
  · rintro id ⟨tip, htip, leads⟩
    obtain ⟨c, mem, rfl⟩ := among tip.2 id leads (start tip htip)
    exact ⟨c.2, reads c mem⟩
  · rintro id commit ⟨read, tips', htips', tip, htip, leads⟩
    obtain rfl := Except.ok.inj (htips.symm.trans htips')
    obtain ⟨c, mem, rfl⟩ := among tip.2 id leads (start tip htip)
    obtain rfl := Except.ok.inj ((reads c mem).symm.trans read)
    exact mem

/-- Numbers that are given later do not change the details of commits that have theirs. -/
theorem isDetails_extends {store later : CommitStore} (readable : repository.Readable disk)
    (same : ∀ id commit, repository.Holds disk id commit →
      later.indexOf? ⟨id, repository.root⟩ = store.indexOf? ⟨id, repository.root⟩) (m : Metadata) :
    repository.IsDetails disk store indexed m ↔ repository.IsDetails disk later indexed m := by
  refine exists_congr fun commit => and_congr_right fun holds => ?_
  have parents : later.parentsOf repository.root commit =
      store.parentsOf repository.root commit := by
    refine List.filterMap_congr fun p hp => ?_
    obtain ⟨c, hc⟩ := holds_parent readable holds hp
    exact same p c hc
  rw [same _ _ holds, parents]

theorem covers_empty (disk : Disk) (indexed : List Path) : Covers disk indexed [] empty := by
  refine ⟨CommitStore.inStep_empty, Nat.zero_le _, ?_, ?_, ?_, ?_, ?_, fun _ => .nil, rfl, ?_, ?_,
    ?_, rfl⟩
  all_goals simp [empty, CommitStore.empty, MetadataIndex.empty, PathTable.empty, PathTable.get?]

/-- Reading one more repository keeps the numbers of what has been read. -/
theorem Covers.indexOf?_add {done : List Repository} {loaded next : LoadedRoots}
    {ms : List Metadata} (covers : Covers disk indexed done loaded)
    (adds : Adds disk indexed repository loaded next ms) {r : Repository} (hr : r ∈ done)
    {id : ObjectId} {commit : Commit} (holds : r.Holds disk id commit) :
    next.store.indexOf? ⟨id, r.root⟩ = loaded.store.indexOf? ⟨id, r.root⟩ := by
  obtain ⟨i, hi⟩ := covers.known r hr id commit holds
  rw [hi, adds.grows.indexOf? covers.inStep adds.inStep hi]

/-- The branches and heads after one more repository. -/
theorem Covers.mem_heads_add {done : List Repository} {loaded next : LoadedRoots}
    {ms : List Metadata} (covers : Covers disk indexed done loaded)
    (adds : Adds disk indexed repository loaded next ms) (head : NamedHead) :
    head ∈ next.heads ↔ ∃ r ∈ done ++ [repository], ∃ tips, r.tips disk none = .ok tips ∧
      ∃ id, (head.name, id) ∈ tips ∧ next.store.indexOf? ⟨id, r.root⟩ = some head.commit ∧
        head.root = r.root := by
  obtain ⟨tips, htips, heads⟩ := adds.heads
  simp only [heads, List.mem_append, covers.heads, List.mem_singleton, or_and_right, exists_or,
    exists_eq_left]
  refine or_congr ?_ ?_
  · refine exists_congr fun r => and_congr_right fun hr => exists_congr fun tips' =>
      and_congr_right fun htips' => exists_congr fun id => and_congr_right fun mem => ?_
    obtain ⟨c, holds⟩ := holds_tip (covers.readable r hr) htips' mem
    rw [covers.indexOf?_add adds hr holds]
  · rw [List.mem_filterMap]
    constructor
    · rintro ⟨⟨name, id⟩, mem, h⟩
      obtain ⟨i, hi, rfl⟩ := Option.map_eq_some_iff.1 h
      exact ⟨tips, htips, id, mem, hi, rfl⟩
    · rintro ⟨tips', htips', id, mem, hi, hroot⟩
      obtain rfl := Except.ok.inj (htips.symm.trans htips')
      refine ⟨_, mem, Option.map_eq_some_iff.2 ⟨head.commit, hi, ?_⟩⟩
      rw [← hroot]

/-- The lists of the index after one more repository. -/
theorem Covers.answers_add {done : List Repository} {loaded next : LoadedRoots}
    {ms : List Metadata} (covers : Covers disk indexed done loaded)
    (adds : Adds disk indexed repository loaded next ms) {r : Repository}
    (hr : r ∈ done ++ [repository]) (asked : indexed.contains r.root = true) :
    ∃ r' ∈ done ++ [repository], (r'.root == r.root) = true ∧
      ∃ ms, next.index.commits.get? r.root = some ms ∧
        ∀ m, m ∈ ms ↔ r'.IsDetails disk next.store indexed m := by
  by_cases same : (repository.root == r.root) = true
  · refine ⟨repository, by simp, same, ms, ?_, adds.details⟩
    rw [adds.index, if_pos (by rwa [List.contains_congr same]), MetadataIndex.indexRoot,
      PathTable.get?_insert, if_pos same]
  · have hr : r ∈ done := by
      rcases List.mem_append.1 hr with hr | hr
      · exact hr
      · exact absurd (List.mem_singleton.1 hr ▸ BEq.rfl) same
    obtain ⟨r', hr', sameRoot, list, found, hlist⟩ := covers.answers r hr asked
    refine ⟨r', List.mem_append_left _ hr', sameRoot, list, ?_, fun m => ?_⟩
    · rw [adds.index]
      split
      · rw [MetadataIndex.indexRoot, PathTable.get?_insert, if_neg same, found]
      · exact found
    · rw [hlist, isDetails_extends (covers.readable r' hr') fun id commit holds =>
        covers.indexOf?_add adds hr' holds]

/-- The details of one more repository have numbers of their own. -/
theorem Covers.numbered_add {done : List Repository} {loaded next : LoadedRoots}
    {ms : List Metadata} (covers : Covers disk indexed done loaded)
    (adds : Adds disk indexed repository loaded next ms)
    (apart : (done ++ [repository]).Pairwise (fun a b => ¬ (a.root == b.root) = true)) :
    (next.metadata.map (·.index)).Nodup := by
  obtain ⟨before, -, others⟩ := List.pairwise_append.1 apart
  -- details with one number are of one commit, which is that of their hash and root
  have same {r r' : Repository} {m m' : Metadata}
      (details : r.IsDetails disk next.store indexed m)
      (details' : r'.IsDetails disk next.store indexed m') (h : m.index = m'.index) :
      m.hash = m'.hash ∧ (r.root == r'.root) = true := by
    obtain ⟨commit, -, number, -⟩ := details
    obtain ⟨commit', -, number', -⟩ := details'
    rw [← h] at number'
    exact CommitId.beq_iff.1 (adds.inStep.beq_of_indexOf? number number')
  rw [adds.metadata, List.map_append, List.nodup_append]
  refine ⟨covers.numbered before, ?_, ?_⟩
  · refine List.Nodup.map_on ?_ (.of_map _ adds.differ)
    intro m hm m' hm' h
    have hash := (same ((adds.details m).1 hm) ((adds.details m').1 hm') h).1
    exact List.inj_on_of_nodup_map adds.differ hm hm' hash
  · rintro i hi j hj rfl
    obtain ⟨m, hm, rfl⟩ := List.mem_map.1 hi
    obtain ⟨m', hm', h⟩ := List.mem_map.1 hj
    obtain ⟨r, hr, details⟩ := (covers.metadata m).1 hm
    have details := (isDetails_extends (covers.readable r hr)
      (fun _ _ holds => covers.indexOf?_add adds hr holds) m).1 details
    have root := (same details ((adds.details m').1 hm') h.symm).2
    exact others r hr repository (List.mem_singleton_self _) root

theorem Covers.add {done : List Repository} {loaded next : LoadedRoots}
    (covers : Covers disk indexed done loaded)
    (h : LoadedRoots.add disk indexed loaded repository = .ok next) :
    Covers disk indexed (done ++ [repository]) next := by
  obtain ⟨ms, adds⟩ := add_spec covers.inStep covers.room h
  have stable (r : Repository) (hr : r ∈ done) (m : Metadata) :
      r.IsDetails disk loaded.store indexed m ↔ r.IsDetails disk next.store indexed m :=
    isDetails_extends (covers.readable r hr) (fun _ _ holds => covers.indexOf?_add adds hr holds) m
  refine ⟨adds.inStep, adds.room, ?_, ?_, ?_, ?_, ?_, covers.numbered_add adds, ?_,
    covers.mem_heads_add adds,
    fun r hr => covers.answers_add adds hr, ?_, ?_⟩
  · intro r hr
    rcases List.mem_append.1 hr with hr | hr
    · exact covers.readable r hr
    · exact List.mem_singleton.1 hr ▸ adds.readable
  · intro own hown
    rcases adds.ids own hown with hown | ⟨hroot, holds⟩
    · obtain ⟨r, hr, h⟩ := covers.ids own hown
      exact ⟨r, List.mem_append_left _ hr, h⟩
    · exact ⟨repository, by simp, hroot, holds⟩
  · intro r hr id commit holds
    rcases List.mem_append.1 hr with hr | hr
    · obtain ⟨i, hi⟩ := covers.known r hr id commit holds
      exact ⟨i, adds.grows.indexOf? covers.inStep adds.inStep hi⟩
    · obtain rfl := List.mem_singleton.1 hr
      exact adds.known id commit holds
  · intro m
    rw [adds.metadata, List.mem_append, covers.metadata, adds.details]
    simp only [List.mem_append, List.mem_singleton, or_and_right, exists_or, exists_eq_left]
    refine or_congr_left (exists_congr fun r => and_congr_right fun hr => stable r hr m)
  · intro r hr id commit holds
    rcases List.mem_append.1 hr with hr | hr
    · obtain ⟨m, hm, details⟩ := covers.detailed r hr id commit holds
      exact ⟨m, hm, (stable r hr m).1 details⟩
    · obtain rfl := List.mem_singleton.1 hr
      obtain ⟨m, mem, hm⟩ := adds.detailed id commit holds
      exact ⟨m, hm, (adds.details m).1 mem⟩
  · rw [adds.commits, adds.metadata, covers.commits, List.map_append]
  · intro root list found
    have before (h : loaded.index.commits.get? root = some list) :
        ∃ r ∈ done ++ [repository], (r.root == root) = true ∧ indexed.contains r.root = true := by
      obtain ⟨r, hr, same⟩ := covers.asked root list h
      exact ⟨r, List.mem_append_left _ hr, same⟩
    rw [adds.index] at found
    split at found
    · next asked =>
      rw [MetadataIndex.indexRoot, PathTable.get?_insert] at found
      split at found
      · next same => exact ⟨repository, by simp, same, asked⟩
      · exact before found
    · exact before found
  · rw [adds.index]
    split
    · next asked =>
      rw [MetadataIndex.indexRoot, if_neg, covers.supported]
      rw [List.any_eq_true]
      rintro ⟨m, hm, unknown⟩
      obtain ⟨commit, -, -, run⟩ := (adds.details m).1 hm
      obtain ⟨-, h⟩ := details_eq_ok.1 run
      rw [if_pos asked] at h
      obtain ⟨paths, -, changed⟩ := h
      rw [changed] at unknown
      cases unknown
    · exact covers.supported

/-- What has been read when all repositories have been. -/
theorem covers_foldlM {repositories : List Repository} {loaded : LoadedRoots}
    (h : repositories.foldlM (add disk indexed) .empty = .ok loaded) :
    Covers disk indexed repositories loaded :=
  foldlM_induction (Covers disk indexed) h (covers_empty disk indexed)
    fun _ _ _ _ covers _ run => covers.add run

end LoadedRoots

end CommitLog
