import CommitLog.Proofs.Repository.Places
import CommitLog.Proofs.Session.Links
import CommitLog.Proofs.Text.Utf8

/-!
# When a session can be opened

A session opens when its repositories do, when all of their histories can be read, and when there
are numbers for all commits (`Session.exists_openAt`).
-/

namespace CommitLog

/-- Some repositories hold no more than so many commits together. -/
def HoldAtMost (disk : Disk) (repositories : List Repository) (count : Nat) : Prop :=
  ∀ store : CommitStore, store.Distinct → (∀ own ∈ store.ids, ∃ r ∈ repositories,
    own.root = r.root ∧ ∃ commit, r.Holds disk own.hash commit) → store.size ≤ count

/-- Commits that are among some list are no more than its length. -/
theorem holdAtMost_of_subset {disk : Disk} {repositories : List Repository} {ids : List CommitId}
    (sub : ∀ r ∈ repositories, ∀ id commit, r.Holds disk id commit → ⟨id, r.root⟩ ∈ ids) :
    HoldAtMost disk repositories ids.length := by
  intro store distinct held
  have nodup : store.ids.toList.Nodup := by
    refine List.Pairwise.imp ?_ distinct
    rintro a b differ rfl
    exact differ BEq.rfl
  have among : store.ids.toList ⊆ ids := by
    intro own mem
    obtain ⟨r, hr, root, commit, holds⟩ := held own (Array.mem_toList_iff.1 mem)
    have found := sub r hr _ commit holds
    rwa [← root] at found
  exact (List.subperm_of_subset nodup among).length_le

namespace LoadedRoots

variable {disk : Disk} {indexed : List Path} {repository : Repository}

/-- Commits can be numbered when there is room for them together with those before. -/
theorem exists_number {root : Path} {store : CommitStore} {reads : List ReadCommit}
    (inStep : store.InStep) (fits : store.size ≤ CommitStore.capacity)
    (room : ∀ final : CommitStore, final.Distinct →
      (∀ own ∈ final.ids, own ∈ store.ids ∨ ∃ r ∈ reads, own = ⟨r.id, root⟩) →
      final.size ≤ CommitStore.capacity) :
    ∃ final, number root store (reads.map .ok) = .ok (reads, final) := by
  induction reads generalizing store with
  | nil => exact ⟨store, rfl⟩
  | cons read reads ih =>
    have left (absent : store.indexOf? ⟨read.id, root⟩ = none) :
        store.size < CommitStore.capacity := by
      -- the store with the new commit has to have room
      have larger := room _ (inStep.insert ⟨read.id, root⟩).distinct ?_
      · rw [CommitStore.insert_of_indexOf?_eq_none absent, CommitStore.size, Array.size_push]
          at larger
        exact larger
      · rw [CommitStore.insert_of_indexOf?_eq_none absent]
        intro own hown
        rcases Array.mem_push.1 hown with hown | rfl
        · exact .inl hown
        · exact .inr ⟨read, List.mem_cons_self, rfl⟩
    obtain ⟨i, middle, hregister⟩ := CommitStore.exists_register left
    obtain ⟨inStepM, fitsM, -, idsM, -⟩ := CommitStore.register_spec inStep fits hregister
    obtain ⟨final, hfinal⟩ := ih inStepM fitsM fun final distinctF idsF => by
      refine room final distinctF fun own hown => ?_
      rcases idsF own hown with hown | ⟨r, hr, same⟩
      · rcases idsM own hown with hown | same
        · exact .inl hown
        · exact .inr ⟨read, List.mem_cons_self, same⟩
      · exact .inr ⟨r, List.mem_cons_of_mem _ hr, same⟩
    refine ⟨final, ?_⟩
    unfold number
    exact bind_eq_ok.2 ⟨read, rfl, bind_eq_ok.2 ⟨(i, middle), hregister,
      bind_eq_ok.2 ⟨(reads, final), hfinal, rfl⟩⟩⟩

/-- The history of a readable repository is walked without faults. -/
theorem exists_history (readable : repository.Readable disk) :
    ∃ (tips : List (BranchName × ObjectId)) (reads : List ReadCommit),
      repository.tips disk none = .ok tips ∧
        (repository.reader disk).history (tips.map (·.2)) = reads.map .ok := by
  obtain ⟨tips, htips, reads⟩ := readable
  have visited : ∀ visit ∈ (repository.reader disk).history (tips.map (·.2)),
      ∃ read, visit = .ok read := by
    intro visit mem
    cases visit with
    | ok read => exact ⟨read, rfl⟩
    | error fault =>
      obtain ⟨id, ⟨t, ht, leads⟩, cause, failed, -⟩ :=
        ((repository.reader disk).error_mem_history _).1 mem
      obtain ⟨tip, htip, rfl⟩ := List.mem_map.1 ht
      obtain ⟨commit, read⟩ := reads id ⟨tip, htip, leads⟩
      rw [read] at failed
      cases failed
  exact ⟨tips, _, htips, (map_ok_readsOf visited).symm⟩

/-- One more repository can be read. -/
theorem exists_add {done : List Repository} {loaded : LoadedRoots}
    (covers : Covers disk indexed done loaded) (readable : repository.Readable disk)
    (changes : indexed.contains repository.root = true → ∀ id commit,
      repository.Holds disk id commit →
      ∃ paths, (repository.reader disk).changesOf commit .everything = .ok paths)
    (room : HoldAtMost disk (done ++ [repository]) CommitStore.capacity) :
    ∃ next, add disk indexed loaded repository = .ok next := by
  obtain ⟨tips, reads, htips, hhistory⟩ := exists_history readable
  obtain ⟨-, holds⟩ := reads_of_history htips hhistory
  obtain ⟨store, hstore⟩ := @exists_number repository.root _ reads covers.inStep covers.room
    fun final distinct ids => by
      refine room final distinct fun own hown => ?_
      rcases ids own hown with hown | ⟨r, hr, rfl⟩
      · obtain ⟨r, hr, held⟩ := covers.ids own hown
        exact ⟨r, List.mem_append_left _ hr, held⟩
      · exact ⟨repository, by simp, rfl, r.commit, (holds r.id r.commit).1 hr⟩
  have each : ∀ read ∈ reads, ∃ o, ((store.metadata? repository.root read).mapM fun metadata =>
      details (repository.reader disk) (indexed.contains repository.root) metadata read.commit) =
        .ok o := by
    intro read mem
    cases store.metadata? repository.root read with
    | none => exact ⟨none, rfl⟩
    | some metadata =>
      unfold details
      by_cases asked : indexed.contains repository.root = true
      · obtain ⟨paths, hpaths⟩ := changes asked read.id read.commit ((holds _ _).1 mem)
        refine ⟨_, map_eq_ok.2 ⟨metadata.withChangedPaths paths, ?_, rfl⟩⟩
        dsimp only
        rw [if_pos asked, hpaths]
        rfl
      · exact ⟨_, map_eq_ok.2 ⟨metadata, if_neg asked, rfl⟩⟩
  obtain ⟨ms, hms⟩ := exists_filterMapM each
  refine ⟨_, bind_eq_ok.2 ⟨tips, htips, bind_eq_ok.2 ⟨(reads, store), ?_,
    bind_eq_ok.2 ⟨ms, hms, rfl⟩⟩⟩⟩
  rw [hhistory]
  exact hstore

end LoadedRoots

namespace Session

variable {disk : Disk} {indexed : List Path} {paths : List Path} {settings : SessionSettings}
  {opened : List Repository}

/-- **A session opens when its repositories do, all that they lead to can be read, and there are
numbers for all commits.** -/
theorem exists_openAt (hindexed : settings.indexedRoots.mapM disk.canonical = .ok indexed)
    (hopened : paths.mapM (fun path => Repository.openAt path disk) = .ok opened) (ne : opened ≠ [])
    (readable : ∀ r ∈ opened, r.Readable disk)
    (changes : ∀ r ∈ opened, indexed.contains r.root = true → ∀ id commit, r.Holds disk id commit →
      ∃ paths, (r.reader disk).changesOf commit .everything = .ok paths)
    (room : HoldAtMost disk opened CommitStore.capacity) :
    ∃ session, openAt paths settings disk = .ok session := by
  have run : settings.indexedRoots.mapM (fun path => (disk.canonical path).mapError fun fault =>
      Fault.indexedRootMissing path (.disk fault)) = .ok indexed := by
    refine mapM_eq_ok.2 ?_
    exact (mapM_eq_ok.1 hindexed).imp fun path root => mapError_eq_ok.2
  have sub : ∀ r ∈ (tableOf opened).entries.map (·.2), r ∈ opened := by
    intro r mem
    obtain ⟨entry, hentry, rfl⟩ := List.mem_map.1 mem
    exact ((tableOf_spec opened).2 entry hentry).2
  have step : ∀ done r loaded, LoadedRoots.Covers disk indexed done loaded →
      (∀ d ∈ done, d ∈ (tableOf opened).entries.map (·.2)) →
      r ∈ (tableOf opened).entries.map (·.2) → ∃ next,
        LoadedRoots.add disk indexed loaded r = .ok next ∧
          LoadedRoots.Covers disk indexed (done ++ [r]) next := by
    intro done r loaded covers known mem
    have within : ∀ d ∈ done ++ [r], d ∈ opened := by
      intro d hd
      rcases List.mem_append.1 hd with hd | hd
      · exact sub d (known d hd)
      · exact List.mem_singleton.1 hd ▸ sub r mem
    have left : HoldAtMost disk (done ++ [r]) CommitStore.capacity := by
      intro store distinct ids
      refine room store distinct fun own hown => ?_
      obtain ⟨d, hd, held⟩ := ids own hown
      exact ⟨d, within d hd, held⟩
    obtain ⟨next, hnext⟩ := LoadedRoots.exists_add covers (readable r (sub r mem))
      (changes r (sub r mem)) left
    exact ⟨next, hnext, covers.add hnext⟩
  obtain ⟨loaded, hloaded⟩ := exists_foldlM (LoadedRoots.Covers disk indexed)
    (LoadedRoots.covers_empty disk indexed) step
  unfold openAt
  rw [run]
  dsimp only [bind, Except.bind]
  rw [hopened]
  dsimp only
  rw [if_neg (by simpa using ne)]
  dsimp only [pure, Except.pure]
  unfold tableOf at hloaded
  rw [hloaded]
  exact ⟨_, rfl⟩

end Session

/-! ## A repository with two commits

Ada commits twice, both times the empty tree; the head names the second commit, and there are no
branches. -/

namespace Sample

open Disk

def root : Place := ["work"]

def repository : Repository := ⟨pathOf root⟩

def treeId : ObjectId := ⟨[75, 130, 93, 198, 66, 203, 110, 185, 160, 96, 229, 75, 248, 214, 146, 136,
  251, 238, 73, 4], rfl⟩

def firstId : ObjectId := ⟨[226, 0, 172, 177, 54, 92, 171, 98, 6, 167, 172, 41, 79, 149, 210, 135,
  125, 39, 178, 158], rfl⟩

def secondId : ObjectId := ⟨[253, 52, 247, 184, 181, 230, 235, 233, 74, 126, 205, 142, 191, 110,
  180, 247, 251, 136, 7, 111], rfl⟩

def ada (time : Int) : Author := ⟨"Ada", "ada@example.com", time, 0⟩

def first : Commit := .byAuthor [] treeId (ada 1000) "First\n"

def second : Commit := .byAuthor [firstId] treeId (ada 2000) "Second\n"

/-- The commits from some time on. -/
def since (time : Int) : Filters := { Filters.none with date := some ⟨some (.ofSeconds time), none⟩ }

def commits : List (ObjectId × Commit) := [(secondId, second), (firstId, first)]

/-- The body of an object from its lines. -/
def body (lines : List String) : List UInt8 := lines.flatMap fun line => Utf8.ofString (line ++ "\n")

def firstObject : RawObject := ⟨.commit, body ["tree 4b825dc642cb6eb9a060e54bf8d69288fbee4904",
  "author Ada <ada@example.com> 1000 +0000", "committer Ada <ada@example.com> 1000 +0000", "",
  "First"]⟩

def secondObject : RawObject := ⟨.commit, body ["tree 4b825dc642cb6eb9a060e54bf8d69288fbee4904",
  "parent e200acb1365cab6206a7ac294f95d2877d27b29e", "author Ada <ada@example.com> 2000 +0000",
  "committer Ada <ada@example.com> 2000 +0000", "", "Second"]⟩

def objects : List (ObjectId × RawObject) :=
  [(treeId, ⟨.tree, []⟩), (firstId, firstObject), (secondId, secondObject)]

def nodes : List (Place × Node) :=
  [(root, .directory), (Repository.gitPlace root, .directory),
    (Repository.gitPlace root ++ [BranchName.headText], .file (Utf8.ofString secondId.text)),
    (Repository.gitPlace root ++ ["objects"], .directory)] ++
  objects.flatMap fun (id, object) => [((Repository.objectPlace root id).dropLast, .directory),
    (Repository.objectPlace root id, .file (Compression.compress object.serialize))]

def disk : Disk := .ofNodes nodes

/-! ### The files in any directory -/

/-- The same files in a directory of another name. -/
def nodesIn (name : String) : List (Place × Node) :=
  nodes.map fun (place, node) => (name :: place.tail, node)

def repositoryIn (name : String) : Repository := ⟨pathOf [name]⟩

section Nodes

variable {place : Place} {nodes : List (Place × Node)} (proper : ∀ entry ∈ nodes, entry.1 ≠ [])
  (distinct : (nodes.map (·.1)).Nodup) (rooted : (ofNodes nodes).Rooted) {id : ObjectId}

include proper distinct rooted

/-- Without branches the head, which names a commit, is the only tip. -/
theorem tips_ofNodes
    (isPlace : ∀ names ∈ [["packed-refs"], ["refs", "heads"], [BranchName.headText]],
      IsPlace (Repository.gitPlace place ++ names))
    (head : (Repository.gitPlace place ++ [BranchName.headText],
      .file (Utf8.ofString id.text)) ∈ nodes)
    (parsed : (RefTarget.parse id.text.toList).toOption = some (some (.object id)))
    (none : ∀ names ∈ [["packed-refs"], ["refs", "heads"]],
      Repository.gitPlace place ++ names ∉ nodes.map (·.1)) :
    (⟨pathOf place⟩ : Repository).tips (.ofNodes nodes) Option.none = .ok [(.head, id)] := by
  have absent (names : Place) (h : names ∈ [["packed-refs"], ["refs", "heads"]]) :
      (ofNodes nodes).node? (Repository.gitPlace place ++ names) = Option.none :=
    node?_of_not_mem proper (by simp [Repository.gitPlace]) (none names h)
  exact Repository.tips_of_head rooted isPlace (absent _ (by simp)) (absent _ (by simp))
    (node?_of_mem proper distinct head) (Utf8.decode_ofString _) (toOption_eq_some.1 parsed)

/-- An object that is stored can be read. -/
theorem read_ofNodes {object : RawObject} (isPlace : IsPlace (Repository.objectPlace place id))
    (stored : (Repository.objectPlace place id,
      .file (Compression.compress object.serialize)) ∈ nodes)
    (content : Compression.decompress? (Compression.compress object.serialize) =
      some object.serialize)
    (header : (parseHeader object.serialize).toOption =
      some (object.kind, object.body.length, object.body)) :
    (⟨pathOf place⟩ : Repository).objects.read (.ofNodes nodes) id = .ok object :=
  (Repository.read_eq_ok rooted isPlace).2 ⟨_, _, node?_of_mem proper distinct stored, content,
    Repository.openContent_of_header (toOption_eq_some.1 header)⟩

end Nodes

/-- What is stored can be uncompressed again. -/
theorem decompress?_objects : ∀ entry ∈ objects,
    Compression.decompress? (Compression.compress entry.2.serialize) = some entry.2.serialize ∧
      (parseHeader entry.2.serialize).toOption =
        some (entry.2.kind, entry.2.body.length, entry.2.body) := by
  decide +kernel

/-- A disk made of some nodes has the files of the repository in a directory. -/
structure HasFiles (name : String) (all : List (Place × Node)) : Prop where
  proper : ∀ entry ∈ all, entry.1 ≠ []
  distinct : (all.map (·.1)).Nodup
  above : ∀ entry ∈ all, entry.1.dropLast = [] ∨ (entry.1.dropLast, .directory) ∈ all
  files : ∀ entry ∈ nodesIn name, entry ∈ all
  objects : ∀ entry ∈ objects, IsPlace (Repository.objectPlace [name] entry.1)
  refs : ∀ names ∈ [["packed-refs"], ["refs", "heads"], [BranchName.headText]],
    IsPlace (Repository.gitPlace [name] ++ names)
  unbranched : ∀ names ∈ [["packed-refs"], ["refs", "heads"]],
    Repository.gitPlace [name] ++ names ∉ all.map (·.1)

namespace HasFiles

variable {name : String} {all : List (Place × Node)} (hasFiles : HasFiles name all) {id : ObjectId}
  {commit : Commit}

include hasFiles

theorem rooted : (ofNodes all).Rooted :=
  rooted_ofNodes hasFiles.proper hasFiles.distinct hasFiles.above

/-- What is stored can be read. -/
theorem read_objects {object : RawObject} (mem : (id, object) ∈ Sample.objects) :
    (repositoryIn name).objects.read (.ofNodes all) id = .ok object := by
  have stored : (Repository.objectPlace [name] id,
      .file (Compression.compress object.serialize)) ∈ all := by
    refine hasFiles.files _ (List.mem_map.2 ⟨(Repository.objectPlace root id, _), ?_, rfl⟩)
    refine List.mem_append_right _ (List.mem_flatMap.2 ⟨_, mem, ?_⟩)
    exact List.mem_cons_of_mem _ List.mem_cons_self
  obtain ⟨content, header⟩ := decompress?_objects _ mem
  exact read_ofNodes hasFiles.proper hasFiles.distinct hasFiles.rooted (hasFiles.objects _ mem)
    stored content header

theorem readCommit (mem : (id, commit) ∈ commits) :
    ((repositoryIn name).reader (.ofNodes all)).commit id = .ok commit := by
  rcases List.mem_cons.1 mem with same | mem
  · cases same
    have parsed : (Commit.parse secondObject.body).toOption = some second := by decide +kernel
    exact Repository.readCommit_of_read (hasFiles.read_objects (by simp [Sample.objects])) rfl
      (toOption_eq_some.1 parsed)
  · cases List.mem_singleton.1 mem
    have parsed : (Commit.parse firstObject.body).toOption = some first := by decide +kernel
    exact Repository.readCommit_of_read (hasFiles.read_objects (by simp [Sample.objects])) rfl
      (toOption_eq_some.1 parsed)

theorem readTree : ((repositoryIn name).reader (.ofNodes all)).tree treeId = .ok .empty :=
  Repository.readTree_of_read (hasFiles.read_objects List.mem_cons_self) rfl rfl

theorem tips : (repositoryIn name).tips (.ofNodes all) none = .ok [(.head, secondId)] := by
  refine tips_ofNodes hasFiles.proper hasFiles.distinct hasFiles.rooted hasFiles.refs ?_
    (by decide) hasFiles.unbranched
  refine hasFiles.files _ (List.mem_map.2
    ⟨(Repository.gitPlace root ++ [BranchName.headText], _), ?_, rfl⟩)
  simp [nodes]

/-- The repository can be read, and holds the two commits and nothing else. -/
theorem readable : (repositoryIn name).Readable (.ofNodes all) ∧
    ∀ id commit, (repositoryIn name).Holds (.ofNodes all) id commit → (id, commit) ∈ commits := by
  refine LoadedRoots.readable_of_closed hasFiles.tips (fun c mem => hasFiles.readCommit mem) ?_ ?_
  · intro tip mem
    obtain rfl := List.mem_singleton.1 mem
    exact ⟨_, List.mem_cons_self, rfl⟩
  · decide

theorem holds (mem : (id, commit) ∈ commits) :
    (repositoryIn name).Holds (.ofNodes all) id commit := by
  have parent : ((repositoryIn name).reader (.ofNodes all)).IsParent secondId firstId :=
    ⟨second, hasFiles.readCommit List.mem_cons_self, List.mem_singleton_self _⟩
  refine ⟨hasFiles.readCommit mem, _, hasFiles.tips, _, List.mem_singleton_self _, ?_⟩
  rcases List.mem_cons.1 mem with same | mem
  · cases same
    exact .refl
  · cases List.mem_singleton.1 mem
    exact .single parent

theorem acyclic : (repositoryIn name).Acyclic (.ofNodes all) := by
  obtain ⟨readable, among⟩ := hasFiles.readable
  refine Repository.acyclic_of_rank readable (fun id => if id = secondId then 1 else 0) ?_
  have below : ∀ c ∈ commits, ∀ parent ∈ c.2.parents,
      (if parent = secondId then 1 else 0) < if c.1 = secondId then 1 else 0 := by
    decide
  exact fun id commit holds => below _ (among id commit holds)

theorem openAt : Repository.openAt (pathOf [name]) (.ofNodes all) = .ok (repositoryIn name) := by
  have git : (ofNodes all).node? (Repository.gitPlace [name]) = some .directory := by
    refine node?_of_mem hasFiles.proper hasFiles.distinct ?_
    exact hasFiles.files _ (List.mem_map.2
      ⟨(Repository.gitPlace root, .directory), by simp [nodes], rfl⟩)
  have isPlace : IsPlace (Repository.gitPlace [name]) :=
    (hasFiles.refs ["packed-refs"] (by simp)).of_append
  exact Repository.openAt_pathOf hasFiles.rooted (List.cons_ne_nil _ _) isPlace git

end HasFiles

section Several

variable {names : List String} {all : List (Place × Node)}
  (hasFiles : ∀ name ∈ names, HasFiles name all)

include hasFiles

theorem mapM_openAt : (names.map fun name => pathOf [name]).mapM
    (fun path => Repository.openAt path (.ofNodes all)) = .ok (names.map repositoryIn) := by
  refine mapM_eq_ok.2 (List.forall₂_map_left_iff.2 (List.forall₂_map_right_iff.2 ?_))
  exact List.forall₂_same.2 fun name mem => (hasFiles name mem).openAt

/-- Repositories in several directories hold two commits each. -/
theorem holdAtMost_repositoryIn :
    HoldAtMost (.ofNodes all) (names.map repositoryIn) (names.length * 2) := by
  have among : ∀ r ∈ names.map repositoryIn, ∀ id commit, r.Holds (.ofNodes all) id commit →
      ⟨id, r.root⟩ ∈ names.flatMap fun name =>
        commits.map fun c => (⟨c.1, (repositoryIn name).root⟩ : CommitId) := by
    intro r mem id commit holds
    obtain ⟨name, hname, rfl⟩ := List.mem_map.1 mem
    refine List.mem_flatMap.2 ⟨name, hname, ?_⟩
    exact List.mem_map_of_mem ((hasFiles name hname).readable.2 id commit holds)
  simpa [List.length_flatMap, commits] using holdAtMost_of_subset among

/-- A session of repositories in several directories, which are not indexed. -/
theorem exists_sessionIn (ne : names ≠ []) (few : names.length * 2 ≤ CommitStore.capacity)
    (settings : SessionSettings) (unindexed : settings.indexedRoots = []) : ∃ session,
      Session.openAt (names.map fun name => pathOf [name]) settings (.ofNodes all) =
        .ok session := by
  have hindexed : settings.indexedRoots.mapM (ofNodes all).canonical = .ok [] := by
    rw [unindexed]
    rfl
  refine Session.exists_openAt hindexed (mapM_openAt hasFiles) (by simpa using ne) ?_ ?_ ?_
  · intro r mem
    obtain ⟨name, hname, rfl⟩ := List.mem_map.1 mem
    exact (hasFiles name hname).readable.1
  · intro r _ asked
    cases asked
  · intro store unlike held
    exact Nat.le_trans (holdAtMost_repositoryIn hasFiles store unlike held) few

end Several

/-! ### The repository on its own disk -/

theorem hasFiles : HasFiles "work" nodes := by
  refine ⟨?_, ?_, ?_, ?_, ?_, ?_, ?_⟩ <;> decide +kernel

/-- The repository can be read, and holds the two commits and nothing else. -/
theorem readable_repository : repository.Readable disk ∧
    ∀ id commit, repository.Holds disk id commit → (id, commit) ∈ commits :=
  hasFiles.readable

theorem holds_commits {id : ObjectId} {commit : Commit} (mem : (id, commit) ∈ commits) :
    repository.Holds disk id commit :=
  hasFiles.holds mem

theorem acyclic_repository : repository.Acyclic disk := hasFiles.acyclic

theorem intact_repository : repository.Intact disk := by
  refine ⟨acyclic_repository, ?_⟩
  intro id commit holds
  have empty : commit.tree = treeId := by
    have trees : ∀ c ∈ commits, c.2.tree = treeId := by decide
    exact trees _ (readable_repository.2 id commit holds)
  rw [empty]
  refine .intro hasFiles.readTree ?_ ?_
  all_goals
    intro name entry found
    cases found

/-- Settings with limits of one commit, and room for the details of many. -/
def narrow : SessionSettings := ⟨⟨1, 1⟩, 1000, [], none⟩

theorem holdAtMost_repository : HoldAtMost disk [repository] 2 :=
  holdAtMost_repositoryIn (List.forall_mem_singleton.2 hasFiles)

/-- A session of the repository, which is not indexed. -/
theorem exists_session (settings : SessionSettings) (unindexed : settings.indexedRoots = []) :
    ∃ session, Session.openAt [pathOf root] settings disk = .ok session :=
  exists_sessionIn (List.forall_mem_singleton.2 hasFiles) (List.cons_ne_nil _ _) (by decide)
    settings unindexed

variable {settings : SessionSettings} {session : Session}

theorem entries_session (run : Session.openAt [pathOf root] settings disk = .ok session) :
    session.repositories.entries = [(pathOf root, repository)] :=
  Session.entries_of_openAt run hasFiles.openAt

theorem mem_entries (run : Session.openAt [pathOf root] settings disk = .ok session) :
    (pathOf root, repository) ∈ session.repositories.entries := by
  rw [entries_session run]
  exact List.mem_singleton_self _

theorem intact_entries (run : Session.openAt [pathOf root] settings disk = .ok session) :
    ∀ entry ∈ session.repositories.entries, entry.2.Intact disk := by
  rw [entries_session run]
  intro entry mem
  rw [List.mem_singleton.1 mem]
  exact intact_repository

theorem acyclic_entries (run : Session.openAt [pathOf root] settings disk = .ok session) :
    ∀ r ∈ session.repositories.entries.map (·.2), r.Acyclic disk := by
  rw [entries_session run]
  intro r mem
  rw [List.mem_singleton.1 mem]
  exact acyclic_repository

end Sample

end CommitLog
