import CommitLog.Proofs.Path.Components
import CommitLog.Proofs.Search.Cache
import CommitLog.Proofs.Session.Loading

/-!
# Open sessions

What a session holds after it has been opened (`Session.Opened`): the repositories stand under their
roots, everything that has been read of them is known, and the details in memory are those of the
commits that they are kept for.  Asking for details keeps this.

    session.IsOpen disk → ∃ indexed loaded, session.Opened disk indexed loaded
-/

namespace CommitLog

/-! ## Repositories -/

namespace Repository

variable {disk : Disk} {repository : Repository}

/-- What a commit that has been read says about itself. -/
structure Describes (repository : Repository) (id : ObjectId) (commit : Commit) (m : Metadata) :
    Prop where
  hash : m.hash = id
  root : (m.root == repository.root) = true
  author : m.author = commit.author
  message : m.message = commit.message

theorem components_pathOf (place : Place) : (Disk.pathOf place).components ≠ [] := by
  have slash : (Disk.pathOf place).text.toList = '/' :: ("/".intercalate place).toList := by
    simp [Disk.pathOf]
  rw [Path.components_of_slash slash]
  exact List.cons_ne_nil _ _

/-- The root of an opened repository is absolute. -/
theorem absolute_of_openAt {path : Path} (h : openAt path disk = .ok repository) :
    repository.root.components ≠ [] := by
  obtain ⟨root, hroot, h⟩ := bind_eq_ok.1 h
  have canonical := mapError_eq_ok.1 hroot
  obtain ⟨found, -, same⟩ := bind_eq_ok.1 canonical
  obtain rfl := Except.ok.inj same
  split at h
  · cases h
  · cases h
    exact components_pathOf _

theorem Describes.of_isDetails {store : CommitStore} {indexed : List Path} {m : Metadata}
    (h : repository.IsDetails disk store indexed m) : ∃ commit,
    repository.Holds disk m.hash commit ∧
      store.indexOf? ⟨m.hash, repository.root⟩ = some m.index ∧
      repository.Describes m.hash commit m ∧
      m.parents = store.parentsOf repository.root commit ∧
      if indexed.contains repository.root then
        ∃ paths, (repository.reader disk).changesOf commit .everything = .ok paths ∧
          m.changedPaths = some paths
      else m.changedPaths = none := by
  obtain ⟨commit, holds, number, run⟩ := h
  obtain ⟨same, changed⟩ := LoadedRoots.details_eq_ok.1 run
  refine ⟨commit, holds, number, ⟨rfl, ?_, ?_, ?_⟩, ?_, changed⟩
  · rw [same]
    exact BEq.rfl
  all_goals rw [same]; rfl

end Repository

/-! ## Sessions -/

namespace Session

/-- The commit of a number: the repository that holds it, its id, and what is read of it. -/
structure HasCommit (session : Session) (disk : Disk) (i : CommitIndex) (repository : Repository)
    (id : ObjectId) (commit : Commit) : Prop where
  opened : repository ∈ session.repositories.entries.map (·.2)
  holds : repository.Holds disk id commit
  number : session.store.indexOf? ⟨id, repository.root⟩ = some i

/-- What an open session holds. -/
structure Opened (session : Session) (disk : Disk) (indexed : List Path) (loaded : LoadedRoots) :
    Prop where
  ascending : session.repositories.Ascending
  keyed : ∀ entry ∈ session.repositories.entries, (entry.1 == entry.2.root) = true
  absolute : ∀ entry ∈ session.repositories.entries, entry.2.root.components ≠ []
  covers : LoadedRoots.Covers disk indexed (session.repositories.entries.map (·.2)) loaded
  store : session.store = loaded.store
  history : session.history = ⟨.ofCommits loaded.commits (loaded.heads.map (·.commit)),
    loaded.heads, session.repositories.paths⟩
  index : session.index = if indexed.isEmpty then .none else .metadata loaded.index
  memory : ∀ i m, session.known? i = some m → ∃ repository id commit,
    session.HasCommit disk i repository id commit ∧ repository.Describes id commit m ∧
      (m.changedPaths.isSome = true → indexed.contains repository.root = true)

/-- A session that has been opened and asked for details since. -/
inductive IsOpen (disk : Disk) : Session → Prop
  | opened {paths : List Path} {settings : SessionSettings} {session : Session} :
      openAt paths settings disk = .ok session → IsOpen disk session
  | asked {session after : Session} {i : CommitIndex} {m : Metadata} :
      IsOpen disk session → session.details disk i = .ok (m, after) → IsOpen disk after

variable {disk : Disk} {session : Session} {indexed : List Path} {loaded : LoadedRoots}

theorem Opened.inStep (opened : session.Opened disk indexed loaded) : session.store.InStep := by
  rw [opened.store]
  exact opened.covers.inStep

/-! ### Opening -/

/-- The repositories of a session in the order of their roots. -/
def tableOf (opened : List Repository) : PathTable Repository :=
  .ofList (opened.map fun repository => (repository.root, repository))

theorem tableOf_spec (opened : List Repository) : (tableOf opened).Ascending ∧
    ∀ entry ∈ (tableOf opened).entries, (entry.1 == entry.2.root) = true ∧ entry.2 ∈ opened := by
  unfold tableOf PathTable.ofList
  suffices run : ∀ (rest done : List Repository) (table : PathTable Repository),
      (table.Ascending ∧ ∀ entry ∈ table.entries,
        (entry.1 == entry.2.root) = true ∧ entry.2 ∈ done) →
      let final := (rest.map fun r => (r.root, r)).foldl
        (fun table entry => table.insert entry.1 entry.2) table
      final.Ascending ∧ ∀ entry ∈ final.entries,
        (entry.1 == entry.2.root) = true ∧ entry.2 ∈ done ++ rest by
    have := run opened [] .empty ⟨PathTable.ascending_empty, by simp [PathTable.empty]⟩
    simpa using this
  intro rest
  induction rest with
  | nil =>
    intro done table h
    simpa using h
  | cons r rest ih =>
    intro done table h
    have next := ih (done ++ [r]) (table.insert r.root r) ?_
    · simpa using next
    · refine ⟨h.1.insert, ?_⟩
      intro entry mem
      rcases PathTable.mem_insertEntry mem with ⟨same, value⟩ | mem
      · rw [value]
        exact ⟨same, by simp⟩
      · exact ⟨(h.2 entry mem).1, List.mem_append_left _ (h.2 entry mem).2⟩

/-- What opening a session comes to. -/
theorem openAt_eq_ok {paths : List Path} {settings : SessionSettings}
    (h : openAt paths settings disk = .ok session) : ∃ opened indexed loaded,
    settings.indexedRoots.mapM disk.canonical = .ok indexed ∧
      paths.mapM (fun path => Repository.openAt path disk) = .ok opened ∧
      session.repositories = tableOf opened ∧
      (session.repositories.entries.map (·.2)).foldlM (LoadedRoots.add disk indexed) .empty =
        .ok loaded ∧
      session = {
        repositories := session.repositories
        history := ⟨.ofCommits loaded.commits (loaded.heads.map (·.commit)), loaded.heads,
          session.repositories.paths⟩
        store := loaded.store
        recent := (RecentCache.empty settings.cacheSize).store loaded.metadata
        loaded := .empty
        index := if indexed.isEmpty then .none else .metadata loaded.index
        budget := settings.budget
        currentUser := settings.currentUser } := by
  obtain ⟨indexed, hindexed, h⟩ := bind_eq_ok.1 h
  obtain ⟨opened, hopened, h⟩ := bind_eq_ok.1 h
  dsimp only at h
  split at h
  · cases h
  · obtain ⟨loaded, hloaded, h⟩ := bind_eq_ok.1 h
    cases h
    refine ⟨opened, indexed, loaded, mapM_eq_ok.2 ?_, hopened, rfl, hloaded, rfl⟩
    exact (mapM_eq_ok.1 hindexed).imp fun path root => mapError_eq_ok.1

theorem budget_of_openAt {paths : List Path} {settings : SessionSettings}
    (h : openAt paths settings disk = .ok session) : session.budget = settings.budget := by
  obtain ⟨_, _, _, -, -, -, -, whole⟩ := openAt_eq_ok h
  rw [whole]

theorem currentUser_of_openAt {paths : List Path} {settings : SessionSettings}
    (h : openAt paths settings disk = .ok session) :
    session.currentUser = settings.currentUser := by
  obtain ⟨_, _, _, -, -, -, -, whole⟩ := openAt_eq_ok h
  rw [whole]

/-- A new session has loaded nothing but what is in its cache. -/
theorem known?_of_openAt {paths : List Path} {settings : SessionSettings}
    (h : openAt paths settings disk = .ok session) (i : CommitIndex) :
    session.known? i = session.recent.get? i := by
  obtain ⟨_, _, _, -, -, -, -, whole⟩ := openAt_eq_ok h
  rw [whole]
  simp [known?, MetadataStore.empty, MetadataStore.get?]

/-- Another size of the cache changes what the cache holds and nothing else. -/
theorem exists_openAt_cacheSize {paths : List Path} {settings : SessionSettings}
    (h : openAt paths settings disk = .ok session) (size : Nat) : ∃ recent,
      openAt paths { settings with cacheSize := size } disk =
        .ok { session with recent := recent } := by
  obtain ⟨indexed, hindexed, h⟩ := bind_eq_ok.1 h
  obtain ⟨opened, hopened, h⟩ := bind_eq_ok.1 h
  dsimp only at h
  split at h
  · cases h
  next some =>
  obtain ⟨loaded, hloaded, h⟩ := bind_eq_ok.1 h
  cases h
  refine ⟨(RecentCache.empty size).store loaded.metadata,
    bind_eq_ok.2 ⟨indexed, hindexed, bind_eq_ok.2 ⟨opened, hopened, ?_⟩⟩⟩
  dsimp only
  rw [if_neg some]
  exact bind_eq_ok.2 ⟨loaded, hloaded, rfl⟩

/-- A session that is to index nothing has no index. -/
theorem index_of_openAt {paths : List Path} {settings : SessionSettings}
    (h : openAt paths settings disk = .ok session) (unindexed : settings.indexedRoots = []) :
    session.index = .none := by
  obtain ⟨_, indexed, _, hindexed, -, -, -, whole⟩ := openAt_eq_ok h
  rw [unindexed] at hindexed
  obtain rfl := Except.ok.inj hindexed
  rw [whole]
  rfl

/-- A session of a single repository. -/
theorem entries_of_openAt {path : Path} {settings : SessionSettings} {repository : Repository}
    (h : openAt [path] settings disk = .ok session)
    (run : Repository.openAt path disk = .ok repository) :
    session.repositories.entries = [(repository.root, repository)] := by
  obtain ⟨opened, _, _, -, hopened, table, -, -⟩ := openAt_eq_ok h
  have only : opened = [repository] :=
    Except.ok.inj (hopened.symm.trans (mapM_eq_ok.2 (.cons run .nil)))
  rw [table, only]
  rfl

/-- What a session holds that has just been opened, and how it has been read. -/
theorem loaded_of_openAt {paths : List Path} {settings : SessionSettings}
    (h : openAt paths settings disk = .ok session) : ∃ indexed loaded,
    settings.indexedRoots.mapM disk.canonical = .ok indexed ∧
      (session.repositories.entries.map (·.2)).foldlM (LoadedRoots.add disk indexed) .empty =
        .ok loaded ∧
      session.Opened disk indexed loaded ∧
      session.recent = (RecentCache.empty settings.cacheSize).store loaded.metadata := by
  obtain ⟨opened, indexed, loaded, hindexed, hopened, htable, hloaded, hsession⟩ := openAt_eq_ok h
  obtain ⟨ascending, entries⟩ := tableOf_spec opened
  rw [← htable] at ascending entries
  have covers := LoadedRoots.covers_foldlM hloaded
  have recent : session.recent = (RecentCache.empty settings.cacheSize).store loaded.metadata := by
    rw [hsession]
  refine ⟨indexed, loaded, hindexed, hloaded, ⟨ascending, fun entry mem => (entries entry mem).1,
    ?_, covers, by rw [hsession], by rw [hsession], by rw [hsession], ?_⟩, recent⟩
  · intro entry mem
    obtain ⟨path, -, run⟩ := exists_of_mem_right (mapM_eq_ok.1 hopened) (entries entry mem).2
    exact Repository.absolute_of_openAt run
  · intro i m known
    rw [known?_of_openAt h, recent] at known
    obtain ⟨mem, rfl⟩ := RecentCache.within_store _ _ i m known
    obtain ⟨repository, hrepository, details⟩ := (covers.metadata m).1 mem
    obtain ⟨commit, holds, number, describes, -, changed⟩ :=
      Repository.Describes.of_isDetails details
    refine ⟨repository, m.hash, commit, ⟨hrepository, holds, ?_⟩, describes, ?_⟩
    · rw [hsession]
      exact number
    · intro some
      by_contra absent
      rw [if_neg absent] at changed
      rw [changed] at some
      cases some

theorem opened_of_openAt {paths : List Path} {settings : SessionSettings}
    (h : openAt paths settings disk = .ok session) :
    ∃ indexed loaded, session.Opened disk indexed loaded ∧
      session.recent = (RecentCache.empty settings.cacheSize).store loaded.metadata := by
  obtain ⟨indexed, loaded, -, -, opened⟩ := loaded_of_openAt h
  exact ⟨indexed, loaded, opened⟩

/-! ### Asking for details -/

/-- The repository of a root. -/
theorem Opened.get?_repositories (opened : session.Opened disk indexed loaded)
    {repository : Repository} (h : repository ∈ session.repositories.entries.map (·.2)) {root : Path}
    (same : (repository.root == root) = true) :
    session.repositories.get? root = some repository := by
  obtain ⟨entry, mem, rfl⟩ := List.mem_map.1 h
  exact opened.ascending.get?_eq mem (BEq.trans (opened.keyed entry mem) same)

/-- No two repositories have the same root. -/
theorem Opened.eq_of_root (opened : session.Opened disk indexed loaded) {a b : Repository}
    (ha : a ∈ session.repositories.entries.map (·.2))
    (hb : b ∈ session.repositories.entries.map (·.2)) (same : (a.root == b.root) = true) :
    a = b := by
  have hb := opened.get?_repositories hb BEq.rfl
  rw [opened.get?_repositories ha same] at hb
  exact Option.some.inj hb

/-- What is read again of a commit describes it. -/
theorem Opened.readDetails (opened : session.Opened disk indexed loaded) {i : CommitIndex}
    {m : Metadata} (h : session.readDetails disk i = .ok m) : ∃ repository id commit,
    session.HasCommit disk i repository id commit ∧ repository.Describes id commit m ∧
      m.index = i ∧ m.changedPaths = none := by
  unfold Session.readDetails at h
  split at h
  case h_2 => cases h
  next own hown =>
  have known : own ∈ loaded.store.ids := by
    rw [opened.store] at hown
    exact Array.mem_of_getElem? hown
  obtain ⟨repository, hrepository, hroot, commit, holds⟩ := opened.covers.ids own known
  rw [hroot, opened.get?_repositories hrepository BEq.rfl] at h
  obtain ⟨commit', hcommit, h⟩ := bind_eq_ok.1 h
  obtain rfl := Except.ok.inj (holds.1.symm.trans hcommit)
  cases h
  refine ⟨repository, own.hash, commit, ⟨hrepository, holds, ?_⟩, ⟨rfl, ?_, rfl, rfl⟩, rfl, rfl⟩
  · refine opened.inStep.indexOf?_eq_some.2 ⟨own, hown, ?_⟩
    rw [← hroot]
    exact BEq.rfl
  · change (own.root == repository.root) = true
    rw [hroot]
    exact BEq.rfl

theorem Opened.asked (opened : session.Opened disk indexed loaded) {i : CommitIndex}
    {m : Metadata} {after : Session} (h : session.details disk i = .ok (m, after)) :
    after.Opened disk indexed loaded := by
  unfold details at h
  split at h
  · cases h
    exact opened
  next absent =>
  obtain ⟨metadata, read, same⟩ := map_eq_ok.1 h
  cases same
  refine ⟨opened.ascending, opened.keyed, opened.absolute, opened.covers, opened.store,
    opened.history, opened.index, ?_⟩
  intro j n known
  obtain ⟨repository, id, commit, has, describes, index, unknown⟩ := opened.readDetails read
  by_cases same : i = j
  · subst same
    have given : n = m := by
      unfold known? at absent known
      obtain ⟨cold, -⟩ := Option.or_eq_none_iff.1 absent
      rw [cold] at known
      simp [MetadataStore.get?, MetadataStore.insert, index] at known
      exact known.symm
    subst given
    refine ⟨repository, id, commit, ⟨has.opened, has.holds, has.number⟩, describes, ?_⟩
    rw [unknown]
    intro h
    cases h
  · have before : session.known? j = some n := by
      unfold known? at known ⊢
      simpa [MetadataStore.get?, MetadataStore.insert, Std.HashMap.getElem?_insert, index, same]
        using known
    obtain ⟨repository, id, commit, has, describes, changed⟩ := opened.memory j n before
    exact ⟨repository, id, commit, ⟨has.opened, has.holds, has.number⟩, describes, changed⟩

/-- What an open session holds. -/
theorem IsOpen.exists_opened (h : IsOpen disk session) :
    ∃ indexed loaded, session.Opened disk indexed loaded := by
  induction h with
  | opened run =>
    obtain ⟨indexed, loaded, opened, -⟩ := opened_of_openAt run
    exact ⟨indexed, loaded, opened⟩
  | asked _ run ih =>
    obtain ⟨indexed, loaded, opened⟩ := ih
    exact ⟨indexed, loaded, opened.asked run⟩

end Session

end CommitLog
