import CommitLog.Proofs.Session.Opening
import CommitLog.Proofs.Session.Search

/-!
# The answer of a repository

A repository that can answer without limit finds the commits of its walk that fit
(`Repository.Fits`), in the order in which they are visited.  With a limit it answers as well, with
the first of these (`Repository.find_take`).

    find ⟨root, filters, greatestCount⟩ = .ok found →
      (∀ count, find ⟨root, filters, count⟩ = .ok (found.take count)) ∧
        found = (visited.filter fits).map ReadCommit.found
-/

namespace CommitLog

namespace Repository

/-- The commits that a walk starts at: those of the branches and of the head that the filter lets
through. -/
def Starts (repository : Repository) (disk : Disk) (branch : Option BranchFilter)
    (starts : List ObjectId) : Prop :=
  ∃ branches head, repository.refs.branches disk = .ok branches ∧
    repository.refs.readHead disk = .ok head ∧
    starts = ((branches ++ head.toList.map (BranchName.head, ·)).filter fun tip =>
      branch.all (·.accepts tip.1.text)).map (·.2)

/-- What is known of the changes of a commit: without paths nothing, with paths the changes against
its first parent at and below them. -/
def Knows (repository : Repository) (disk : Disk) (paths : Option StructureFilter) (commit : Commit)
    (changed : Option (List Path)) : Prop :=
  match paths with
  | none => changed = none
  | some filter => ∃ old files, (repository.reader disk).OldTree commit old ∧
      (repository.reader disk).changes old (some commit.tree)
        (.ofPaths (filter.filesForRoot repository.root)) = .ok files ∧
      changed = some files

/-- Whether the store has a commit, and every filter of details accepts what is known of it. -/
def Fits (repository : Repository) (disk : Disk) (store : CommitStore) (filters : Filters)
    (read : ReadCommit) : Prop :=
  ∃ i changed, store.indexOf? ⟨read.id, repository.root⟩ = some i ∧
    repository.Knows disk filters.paths read.commit changed ∧
    let metadata : Metadata := .ofCommit i ⟨read.id, repository.root⟩
      (store.parentsOf repository.root read.commit) read.commit
    ∀ filter ∈ filters.details, filter.accepts { metadata with changedPaths := changed } = true

/-- The commits that fit, in the order in which a walk visits them.  No visit fails. -/
def IsFilteredWalk (repository : Repository) (disk : Disk) (store : CommitStore) (filters : Filters)
    (found : List FoundCommit) : Prop :=
  ∃ (starts : List ObjectId) (visited : List ReadCommit) (good : ReadCommit → Bool),
    repository.Starts disk filters.branch starts ∧
    (repository.reader disk).history starts = visited.map .ok ∧
    (∀ read ∈ visited, good read = true ↔ repository.Fits disk store filters read) ∧
    found = (visited.filter good).map ReadCommit.found

variable {repository : Repository} {disk : Disk} {store : CommitStore} {filters : Filters}
  {found : List FoundCommit}

theorem starts_of_tips {branch : Option BranchFilter} {tips : List (BranchName × ObjectId)}
    (h : repository.tips disk branch = .ok tips) :
    repository.Starts disk branch (tips.map (·.2)) := by
  unfold Repository.tips at h
  obtain ⟨branches, hbranches, h⟩ := bind_eq_ok.1 h
  obtain ⟨head, hhead, h⟩ := bind_eq_ok.1 h
  cases h
  exact ⟨branches, head, hbranches, hhead, rfl⟩

theorem knows_some {filter : StructureFilter} {commit : Commit} {changed : Option (List Path)} :
    repository.Knows disk (some filter) commit changed ↔ ∃ files,
      (repository.reader disk).changesOf commit (.ofPaths (filter.filesForRoot repository.root)) =
        .ok files ∧ changed = some files := by
  simp only [Knows, ObjectReader.changesOf_eq_ok]
  constructor
  · rintro ⟨old, files, hold, run, same⟩
    exact ⟨files, ⟨old, hold, run⟩, same⟩
  · rintro ⟨files, ⟨old, hold, run⟩, same⟩
    exact ⟨old, files, hold, run, same⟩

theorem Knows.unique {paths : Option StructureFilter} {commit : Commit}
    {changed changed' : Option (List Path)} (h : repository.Knows disk paths commit changed)
    (h' : repository.Knows disk paths commit changed') : changed = changed' := by
  cases paths with
  | none => exact Eq.trans h (Eq.symm h')
  | some filter =>
    obtain ⟨files, run, rfl⟩ := knows_some.1 h
    obtain ⟨files', run', rfl⟩ := knows_some.1 h'
    rw [Except.ok.inj (run.symm.trans run')]

/-- A commit that the store has is judged by what is known of it. -/
theorem judge_of_number {read : ReadCommit} {good : Bool} {i : CommitIndex}
    (number : store.indexOf? ⟨read.id, repository.root⟩ = some i) :
    repository.judge disk store filters read = .ok good ↔
      ∃ changed, repository.Knows disk filters.paths read.commit changed ∧
        let metadata : Metadata := .ofCommit i ⟨read.id, repository.root⟩
          (store.parentsOf repository.root read.commit) read.commit
        filters.acceptsDetails { metadata with changedPaths := changed } = good := by
  unfold judge CommitStore.metadata?
  rw [number]
  cases filters.paths with
  | none =>
    constructor
    · exact fun h => ⟨none, rfl, Except.ok.inj h⟩
    · rintro ⟨_, rfl, rfl⟩
      rfl
  | some filter =>
    constructor
    · intro h
      obtain ⟨files, run, h⟩ := bind_eq_ok.1 h
      exact ⟨some files, knows_some.2 ⟨files, run, rfl⟩, Except.ok.inj h⟩
    · rintro ⟨_, knows, rfl⟩
      obtain ⟨files, run, rfl⟩ := knows_some.1 knows
      exact bind_eq_ok.2 ⟨files, run, rfl⟩

/-- A commit is judged good when it fits. -/
theorem judge_iff_fits {read : ReadCommit} {good : Bool}
    (h : repository.judge disk store filters read = .ok good) :
    good = true ↔ repository.Fits disk store filters read := by
  cases number : store.indexOf? ⟨read.id, repository.root⟩ with
  | none =>
    unfold judge CommitStore.metadata? at h
    rw [number] at h
    obtain rfl := Except.ok.inj h
    simp [Fits, number]
  | some i =>
    obtain ⟨changed, knows, rfl⟩ := (judge_of_number number).1 h
    rw [Filters.acceptsDetails, List.all_eq_true]
    constructor
    · exact fun all => ⟨i, changed, number, knows, all⟩
    · rintro ⟨_, _, same, knows', all⟩
      obtain rfl := Option.some.inj (number.symm.trans same)
      obtain rfl := knows.unique knows'
      exact all

/-- What a repository finds below the limit is the part of its walk that fits. -/
theorem findCommits_eq_filter {limit : Nat} (short : found.length < limit)
    (h : repository.findCommits disk store filters limit = .ok found) :
    repository.IsFilteredWalk disk store filters found := by
  obtain ⟨tips, htips, h⟩ := findCommits_eq_ok.1 h
  obtain ⟨visited, others, walk, judged, same, all⟩ := takeFound_spec h
  rw [all short, List.append_nil] at walk
  refine ⟨_, visited, _, starts_of_tips htips, walk, fun read mem => ?_, same⟩
  obtain ⟨good, hgood⟩ := judged read mem
  rw [isGood_iff, hgood, Except.ok.injEq]
  exact judge_iff_fits hgood

/-- **The answer of a repository.**  Without limit a repository finds the commits of its walk that
the store knows and that all filters of details accept, in the order of the walk, and as many as are
asked for otherwise.  No store that commits are registered in has more numbers than there are
(`CommitStore.register_spec`). -/
theorem find_take (repository : Repository) (disk : Disk) (store : CommitStore)
    (room : store.indices.size ≤ CommitStore.capacity) (root : Path)
    (own : (root == repository.root) = true) (filters : Filters) (found : List FoundCommit)
    (all : (repository.source disk store).find ⟨root, filters, greatestCount⟩ = .ok found) :
    (∀ count, (repository.source disk store).find ⟨root, filters, count⟩ =
      .ok (found.take count)) ∧
    repository.IsFilteredWalk disk store filters found := by
  rw [Session.find_source own] at all
  have great : store.indices.size < greatestCount := by
    unfold CommitStore.capacity at room
    unfold greatestCount
    omega
  have short : found.length < greatestCount :=
    Nat.lt_of_le_of_lt (length_findCommits_le all) great
  exact ⟨fun count => (Session.find_source own).2 (findCommits_all great all count),
    findCommits_eq_filter short all⟩

/-- The store has the first commit of the sample only, so the second one is skipped. -/
theorem find_take_first :
    let store := (CommitStore.empty.insert ⟨Sample.firstId, Sample.repository.root⟩).2
    let source := Sample.repository.source Sample.disk store
    store.indices.size ≤ CommitStore.capacity ∧ ∃ f, f.hash = Sample.firstId ∧
      source.find ⟨Sample.repository.root, .none, greatestCount⟩ = .ok [f] ∧
      source.find ⟨Sample.repository.root, .none, 1⟩ = .ok [f] ∧
      source.find ⟨Sample.repository.root, .none, 0⟩ = .ok [] := by
  intro store source
  have inStep : store.InStep := CommitStore.inStep_empty.insert _
  have ids : store.ids = #[⟨Sample.firstId, Sample.repository.root⟩] :=
    congrArg (·.2.ids) (CommitStore.insert_of_indexOf?_eq_none CommitStore.indexOf?_empty)
  have room : store.indices.size ≤ CommitStore.capacity := by
    rw [inStep.size_indices, CommitStore.size, ids]
    decide
  have knows : store.indexOf? ⟨Sample.firstId, Sample.repository.root⟩ = some 0 ∧
      store.indexOf? ⟨Sample.secondId, Sample.repository.root⟩ = none := by
    refine ⟨inStep.indexOf?_eq_some.2 ⟨_, ?_, BEq.rfl⟩, inStep.indexOf?_eq_none_iff.2 ?_⟩
    · rw [CommitStore.commitId?, ids]
      rfl
    · rw [ids]
      decide +kernel
  have mem : (Sample.firstId, Sample.first) ∈ Sample.commits :=
    List.mem_cons_of_mem _ List.mem_cons_self
  obtain ⟨readable, among⟩ := Sample.readable_repository
  obtain ⟨found, run⟩ := @exists_findCommits _ _ store .none readable greatestCount
    fun id commit _ => by
      unfold judge
      cases store.metadata? Sample.repository.root ⟨id, commit⟩ <;> exact ⟨_, rfl⟩
  have all : source.find ⟨Sample.repository.root, .none, greatestCount⟩ = .ok found :=
    (Session.find_source BEq.rfl).2 run
  obtain ⟨take, -⟩ := find_take Sample.repository Sample.disk store room Sample.repository.root
    BEq.rfl .none found all
  have short : found.length < greatestCount :=
    Nat.lt_of_le_of_lt (length_findCommits_le run) (Nat.lt_of_le_of_lt room (by decide))
  have passes : Sample.repository.Passes Sample.disk store .none Sample.firstId Sample.first := by
    have holds := Sample.holds_commits mem
    exact ⟨holds.1, holds.reaches, (judge_of_number knows.1).2 ⟨none, rfl, rfl⟩⟩
  have hashes : found.map (·.hash) = [Sample.firstId] := by
    refine List.perm_singleton.1 ((List.perm_ext_iff_of_nodup (nodup_findCommits run)
      (List.nodup_singleton _)).2 fun id => ?_)
    rw [List.mem_map, List.mem_singleton]
    constructor
    · rintro ⟨f, hf, rfl⟩
      obtain ⟨commit, own⟩ := of_mem_findCommits run hf
      obtain ⟨i, number⟩ := own.exists_number
      rcases List.mem_cons.1 (among _ _ own.holds) with same | same
      · rw [(Prod.mk.inj same).1, knows.2] at number
        cases number
      · exact (Prod.mk.inj (List.mem_singleton.1 same)).1
    · rintro rfl
      exact mem_findCommits run short passes
  obtain ⟨f, rfl, hash⟩ := List.map_eq_singleton_iff.1 hashes
  exact ⟨room, f, hash, all, take 1, take 0⟩

end Repository

end CommitLog
