import CommitLog.Proofs.Filter.Details
import CommitLog.Proofs.Session.Links
import CommitLog.Session.Source

/-!
# What a repository finds

A repository that is asked for many commits finds those that pass the filters
(`Repository.Passes`), newest first; asked for fewer, it gives the first of these.

    repository.findCommits disk store filters limit = .ok found → found.length < limit →
      ((∃ f ∈ found, f.hash = id) ↔ ∃ commit, repository.Passes disk store filters id commit)
-/

namespace CommitLog

/-! ## Taking what is judged good -/

section TakeFound

/-- Whether a commit is judged good without a fault. -/
def isGood (judge : ReadCommit → Except Fault Bool) (read : ReadCommit) : Bool :=
  (judge read).toOption == some true

variable {judge : ReadCommit → Except Fault Bool} {limit : Nat}
  {visits rest : List (Except Fault ReadCommit)} {found : List FoundCommit}

theorem isGood_iff {read : ReadCommit} : isGood judge read = true ↔ judge read = .ok true := by
  rw [isGood, beq_iff_eq, toOption_eq_some]

theorem takeFound_zero : takeFound judge 0 visits = .ok [] := by
  cases visits <;> rfl

theorem takeFound_nil : takeFound judge limit [] = .ok [] := by
  cases limit <;> rfl

theorem takeFound_cons {visit : Except Fault ReadCommit} :
    takeFound judge (limit + 1) (visit :: rest) = .ok found ↔
      ∃ read good, visit = .ok read ∧ judge read = .ok good ∧
        if good then ∃ more, takeFound judge limit rest = .ok more ∧ found = read.found :: more
        else takeFound judge (limit + 1) rest = .ok found := by
  constructor
  · intro h
    obtain ⟨read, same, h⟩ := bind_eq_ok.1 h
    obtain ⟨good, judged, h⟩ := bind_eq_ok.1 h
    refine ⟨read, good, same, judged, ?_⟩
    cases good with
    | false => exact h
    | true =>
      obtain ⟨more, hmore, same⟩ := bind_eq_ok.1 h
      exact ⟨more, hmore, (Except.ok.inj same).symm⟩
  · rintro ⟨read, good, same, judged, h⟩
    refine bind_eq_ok.2 ⟨read, same, bind_eq_ok.2 ⟨good, judged, ?_⟩⟩
    cases good with
    | false => exact h
    | true =>
      obtain ⟨more, hmore, rfl⟩ := h
      exact bind_eq_ok.2 ⟨more, hmore, rfl⟩

/-- What is found is what is judged good among the first visits, and these are all visits when the
limit is not reached. -/
theorem takeFound_spec (h : takeFound judge limit visits = .ok found) :
    ∃ (visited : List ReadCommit) (others : List (Except Fault ReadCommit)),
      visits = visited.map .ok ++ others ∧ (∀ read ∈ visited, ∃ good, judge read = .ok good) ∧
      found = (visited.filter (isGood judge)).map ReadCommit.found ∧
      (found.length < limit → others = []) := by
  induction visits generalizing limit found with
  | nil =>
    rw [takeFound_nil] at h
    cases h
    exact ⟨[], [], rfl, by simp, rfl, fun _ => rfl⟩
  | cons visit rest ih =>
    cases limit with
    | zero =>
      rw [takeFound_zero] at h
      cases h
      exact ⟨[], visit :: rest, rfl, by simp, rfl, fun short => absurd short (Nat.lt_irrefl 0)⟩
    | succ limit =>
      obtain ⟨read, good, rfl, judged, h⟩ := takeFound_cons.1 h
      cases good with
      | false =>
        obtain ⟨visited, others, rfl, all, same, short⟩ := ih h
        have skipped : ¬ isGood judge read = true := by simp [isGood_iff, judged]
        refine ⟨read :: visited, others, rfl, List.forall_mem_cons.2 ⟨⟨_, judged⟩, all⟩, ?_, short⟩
        rw [same, List.filter_cons_of_neg skipped]
      | true =>
        obtain ⟨more, hmore, rfl⟩ := h
        obtain ⟨visited, others, rfl, all, same, short⟩ := ih hmore
        have kept : isGood judge read = true := isGood_iff.2 judged
        refine ⟨read :: visited, others, rfl, List.forall_mem_cons.2 ⟨⟨_, judged⟩, all⟩, ?_, ?_⟩
        · rw [same, List.filter_cons_of_pos kept, List.map_cons]
        · exact fun less => short (Nat.lt_of_succ_lt_succ less)

/-- Whatever is found has been visited and judged good. -/
theorem of_mem_takeFound (h : takeFound judge limit visits = .ok found) {f : FoundCommit}
    (hf : f ∈ found) : ∃ read, .ok read ∈ visits ∧ judge read = .ok true ∧ f = read.found := by
  obtain ⟨visited, others, rfl, -, rfl, -⟩ := takeFound_spec h
  obtain ⟨read, mem, rfl⟩ := List.mem_map.1 hf
  obtain ⟨mem, good⟩ := List.mem_filter.1 mem
  exact ⟨read, List.mem_append_left _ (List.mem_map_of_mem mem), isGood_iff.1 good, rfl⟩

/-- Everything that is judged good is found before the limit is reached. -/
theorem mem_takeFound (h : takeFound judge limit visits = .ok found)
    (short : found.length < limit) {read : ReadCommit} (mem : .ok read ∈ visits)
    (good : judge read = .ok true) : read.found ∈ found := by
  obtain ⟨visited, others, rfl, -, same, all⟩ := takeFound_spec h
  rw [all short, List.append_nil] at mem
  obtain ⟨own, hown, equal⟩ := List.mem_map.1 mem
  obtain rfl := Except.ok.inj equal
  rw [same]
  exact List.mem_map_of_mem (List.mem_filter.2 ⟨hown, isGood_iff.2 good⟩)

theorem map_hash_takeFound (h : takeFound judge limit visits = .ok found) :
    (found.map (·.hash)).Sublist ((readsOf visits).map (·.id)) := by
  obtain ⟨visited, others, rfl, -, rfl, -⟩ := takeFound_spec h
  have reads : readsOf (visited.map .ok ++ others) = visited ++ readsOf others := by
    rw [readsOf, List.filterMap_append]
    exact congrArg (· ++ readsOf others) (readsOf_map_ok visited)
  rw [reads, List.map_map]
  exact (List.filter_sublist.trans (List.sublist_append_left _ _)).map ReadCommit.id

/-- A smaller limit gives the first of what is found. -/
theorem takeFound_take (h : takeFound judge limit visits = .ok found) {fewer : Nat}
    (le : fewer ≤ limit) : takeFound judge fewer visits = .ok (found.take fewer) := by
  induction visits generalizing limit found fewer with
  | nil =>
    rw [takeFound_nil] at h
    cases h
    rw [takeFound_nil, List.take_nil]
  | cons visit rest ih =>
    cases fewer with
    | zero => rw [takeFound_zero, List.take_zero]
    | succ fewer =>
      obtain ⟨limit, rfl⟩ : ∃ n, limit = n + 1 := ⟨limit - 1, by omega⟩
      obtain ⟨read, good, same, judged, h⟩ := takeFound_cons.1 h
      refine takeFound_cons.2 ⟨read, good, same, judged, ?_⟩
      cases good with
      | false => exact ih h le
      | true =>
        obtain ⟨more, hmore, rfl⟩ := h
        exact ⟨_, ih hmore (Nat.le_of_succ_le_succ le), rfl⟩

/-- A greater limit changes nothing when the limit has not been reached. -/
theorem takeFound_of_short (h : takeFound judge limit visits = .ok found)
    (short : found.length < limit) {more : Nat} (le : limit ≤ more) :
    takeFound judge more visits = .ok found := by
  induction visits generalizing limit found more with
  | nil =>
    rw [takeFound_nil] at h
    rw [takeFound_nil, h]
  | cons visit rest ih =>
    obtain ⟨limit, rfl⟩ : ∃ n, limit = n + 1 := ⟨limit - 1, by omega⟩
    obtain ⟨more, rfl⟩ : ∃ n, more = n + 1 := ⟨more - 1, by omega⟩
    obtain ⟨read, good, same, judged, h⟩ := takeFound_cons.1 h
    refine takeFound_cons.2 ⟨read, good, same, judged, ?_⟩
    cases good with
    | false => exact ih h short le
    | true =>
      obtain ⟨others, hothers, rfl⟩ := h
      have short := Nat.lt_of_succ_lt_succ short
      exact ⟨others, ih hothers short (Nat.le_of_succ_le_succ le), rfl⟩

/-- Nothing fails when every visit and every judgement succeeds. -/
theorem exists_takeFound (limit : Nat)
    (h : ∀ visit ∈ visits, ∃ read good, visit = .ok read ∧ judge read = .ok good) :
    ∃ found, takeFound judge limit visits = .ok found := by
  induction visits generalizing limit with
  | nil => exact ⟨[], takeFound_nil⟩
  | cons visit rest ih =>
    cases limit with
    | zero => exact ⟨[], takeFound_zero⟩
    | succ limit =>
      have next (limit : Nat) := ih limit fun v hv => h v (List.mem_cons_of_mem _ hv)
      obtain ⟨read, good, same, judged⟩ := h visit List.mem_cons_self
      cases good with
      | false =>
        obtain ⟨found, hfound⟩ := next (limit + 1)
        exact ⟨found, takeFound_cons.2 ⟨read, false, same, judged, hfound⟩⟩
      | true =>
        obtain ⟨more, hmore⟩ := next limit
        exact ⟨_, takeFound_cons.2 ⟨read, true, same, judged, more, hmore, rfl⟩⟩

/-- What is found depends on the judgement of what is visited only. -/
theorem takeFound_congr {judge' : ReadCommit → Except Fault Bool}
    (same : ∀ read, .ok read ∈ visits → judge read = judge' read) (limit : Nat) :
    takeFound judge limit visits = takeFound judge' limit visits := by
  induction visits generalizing limit with
  | nil => rw [takeFound_nil, takeFound_nil]
  | cons visit rest ih =>
    have below := ih fun read mem => same read (List.mem_cons_of_mem _ mem)
    cases limit with
    | zero => rw [takeFound_zero, takeFound_zero]
    | succ limit =>
      cases visit with
      | error fault => rfl
      | ok read =>
        unfold takeFound
        dsimp only [bind, Except.bind]
        rw [same read List.mem_cons_self, below limit, below (limit + 1)]

end TakeFound

/-! ## Commits that pass the filters -/

namespace Repository

variable {repository : Repository} {disk : Disk} {store : CommitStore} {filters : Filters}
  {limit : Nat} {found : List FoundCommit} {id : ObjectId} {commit : Commit}

/-- A branch that the filter lets through, or the head if it does, leads to a commit. -/
def Reaches (repository : Repository) (disk : Disk) (branch : Option BranchFilter) (id : ObjectId) :
    Prop :=
  ∃ tips, repository.tips disk none = .ok tips ∧ ∃ tip ∈ tips,
    branch.all (·.accepts tip.1.text) = true ∧ (repository.reader disk).Leads tip.2 id

/-- A commit that a source finds when it is asked for enough of them. -/
structure Passes (repository : Repository) (disk : Disk) (store : CommitStore) (filters : Filters)
    (id : ObjectId) (commit : Commit) : Prop where
  read : (repository.reader disk).commit id = .ok commit
  reached : repository.Reaches disk filters.branch id
  good : repository.judge disk store filters ⟨id, commit⟩ = .ok true

theorem reaches_none : repository.Reaches disk none id ↔
    ∃ tips, repository.tips disk none = .ok tips ∧
      ∃ tip ∈ tips, (repository.reader disk).Leads tip.2 id := by
  simp [Reaches]

theorem Reaches.of_branch {branch : Option BranchFilter} (h : repository.Reaches disk branch id) :
    repository.Reaches disk none id := by
  obtain ⟨tips, htips, tip, mem, -, leads⟩ := h
  exact reaches_none.2 ⟨tips, htips, tip, mem, leads⟩

theorem Holds.reaches (h : repository.Holds disk id commit) : repository.Reaches disk none id :=
  reaches_none.2 h.2

theorem Passes.holds (h : repository.Passes disk store filters id commit) :
    repository.Holds disk id commit :=
  ⟨h.read, reaches_none.1 h.reached.of_branch⟩

/-- A filter keeps some of the branches. -/
theorem tips_eq_ok {branch : Option BranchFilter} {tips : List (BranchName × ObjectId)} :
    repository.tips disk branch = .ok tips ↔ ∃ all, repository.tips disk none = .ok all ∧
      tips = all.filter fun tip => branch.all (·.accepts tip.1.text) := by
  unfold Repository.tips
  constructor
  · intro h
    obtain ⟨branches, hbranches, h⟩ := bind_eq_ok.1 h
    obtain ⟨head, hhead, h⟩ := bind_eq_ok.1 h
    cases h
    refine ⟨_, bind_eq_ok.2 ⟨branches, hbranches, bind_eq_ok.2 ⟨head, hhead, rfl⟩⟩, ?_⟩
    rw [List.filter_filter]
    simp
  · rintro ⟨all, h, rfl⟩
    obtain ⟨branches, hbranches, h⟩ := bind_eq_ok.1 h
    obtain ⟨head, hhead, h⟩ := bind_eq_ok.1 h
    cases h
    refine bind_eq_ok.2 ⟨branches, hbranches, bind_eq_ok.2 ⟨head, hhead, ?_⟩⟩
    rw [List.filter_filter]
    simp
    rfl

theorem exists_tip_iff {tips : List (BranchName × ObjectId)}
    (h : repository.tips disk filters.branch = .ok tips) :
    (∃ t ∈ tips.map (·.2), (repository.reader disk).Leads t id) ↔
      repository.Reaches disk filters.branch id := by
  obtain ⟨all, hall, rfl⟩ := tips_eq_ok.1 h
  simp only [List.mem_map, List.mem_filter, exists_exists_and_eq_and]
  constructor
  · rintro ⟨tip, ⟨mem, accepted⟩, leads⟩
    exact ⟨all, hall, tip, mem, accepted, leads⟩
  · rintro ⟨all', hall', tip, mem, accepted, leads⟩
    obtain rfl := Except.ok.inj (hall.symm.trans hall')
    exact ⟨tip, ⟨mem, accepted⟩, leads⟩

theorem findCommits_eq_ok : repository.findCommits disk store filters limit = .ok found ↔
    ∃ tips, repository.tips disk filters.branch = .ok tips ∧
      takeFound (repository.judge disk store filters) limit
        ((repository.reader disk).history (tips.map (·.2))) = .ok found := by
  unfold findCommits
  exact bind_eq_ok

/-- Whatever a repository finds passes the filters. -/
theorem of_mem_findCommits (h : repository.findCommits disk store filters limit = .ok found)
    {f : FoundCommit} (hf : f ∈ found) :
    ∃ commit, repository.Passes disk store filters f.hash commit := by
  obtain ⟨tips, htips, h⟩ := findCommits_eq_ok.1 h
  obtain ⟨⟨id, commit⟩, mem, good, rfl⟩ := of_mem_takeFound h hf
  obtain ⟨read, reached⟩ := (ObjectReader.ok_mem_history _ _).1 mem
  exact ⟨commit, read, (exists_tip_iff htips).1 reached, good⟩

/-- A repository that does not reach the limit finds everything that passes the filters. -/
theorem mem_findCommits (h : repository.findCommits disk store filters limit = .ok found)
    (short : found.length < limit) (passes : repository.Passes disk store filters id commit) :
    ∃ f ∈ found, f.hash = id := by
  obtain ⟨tips, htips, h⟩ := findCommits_eq_ok.1 h
  refine ⟨_, mem_takeFound h short ?_ passes.good, rfl⟩
  exact (ObjectReader.ok_mem_history _ _).2 ⟨passes.read, (exists_tip_iff htips).2 passes.reached⟩

theorem nodup_findCommits (h : repository.findCommits disk store filters limit = .ok found) :
    (found.map (·.hash)).Nodup := by
  obtain ⟨tips, -, h⟩ := findCommits_eq_ok.1 h
  exact (map_hash_takeFound h).nodup (ObjectReader.nodup_history _ _)

/-- Asked for fewer commits, a repository finds the first of them. -/
theorem findCommits_take (h : repository.findCommits disk store filters limit = .ok found)
    {fewer : Nat} (le : fewer ≤ limit) :
    repository.findCommits disk store filters fewer = .ok (found.take fewer) := by
  obtain ⟨tips, htips, h⟩ := findCommits_eq_ok.1 h
  exact findCommits_eq_ok.2 ⟨tips, htips, takeFound_take h le⟩

theorem findCommits_of_short (h : repository.findCommits disk store filters limit = .ok found)
    (short : found.length < limit) {more : Nat} (le : limit ≤ more) :
    repository.findCommits disk store filters more = .ok found := by
  obtain ⟨tips, htips, h⟩ := findCommits_eq_ok.1 h
  exact findCommits_eq_ok.2 ⟨tips, htips, takeFound_of_short h short le⟩

/-- A readable repository can be asked when every commit it holds can be judged. -/
theorem exists_findCommits (readable : repository.Readable disk) (limit : Nat)
    (judged : ∀ id commit, repository.Holds disk id commit →
      ∃ good, repository.judge disk store filters ⟨id, commit⟩ = .ok good) :
    ∃ found, repository.findCommits disk store filters limit = .ok found := by
  obtain ⟨all, hall, reads⟩ := readable
  have htips := (@tips_eq_ok repository disk filters.branch _).2 ⟨all, hall, rfl⟩
  have held (id : ObjectId) (h : repository.Reaches disk filters.branch id) :
      ∃ tip ∈ all, (repository.reader disk).Leads tip.2 id := by
    obtain ⟨all', hall', tip, mem, -, leads⟩ := h
    obtain rfl := Except.ok.inj (hall.symm.trans hall')
    exact ⟨tip, mem, leads⟩
  obtain ⟨found, hfound⟩ := @exists_takeFound (repository.judge disk store filters) _ limit
    fun visit mem => by
      cases visit with
      | error fault =>
        obtain ⟨id, reached, cause, failed, -⟩ := (ObjectReader.error_mem_history _ _).1 mem
        obtain ⟨commit, read⟩ := reads id (held id ((exists_tip_iff htips).1 reached))
        rw [read] at failed
        cases failed
      | ok read =>
        obtain ⟨id, commit⟩ := read
        obtain ⟨read, reached⟩ := (ObjectReader.ok_mem_history _ _).1 mem
        have tip := held id ((exists_tip_iff htips).1 reached)
        obtain ⟨good, hgood⟩ := judged id commit ⟨read, all, hall, tip⟩
        exact ⟨_, good, rfl, hgood⟩
  exact ⟨found, findCommits_eq_ok.2 ⟨_, htips, hfound⟩⟩

/-! ## Filters that ask the same -/

variable {other : CommitStore} {a b : Filters}

/-- Neither the number of a commit nor the rest of a store makes a difference to a judgement. -/
theorem judge_congr (agree : Filters.AgreeAt repository.root a b) {i j : CommitIndex}
    (known : store.indexOf? ⟨id, repository.root⟩ = some i)
    (known' : other.indexOf? ⟨id, repository.root⟩ = some j) :
    repository.judge disk store a ⟨id, commit⟩ = repository.judge disk other b ⟨id, commit⟩ := by
  have paths := agree.paths
  unfold judge CommitStore.metadata?
  rw [known, known']
  dsimp only [Option.map_some]
  cases ha : a.paths with
  | none =>
    rw [ha] at paths
    rw [Option.map_eq_none_iff.1 paths.symm]
    exact congrArg Except.ok (agree.acceptsDetails BEq.rfl BEq.rfl rfl rfl (.inl ha))
  | some filter =>
    rw [ha] at paths
    obtain ⟨filter', hb, files⟩ := Option.map_eq_some_iff.1 paths.symm
    rw [hb]
    dsimp only
    -- the selection has the names of the paths only
    have selection : PathSelection.ofPaths (filter.filesForRoot repository.root) =
        PathSelection.ofPaths (filter'.filesForRoot repository.root) := by
      have names := congrArg (List.map (List.map Component.text)) files
      rw [List.map_map, List.map_map] at names
      unfold PathSelection.ofPaths
      rw [show (filter.filesForRoot repository.root).map PathSelection.namesOf = _ from names.symm]
      rfl
    rw [selection]
    refine congrArg _ (funext fun changed => ?_)
    exact congrArg Except.ok (agree.acceptsDetails BEq.rfl BEq.rfl rfl rfl (.inr rfl))

/-- A repository finds the same with filters that ask the same. -/
theorem findCommits_congr (agree : Filters.AgreeAt repository.root a b)
    (known : ∀ id commit, repository.Holds disk id commit →
      (∃ i, store.indexOf? ⟨id, repository.root⟩ = some i) ∧
        ∃ j, other.indexOf? ⟨id, repository.root⟩ = some j) (limit : Nat) :
    repository.findCommits disk store a limit = repository.findCommits disk other b limit := by
  unfold findCommits
  rw [← agree.branch]
  cases htips : repository.tips disk a.branch with
  | error fault => rfl
  | ok tips =>
    refine takeFound_congr (fun visit mem => ?_) limit
    obtain ⟨id, commit⟩ := visit
    obtain ⟨read, reached⟩ := (ObjectReader.ok_mem_history _ _).1 mem
    have reached := (exists_tip_iff htips).1 reached
    have holds : repository.Holds disk id commit := ⟨read, reaches_none.1 reached.of_branch⟩
    obtain ⟨⟨i, hi⟩, j, hj⟩ := known id commit holds
    exact judge_congr agree hi hj

/-! ## The answer of a source -/

/-- A commit that is judged good has a number. -/
theorem Passes.exists_number (h : repository.Passes disk store filters id commit) :
    ∃ i, store.indexOf? ⟨id, repository.root⟩ = some i := by
  have good := h.good
  unfold judge CommitStore.metadata? at good
  cases number : store.indexOf? ⟨id, repository.root⟩ with
  | none =>
    rw [number] at good
    cases good
  | some i => exact ⟨i, rfl⟩

/-- What a repository finds has numbers, each once. -/
theorem numbers_findCommits (inStep : store.InStep)
    (h : repository.findCommits disk store filters limit = .ok found) :
    let numbers := (found.map (·.hash)).filterMap fun hash =>
      store.indexOf? ⟨hash, repository.root⟩
    numbers.Nodup ∧ numbers.length = found.length := by
  intro numbers
  constructor
  · refine (nodup_findCommits h).filterMap ?_
    intro a b i ha hb
    exact (CommitId.beq_iff.1 (inStep.beq_of_indexOf? ha hb)).1
  · have total : found.length = (found.map (·.hash)).length := by rw [List.length_map]
    rw [total]
    refine List.filterMap_length_eq_length.2 ?_
    intro hash mem
    obtain ⟨f, hf, rfl⟩ := List.mem_map.1 mem
    obtain ⟨commit, passes⟩ := of_mem_findCommits h hf
    obtain ⟨i, hi⟩ := passes.exists_number
    rw [hi]
    rfl

/-- A repository finds no more commits than the store knows. -/
theorem length_findCommits_le
    (h : repository.findCommits disk store filters limit = .ok found) :
    found.length ≤ store.indices.size := by
  have differ : (found.map fun f => CommitId.mk f.hash repository.root).Pairwise
      fun a b => ¬ (a == b) = true := by
    refine List.pairwise_map.2 ((List.pairwise_map.1 (nodup_findCommits h)).imp ?_)
    exact fun differ same => differ (CommitId.beq_iff.1 same).1
  have bounded := @length_le_size_of_distinct _ _ _ _ _ _ store.indices _ differ fun id mem => by
    obtain ⟨f, hf, rfl⟩ := List.mem_map.1 mem
    obtain ⟨commit, passes⟩ := of_mem_findCommits h hf
    obtain ⟨i, number⟩ := passes.exists_number
    exact Std.HashMap.mem_iff_isSome_getElem?.2 (Option.isSome_of_eq_some number)
  rwa [List.length_map] at bounded

/-- When the limit is greater than the store, a repository that is asked for any number of commits
finds the first of all. -/
theorem findCommits_all (great : store.indices.size < limit)
    (h : repository.findCommits disk store filters limit = .ok found) (count : Nat) :
    repository.findCommits disk store filters count = .ok (found.take count) := by
  rcases Nat.le_total count limit with le | le
  · exact findCommits_take h le
  · have bounded := length_findCommits_le h
    rw [List.take_of_length_le (by omega)]
    exact findCommits_of_short h (by omega) le

end Repository

end CommitLog
