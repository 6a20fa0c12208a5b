import CommitLog.Proofs.Graph.Cycles
import CommitLog.Proofs.Search.Dependence
import CommitLog.Proofs.Session.Loaded
import CommitLog.Session.Log

/-!
# Memory does not show

Details are taken from the cache, from what has been loaded since, or from the repository again.  A
session is `Faithful` when the first two say what the third would, apart from the files that a
commit changes.  A new session is, and every use keeps it so; hence sessions that differ in nothing
but their memory write the same logs (`Session.log_of_cold`), and the size of the cache does not
show (`Session.openAt_transparent`).

    session.Faithful disk → (session.details disk i).map (·.1.plain) = session.readDetails disk i
    a.cold = b.cold → a.Faithful disk → b.Faithful disk → (b.log ..).lines = (a.log ..).lines
-/

namespace CommitLog

/-- The details without the files that the commit changes, as they are read again. -/
def Metadata.plain (metadata : Metadata) : Metadata := { metadata with changedPaths := none }

/-- Whatever a search shows, it shows rows of the graph. -/
theorem Searcher.exists_row_of_mem_search {searcher : Searcher} {history : LoadedHistory}
    {sort : SortOrder} {filters : Filters} {stage : Stage} {i : CommitIndex}
    (wellFormed : history.graph.WellFormed)
    (shown : i ∈ (searcher.search history sort filters stage).graph.commits) :
    ∃ c ∈ history.graph.rows, c.index = i := by
  have row (heads commits : Option CommitSet)
      (mem : i ∈ (history.graph.visible sort heads commits).commits) :
      ∃ c ∈ history.graph.rows, c.index = i :=
    (((PermanentGraph.commits_visible_iff wellFormed sort heads commits).2 i).1 mem).1.1
  unfold Searcher.search at shown
  split at shown
  · exact row _ _ shown
  · dsimp only at shown
    split at shown
    · cases shown
    · exact row _ _ shown

namespace Session

variable {disk : Disk} {session a b : Session} {indexed : List Path} {loaded : LoadedRoots}
  {i : CommitIndex} {repository : Repository} {id : ObjectId} {commit : Commit} {m : Metadata}

/-! ## Memory -/

/-- The session with nothing in memory. -/
def cold (session : Session) : Session := { session with recent := .empty 0, loaded := .empty }

/-- What is in memory is what would be read again. -/
def Faithful (session : Session) (disk : Disk) : Prop :=
  ∀ i m, session.known? i = some m → session.readDetails disk i = .ok m.plain

theorem readDetails_of_cold (same : a.cold = b.cold) : a.readDetails disk = b.readDetails disk :=
  congrArg (·.readDetails disk) same

/-- What is read again has no changed files. -/
theorem plain_readDetails (read : session.readDetails disk i = .ok m) :
    m.plain = m ∧ m.index = i := by
  unfold readDetails at read
  split at read
  case h_2 => cases read
  split at read
  case h_2 => cases read
  obtain ⟨commit, -, read⟩ := bind_eq_ok.1 read
  cases read
  exact ⟨rfl, rfl⟩

/-- A faithful session gives the details that would be read. -/
theorem Faithful.details_eq (faithful : session.Faithful disk) (i : CommitIndex) :
    (session.details disk i).map (·.1.plain) = session.readDetails disk i := by
  unfold details
  cases known : session.known? i with
  | some m => exact (faithful i m known).symm
  | none =>
    cases read : session.readDetails disk i with
    | error fault => rfl
    | ok m => exact congrArg Except.ok (plain_readDetails read).1

theorem Faithful.exists_details (faithful : session.Faithful disk)
    (read : session.readDetails disk i = .ok m) :
    ∃ n after, session.details disk i = .ok (n, after) ∧ n.plain = m := by
  rw [← faithful.details_eq] at read
  obtain ⟨⟨n, after⟩, found, plain⟩ := map_eq_ok.1 read
  exact ⟨n, after, found, plain⟩

/-- Asking for details changes nothing but the memory, and that stays faithful. -/
theorem Faithful.asked {after : Session} (faithful : session.Faithful disk)
    (h : session.details disk i = .ok (m, after)) :
    after.cold = session.cold ∧ after.Faithful disk := by
  unfold details at h
  split at h
  · cases h
    exact ⟨rfl, faithful⟩
  next absent =>
  obtain ⟨metadata, read, same⟩ := map_eq_ok.1 h
  cases same
  obtain ⟨plain, index⟩ := plain_readDetails read
  refine ⟨rfl, fun j n known => ?_⟩
  change session.readDetails disk j = _
  by_cases same : i = j
  · subst same
    obtain ⟨old, -⟩ := Option.or_eq_none_iff.1 absent
    have given : n = m := by
      simpa [known?, old, MetadataStore.get?, MetadataStore.insert, index, eq_comm] using known
    rw [read, given, plain]
  · refine faithful j n ?_
    simpa [known?, MetadataStore.get?, MetadataStore.insert, Std.HashMap.getElem?_insert, index,
      same] using known

/-! ## Logs -/

/-- Sessions that differ in memory only fail alike or give the same details. -/
theorem details_of_cold (same : a.cold = b.cold) (ha : a.Faithful disk) (hb : b.Faithful disk)
    (i : CommitIndex) :
    (∃ fault, a.details disk i = .error fault ∧ b.details disk i = .error fault) ∨
      ∃ m n afterA afterB, a.details disk i = .ok (m, afterA) ∧
        b.details disk i = .ok (n, afterB) ∧ m.plain = n.plain := by
  have read : (a.details disk i).map (·.1.plain) = (b.details disk i).map (·.1.plain) := by
    rw [ha.details_eq, hb.details_eq, readDetails_of_cold same]
  cases hda : a.details disk i with
  | error fault =>
    cases hdb : b.details disk i with
    | error fault' =>
      rw [hda, hdb] at read
      cases read
      exact .inl ⟨fault, rfl, rfl⟩
    | ok found =>
      rw [hda, hdb] at read
      cases read
  | ok found =>
    cases hdb : b.details disk i with
    | error fault =>
      rw [hda, hdb] at read
      cases read
    | ok found' =>
      rw [hda, hdb] at read
      exact .inr ⟨found.1, found'.1, found.2, found'.2, rfl, rfl, Except.ok.inj read⟩

/-- The files that a commit changes are not shown. -/
theorem logLines_of_cold (same : a.cold = b.cold) {m n : Metadata} (plain : m.plain = n.plain)
    (options : LogOptions) (color isFirst : Bool) :
    a.logLines options color isFirst m = b.logLines options color isFirst n :=
  calc a.logLines options color isFirst m
    _ = a.cold.logLines options color isFirst m.plain := rfl
    _ = b.cold.logLines options color isFirst n.plain := by rw [same, plain]

theorem Faithful.writeCommits (faithful : session.Faithful disk) (options : LogOptions)
    (color isFirst : Bool) (commits : List CommitIndex) :
    let run := session.writeCommits disk options color isFirst commits
    run.2.1.cold = session.cold ∧ run.2.1.Faithful disk := by
  induction commits generalizing session isFirst with
  | nil => exact ⟨rfl, faithful⟩
  | cons i commits ih =>
    unfold Session.writeCommits
    cases h : session.details disk i with
    | error fault => exact ⟨rfl, faithful⟩
    | ok found =>
      obtain ⟨same, still⟩ := faithful.asked h
      obtain ⟨same', still'⟩ := ih still false
      exact ⟨same'.trans same, still'⟩

/-- Commits that can be read are written to the end. -/
theorem Faithful.outcome_writeCommits (faithful : session.Faithful disk) (options : LogOptions)
    (color isFirst : Bool) {commits : List CommitIndex}
    (readable : ∀ i ∈ commits, ∃ m, session.readDetails disk i = .ok m) :
    (session.writeCommits disk options color isFirst commits).2.2 = .ok () := by
  induction commits generalizing session isFirst with
  | nil => rfl
  | cons i commits ih =>
    obtain ⟨m, read⟩ := readable i List.mem_cons_self
    obtain ⟨n, after, found, -⟩ := faithful.exists_details read
    obtain ⟨same, still⟩ := faithful.asked found
    unfold Session.writeCommits
    rw [found]
    refine ih still false fun j hj => ?_
    rw [readDetails_of_cold same]
    exact readable j (List.mem_cons_of_mem _ hj)

/-- Sessions that differ in memory only write the same lines and end alike. -/
theorem writeCommits_of_cold (same : a.cold = b.cold) (ha : a.Faithful disk) (hb : b.Faithful disk)
    (options : LogOptions) (color isFirst : Bool) (commits : List CommitIndex) :
    (a.writeCommits disk options color isFirst commits).1 =
        (b.writeCommits disk options color isFirst commits).1 ∧
      (a.writeCommits disk options color isFirst commits).2.2 =
        (b.writeCommits disk options color isFirst commits).2.2 := by
  induction commits generalizing a b isFirst with
  | nil => exact ⟨rfl, rfl⟩
  | cons i commits ih =>
    unfold Session.writeCommits
    rcases details_of_cold same ha hb i with
      ⟨fault, failsA, failsB⟩ | ⟨m, n, afterA, afterB, foundA, foundB, plain⟩
    · rw [failsA, failsB]
      exact ⟨rfl, rfl⟩
    · rw [foundA, foundB]
      obtain ⟨coldA, stillA⟩ := ha.asked foundA
      obtain ⟨coldB, stillB⟩ := hb.asked foundB
      have same' : afterA.cold = afterB.cold := coldA.trans (same.trans coldB.symm)
      obtain ⟨lines, outcome⟩ := ih same' stillA stillB false
      have first := logLines_of_cold same' plain options color isFirst
      exact ⟨congrArg₂ (· ++ ·) first lines, outcome⟩

/-- After the first stage, sessions that differ in memory only find the same. -/
theorem search_of_cold (same : a.cold = b.cold) {stage : Stage} (later : stage ≠ .initial)
    (sort : SortOrder) (filters : Filters) :
    a.search disk sort filters stage = b.search disk sort filters stage := by
  have forget (session : Session) :
      session.cold.search disk sort filters stage = session.search disk sort filters stage := by
    have user : session.cold.resolveUser filters = session.resolveUser filters := rfl
    unfold search
    rw [user]
    exact @Searcher.search_memory (session.searcher disk) session.history _ stage sort later
      (.empty 0) .empty
  rw [← forget a, same, forget b]

theorem log_of_filters (session : Session) (color : Bool) {options : LogOptions} {filters : Filters}
    (h : options.filters disk = .ok filters) :
    let result := session.search disk options.order filters options.stage
    let run := session.writeCommits disk options color true result.graph.commits
    session.log disk options color = ⟨run.1, run.2.1, run.2.2.map fun _ =>
      ⟨result.graph.commits.length, result.stage, result.canWiden⟩⟩ := by
  unfold log
  rw [h]

theorem log_of_fault (session : Session) (color : Bool) {options : LogOptions} {fault : Fault}
    (h : options.filters disk = .error fault) :
    session.log disk options color = ⟨[], session, .error fault⟩ := by
  unfold log
  rw [h]

theorem Faithful.log (faithful : session.Faithful disk) (options : LogOptions) (color : Bool) :
    (session.log disk options color).session.cold = session.cold ∧
      (session.log disk options color).session.Faithful disk := by
  cases h : options.filters disk with
  | error fault =>
    rw [log_of_fault session color h]
    exact ⟨rfl, faithful⟩
  | ok filters =>
    rw [log_of_filters session color h]
    exact faithful.writeCommits options color true _

/-- After the first stage, sessions that differ in memory only write the same logs. -/
theorem log_of_cold (same : a.cold = b.cold) (ha : a.Faithful disk) (hb : b.Faithful disk)
    {options : LogOptions} (later : options.stage ≠ .initial) (color : Bool) :
    (a.log disk options color).lines = (b.log disk options color).lines ∧
      (a.log disk options color).outcome = (b.log disk options color).outcome := by
  cases h : options.filters disk with
  | error fault =>
    rw [log_of_fault a color h, log_of_fault b color h]
    exact ⟨rfl, rfl⟩
  | ok filters =>
    rw [log_of_filters a color h, log_of_filters b color h, search_of_cold same later]
    obtain ⟨lines, outcome⟩ := writeCommits_of_cold same ha hb options color true
      (b.search disk options.order filters options.stage).graph.commits
    exact ⟨lines, by rw [outcome]⟩

/-! ## Any use of a session -/

/-- What a session can be asked. -/
inductive Use where
  | details (i : CommitIndex)
  | log (options : LogOptions) (color : Bool)

def use (session : Session) (disk : Disk) : Use → Session
  | .details i => match session.details disk i with
    | .ok (_, after) => after
    | .error _ => session
  | .log options color => (session.log disk options color).session

def after (session : Session) (disk : Disk) (uses : List Use) : Session :=
  uses.foldl (·.use disk ·) session

theorem Faithful.use (faithful : session.Faithful disk) (use : Use) :
    (session.use disk use).cold = session.cold ∧ (session.use disk use).Faithful disk := by
  cases use with
  | details i =>
    unfold Session.use
    dsimp only
    split
    · next h => exact faithful.asked h
    · exact ⟨rfl, faithful⟩
  | log options color => exact faithful.log options color

theorem Faithful.after (faithful : session.Faithful disk) (uses : List Use) :
    (session.after disk uses).cold = session.cold ∧ (session.after disk uses).Faithful disk := by
  induction uses generalizing session with
  | nil => exact ⟨rfl, faithful⟩
  | cons use uses ih =>
    obtain ⟨same, still⟩ := faithful.use use
    obtain ⟨same', still'⟩ := ih still
    exact ⟨same'.trans same, still'⟩

/-! ## A new session -/

/-- What is read of a commit. -/
theorem Opened.readDetails_eq (opened : session.Opened disk indexed loaded)
    (h : session.HasCommit disk i repository id commit) :
    session.readDetails disk i = .ok (.ofCommit i ⟨id, repository.root⟩
      (session.store.parentsOf repository.root commit) commit) := by
  obtain ⟨row, hrow, rfl, parents, -⟩ := opened.row_of_hasCommit h
  unfold Session.readDetails
  rw [opened.commitId?_eq h]
  dsimp only
  rw [opened.get?_repositories h.opened BEq.rfl]
  refine bind_eq_ok.2 ⟨commit, h.holds.1, ?_⟩
  rw [opened.wellFormed.parents hrow, parents]
  rfl

/-- A new session is faithful. -/
theorem faithful_of_openAt {paths : List Path} {settings : SessionSettings}
    (run : openAt paths settings disk = .ok session) : session.Faithful disk := by
  obtain ⟨indexed, loaded, opened, recent⟩ := opened_of_openAt run
  intro i m known
  rw [known?_of_openAt run, recent] at known
  obtain ⟨mem, rfl⟩ := RecentCache.within_store _ _ i m known
  obtain ⟨repository, hrepository, commit, holds, number, read⟩ := (opened.covers.metadata m).1 mem
  rw [← opened.store] at number read
  rw [opened.readDetails_eq ⟨hrepository, holds, number⟩]
  have plain := congrArg Metadata.plain (LoadedRoots.details_eq_ok.1 read).1
  exact congrArg Except.ok plain.symm

/-- **The size of the cache does not show.**  Sessions of the same repositories that differ in the
size of their caches, each of them used in any way before, write the same logs at every stage after
the first, and these do not fail unless the options do; and the details of every commit are the same
but for the files that it changes. -/
theorem openAt_transparent {paths : List Path} {settings : SessionSettings}
    (run : openAt paths settings disk = .ok a) (size : Nat) :
    ∃ b, openAt paths { settings with cacheSize := size } disk = .ok b ∧
      ∀ before before' : List Use,
        (∀ (options : LogOptions) (color : Bool), options.stage ≠ .initial →
          let own := (a.after disk before).log disk options color
          let other := (b.after disk before').log disk options color
          other.lines = own.lines ∧ other.outcome = own.outcome ∧
            ∀ filters, options.filters disk = .ok filters → ∃ summary, own.outcome = .ok summary) ∧
        ∀ i < a.store.size, ∃ m n,
          ((a.after disk before).details disk i).map (·.1) = .ok m ∧
            ((b.after disk before').details disk i).map (·.1) = .ok n ∧ n.plain = m.plain := by
  obtain ⟨indexed, loaded, opened, -⟩ := opened_of_openAt run
  obtain ⟨recent, again⟩ := exists_openAt_cacheSize run size
  refine ⟨_, again, fun before before' => ?_⟩
  obtain ⟨coldA, faithfulA⟩ := (faithful_of_openAt run).after before
  obtain ⟨coldB, faithfulB⟩ := (faithful_of_openAt again).after before'
  set a' := a.after disk before
  set b' := ({ a with recent := recent } : Session).after disk before'
  have same : b'.cold = a'.cold := coldB.trans coldA.symm
  have readable (i : CommitIndex)
      (h : ∃ repository id commit, a.HasCommit disk i repository id commit) :
      ∃ m, a'.readDetails disk i = .ok m := by
    obtain ⟨repository, id, commit, has⟩ := h
    rw [readDetails_of_cold coldA, opened.readDetails_eq has]
    exact ⟨_, rfl⟩
  refine ⟨fun options color later => ?_, fun i stored => ?_⟩
  · obtain ⟨lines, outcome⟩ := log_of_cold same faithfulB faithfulA later color
    refine ⟨lines, outcome, fun filters h => ?_⟩
    have history : a'.history = a.history := congrArg (·.history) coldA
    have wellFormed : a'.history.graph.WellFormed := history ▸ opened.wellFormed
    rw [log_of_filters a' color h]
    dsimp only
    rw [faithfulA.outcome_writeCommits options color true fun i shown => ?_]
    · exact ⟨_, rfl⟩
    · have row := Searcher.exists_row_of_mem_search wellFormed shown
      rw [history] at row
      exact readable i (opened.exists_row.1 row)
  · obtain ⟨m, read⟩ := readable i (opened.exists_number_iff.2 stored)
    obtain ⟨own, _, foundA, plainA⟩ := faithfulA.exists_details read
    rw [← readDetails_of_cold same] at read
    obtain ⟨other, _, foundB, plainB⟩ := faithfulB.exists_details read
    exact ⟨own, other, by rw [foundA]; rfl, by rw [foundB]; rfl, plainB.trans plainA.symm⟩

/-- Sessions of the sample with room for all commits and for one of them, the second asked for
details and for a log before. -/
theorem openAt_transparent_one : ∃ a b,
    openAt [Disk.pathOf Sample.root] Sample.narrow Sample.disk = .ok a ∧
    openAt [Disk.pathOf Sample.root] { Sample.narrow with cacheSize := 1 } Sample.disk = .ok b ∧
      let options := { LogOptions.standard with stage := .all }
      let own := (a.after Sample.disk []).log Sample.disk options false
      let used := b.after Sample.disk [.details 1, .log .standard true]
      let other := used.log Sample.disk options false
      other.lines = own.lines ∧
        ∃ summary, own.outcome = .ok summary ∧ other.outcome = .ok summary := by
  obtain ⟨a, run⟩ := Sample.exists_session Sample.narrow rfl
  obtain ⟨b, again, alike⟩ := openAt_transparent run 1
  refine ⟨a, b, run, again, ?_⟩
  intro options own used other
  obtain ⟨logs, -⟩ := alike [] [.details 1, .log .standard true]
  obtain ⟨lines, outcome, succeeds⟩ := logs options false nofun
  obtain ⟨summary, ends⟩ := succeeds .none rfl
  exact ⟨lines, summary, ends, outcome.trans ends⟩

end Session

end CommitLog
