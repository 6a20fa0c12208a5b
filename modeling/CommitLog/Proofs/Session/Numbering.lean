import CommitLog.Proofs.Graph.Resolve
import CommitLog.Proofs.Session.Loading

/-!
# In what order commits are numbered

The commits of a repository get numbers one after the other in the order of the walk through its
history, whatever has been read before (`LoadedRoots.ids_add`).  So they have the numbers that they
get when the repository is read alone, all of them greater by a constant.

    repositories.foldlM (LoadedRoots.add disk indexed) .empty = .ok loaded →
    LoadedRoots.add disk indexed .empty repository = .ok alone →
      ∃ k, ∀ j own, alone.store.commitId? j = some own → loaded.store.commitId? (k + j) = some own
-/

namespace CommitLog

namespace LoadedRoots

variable {disk : Disk} {indexed : List Path} {repository : Repository}

/-! ## One history -/

/-- New commits get numbers in their order. -/
theorem ids_number {root : Path} {store final : CommitStore} {reads reads' : List ReadCommit}
    (differ : (reads.map (·.id)).Nodup)
    (new : ∀ r ∈ reads, store.indexOf? ⟨r.id, root⟩ = none)
    (h : number root store (reads.map .ok) = .ok (reads', final)) :
    final.ids.toList = store.ids.toList ++ reads.map fun r => ⟨r.id, root⟩ := by
  induction reads generalizing store reads' with
  | nil =>
    cases h
    rw [List.map_nil, List.append_nil]
  | cons read reads ih =>
    obtain ⟨first, rest⟩ := List.nodup_cons.1 differ
    obtain ⟨_, same, h⟩ := bind_eq_ok.1 h
    cases same
    obtain ⟨⟨i, middle⟩, hregister, h⟩ := bind_eq_ok.1 h
    obtain ⟨⟨more, final'⟩, hrest, h⟩ := bind_eq_ok.1 h
    cases h
    have pushed := CommitStore.ids_register (new read List.mem_cons_self) hregister
    have still : ∀ r ∈ reads, middle.indexOf? ⟨r.id, root⟩ = none := by
      intro r hr
      rw [CommitStore.indexOf?_register_of_ne hregister, new r (List.mem_cons_of_mem _ hr)]
      intro same
      have hash : read.id = r.id := (CommitId.beq_iff.1 same).1
      exact first (List.mem_map.2 ⟨r, hr, hash.symm⟩)
    rw [ih rest still hrest, pushed, Array.toList_push, List.append_assoc]
    rfl

/-- Numbering keeps the table of hashes. -/
theorem indexed_number {root : Path} {store final : CommitStore}
    {visits : List (Except Fault ReadCommit)} {reads : List ReadCommit} (table : store.Indexed)
    (h : number root store visits = .ok (reads, final)) : final.Indexed := by
  induction visits generalizing store reads with
  | nil =>
    cases h
    exact table
  | cons visit rest ih =>
    obtain ⟨read, -, h⟩ := bind_eq_ok.1 h
    obtain ⟨⟨i, middle⟩, hregister, h⟩ := bind_eq_ok.1 h
    obtain ⟨⟨more, final'⟩, hrest, h⟩ := bind_eq_ok.1 h
    cases h
    exact ih (table.register hregister) hrest

/-! ## One more repository -/

theorem indexed_add {loaded next : LoadedRoots} (table : loaded.store.Indexed)
    (h : add disk indexed loaded repository = .ok next) : next.store.Indexed := by
  obtain ⟨tips, -, h⟩ := bind_eq_ok.1 h
  obtain ⟨⟨reads, store⟩, hnumber, h⟩ := bind_eq_ok.1 h
  obtain ⟨ms, -, h⟩ := bind_eq_ok.1 h
  cases h
  exact indexed_number table hnumber

/-- The commits of a new repository come last, in the order of the walk through its history. -/
theorem ids_add {done : List Repository} {loaded next : LoadedRoots}
    (covers : Covers disk indexed done loaded)
    (new : ∀ r ∈ done, ¬ (r.root == repository.root) = true)
    (h : add disk indexed loaded repository = .ok next) :
    ∃ tips, ∃ reads : List ReadCommit, repository.tips disk none = .ok tips ∧
      (repository.reader disk).history (tips.map (·.2)) = reads.map .ok ∧
      next.store.ids.toList =
        loaded.store.ids.toList ++ reads.map fun r => ⟨r.id, repository.root⟩ := by
  obtain ⟨tips, htips, h⟩ := bind_eq_ok.1 h
  obtain ⟨⟨reads, store⟩, hnumber, h⟩ := bind_eq_ok.1 h
  obtain ⟨ms, -, h⟩ := bind_eq_ok.1 h
  cases h
  obtain ⟨hhistory, -⟩ := number_spec covers.inStep covers.room hnumber
  have differ := (repository.reader disk).nodup_history (tips.map (·.2))
  rw [hhistory, readsOf_map_ok] at differ
  rw [hhistory] at hnumber
  refine ⟨tips, reads, htips, hhistory, ids_number differ (fun r _ => ?_) hnumber⟩
  refine covers.inStep.indexOf?_eq_none_iff.2 fun own hown same => ?_
  obtain ⟨d, hd, root, -⟩ := covers.ids own hown
  refine new d hd ?_
  rw [← root]
  exact (CommitId.beq_iff.1 same).2

/-! ## All repositories -/

theorem indexed_foldlM {repositories : List Repository} {loaded : LoadedRoots}
    (h : repositories.foldlM (add disk indexed) .empty = .ok loaded) : loaded.store.Indexed :=
  foldlM_induction (fun _ loaded => loaded.store.Indexed) h CommitStore.indexed_empty
    fun _ _ _ _ table _ run => indexed_add table run

/-- Reading more repositories leaves the numbers as they are. -/
theorem extends_foldlM {done repositories : List Repository} {start loaded : LoadedRoots}
    (covers : Covers disk indexed done start)
    (h : repositories.foldlM (add disk indexed) start = .ok loaded) :
    loaded.store.Extends start.store := by
  have run := foldlM_induction (fun more now => Covers disk indexed (done ++ more) now ∧
    now.store.Extends start.store) h ⟨by rwa [List.append_nil], .refl _⟩ ?_
  · exact run.2
  · rintro more r now next ⟨coversNow, grown⟩ - run
    obtain ⟨ms, adds⟩ := add_spec coversNow.inStep coversNow.room run
    refine ⟨?_, adds.grows.trans grown⟩
    rw [← List.append_assoc]
    exact coversNow.add run

/-- The commits of a repository have the numbers that they have alone, greater by a constant. -/
theorem exists_shift {repositories : List Repository} {loaded alone : LoadedRoots}
    (apart : repositories.Pairwise fun a b => ¬ (a.root == b.root) = true)
    (mem : repository ∈ repositories)
    (h : repositories.foldlM (add disk indexed) .empty = .ok loaded)
    (hAlone : add disk indexed .empty repository = .ok alone) :
    ∃ k, ∀ j own, alone.store.commitId? j = some own →
      loaded.store.commitId? (k + j) = some own := by
  obtain ⟨before, after, rfl⟩ := List.append_of_mem mem
  rw [List.foldlM_append] at h
  obtain ⟨first, hfirst, h⟩ := bind_eq_ok.1 h
  rw [List.foldlM_cons] at h
  obtain ⟨next, hnext, h⟩ := bind_eq_ok.1 h
  have covers := covers_foldlM hfirst
  have new : ∀ r ∈ before, ¬ (r.root == repository.root) = true := fun r hr =>
    (List.pairwise_append.1 apart).2.2 r hr repository List.mem_cons_self
  obtain ⟨tips, reads, htips, hhistory, ids⟩ := ids_add covers new hnext
  obtain ⟨tips', reads', htips', hhistory', idsAlone⟩ :=
    ids_add (covers_empty disk indexed) (by simp) hAlone
  -- both times the history of the repository is the same
  obtain rfl := Except.ok.inj (htips.symm.trans htips')
  obtain rfl : reads = reads' := by
    refine List.map_injective_iff.2 (fun a b => Except.ok.inj) (hhistory.symm.trans hhistory')
  have later := extends_foldlM (covers.add hnext) h
  refine ⟨first.store.ids.toList.length, fun j own known => later.commitId? ?_⟩
  rw [CommitStore.commitId?_eq, idsAlone] at known
  rw [CommitStore.commitId?_eq, ids, List.getElem?_append_right (Nat.le_add_right _ _),
    Nat.add_sub_cancel_left]
  exact known

end LoadedRoots

end CommitLog
