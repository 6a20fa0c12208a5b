import CommitLog.Proofs.Graph.Registered

/-!
# Partial hashes by a scan of all commits

The commits that a partial hash names are found in the table of hashes, by a scan from the first
hash that begins with the digits to the next one that does not.  A scan of all commits, one
repository at a time, finds the same (`CommitStore.resolve_eq_tableScan`).

    empty.registerAll ids = .ok (numbers, store) →
      store.resolve text = if IsPartial (typed text) then store.tableScan (typed text) else []
-/

namespace CommitLog

namespace CommitStore

variable {store : CommitStore} {digits : List Char} {root : Path} {i j : CommitIndex}

/-- Whether a number is that of a commit at the root whose hash begins with the digits. -/
def fitsAt (store : CommitStore) (digits : List Char) (root : Path) (j : CommitIndex) : Bool :=
  (store.commitId? j).any fun other => other.root == root && other.hash.startsWith digits

/-- The numbers that fit at a root. -/
def scanAt (store : CommitStore) (digits : List Char) (root : Path) : List CommitIndex :=
  (List.range store.size).filter (store.fitsAt digits root)

/-- The numbers that are the only ones to fit at their own roots. -/
def tableScan (store : CommitStore) (digits : List Char) : List CommitIndex :=
  (List.range store.size).filter fun i =>
    (store.root? i).any fun root => store.scanAt digits root == [i]

theorem fitsAt_iff : store.fitsAt digits root j = true ↔ ∃ other, store.commitId? j = some other ∧
    (other.root == root) = true ∧ other.hash.startsWith digits = true := by
  simp only [fitsAt, Option.any_eq_true, Bool.and_eq_true]

theorem mem_scanAt : j ∈ store.scanAt digits root ↔ store.fitsAt digits root j = true := by
  rw [scanAt, List.mem_filter, List.mem_range]
  constructor
  · exact fun h => h.2
  · intro fits
    obtain ⟨other, known, -⟩ := fitsAt_iff.1 fits
    exact ⟨lt_size_of_commitId? known, fits⟩

theorem pairwise_scanAt : (store.scanAt digits root).Pairwise (· < ·) :=
  List.pairwise_lt_range.filter _

/-- A scan reads the commits by number and no other table. -/
theorem tableScan_congr {other : CommitStore} (same : store.ids = other.ids) :
    store.tableScan digits = other.tableScan digits := by
  have fits : store.fitsAt digits = other.fitsAt digits := by
    funext root j
    simp only [fitsAt, commitId?, same]
  simp only [tableScan, scanAt, root?, commitId?, size, same, fits]

theorem pairwise_tableScan : (store.tableScan digits).Pairwise (· < ·) :=
  List.pairwise_lt_range.filter _

/-- A scan has one result when nothing else fits. -/
theorem scanAt_eq_singleton : store.scanAt digits root = [i] ↔
    store.fitsAt digits root i = true ∧ ∀ j, store.fitsAt digits root j = true → j = i := by
  constructor
  · intro single
    have mem (j : CommitIndex) : j ∈ [i] ↔ store.fitsAt digits root j = true := by
      rw [← single, mem_scanAt]
    refine ⟨(mem i).1 (List.mem_singleton_self i), fun j fits => ?_⟩
    exact List.mem_singleton.1 ((mem j).2 fits)
  · rintro ⟨own, only⟩
    refine pairwise_scanAt.eq_of_mem_iff (List.pairwise_singleton _ _) fun {j} => ?_
    rw [mem_scanAt, List.mem_singleton]
    constructor
    · exact only j
    · rintro rfl
      exact own

theorem mem_tableScan : i ∈ store.tableScan digits ↔ store.IsNamedBy digits i := by
  unfold tableScan IsNamedBy
  rw [List.mem_filter, List.mem_range, Option.any_eq_true]
  simp only [beq_iff_eq, scanAt_eq_singleton, fitsAt_iff]
  constructor
  · rintro ⟨-, root, hroot, ⟨own, known, same, starts⟩, only⟩
    have hroot : own.root = root := by
      rw [root?, known, Option.map_some] at hroot
      exact Option.some.inj hroot
    subst hroot
    exact ⟨own, known, starts, fun j other hother startsOther sameOther =>
      only j ⟨other, hother, sameOther, startsOther⟩⟩
  · rintro ⟨own, known, starts, only⟩
    have hroot : store.root? i = some own.root := by rw [root?, known, Option.map_some]
    refine ⟨lt_size_of_commitId? known, own.root, hroot, ⟨own, known, BEq.rfl, starts⟩, ?_⟩
    rintro j ⟨other, hother, sameOther, startsOther⟩
    exact only j other hother startsOther sameOther

theorem Indexed.pairwise_resolve (indexed : store.Indexed) (text : String) :
    (store.resolve text).Pairwise (· < ·) := by
  unfold resolve
  cases ObjectId.normalPrefix? text with
  | none => exact .nil
  | some digits =>
    dsimp only
    generalize hfound : (store.candidates digits).filter _ = found
    have nodup : found.Nodup := hfound ▸ (indexed.nodup_candidates digits).filter _
    have sorted : (found.mergeSort (· ≤ ·)).Pairwise (· ≤ ·) := by
      refine (List.pairwise_mergeSort ?_ ?_ found).imp of_decide_eq_true
      · exact fun a b c => by simpa using Nat.le_trans
      · exact fun a b => by simpa using Nat.le_total a b
    have distinct : (found.mergeSort (· ≤ ·)).Nodup :=
      (List.mergeSort_perm _ _).nodup_iff.2 nodup
    exact (sorted.and distinct).imp fun {a b} h => Nat.lt_of_le_of_ne h.1 h.2

/-- **Partial hashes.**  In a store that commits have been registered in, a text names, in ascending
order, the commits for which it is four to forty digits that begin their hashes and no other hash at
the same root.  A scan of all commits finds the same. -/
theorem resolve_eq_tableScan (ids : List CommitId) (numbers : List CommitIndex)
    (store : CommitStore) (run : empty.registerAll ids = .ok (numbers, store)) (text : String) :
    (store.resolve text).Pairwise (· < ·) ∧
    (∀ i, i ∈ store.resolve text ↔ ObjectId.IsPartial (ObjectId.typed text) ∧
      ∃ own, store.commitId? i = some own ∧ own.hash.startsWith (ObjectId.typed text) = true ∧
        ∀ j other, store.commitId? j = some other →
          other.hash.startsWith (ObjectId.typed text) = true →
          (other.root == own.root) = true → j = i) ∧
    store.resolve text = if ObjectId.IsPartial (ObjectId.typed text) then
      store.tableScan (ObjectId.typed text) else [] := by
  have indexed : store.Indexed := (sound_empty.registerAll run).1.indexed
  have named (i : CommitIndex) : i ∈ store.resolve text ↔
      ObjectId.IsPartial (ObjectId.typed text) ∧ store.IsNamedBy (ObjectId.typed text) i := by
    rw [indexed.mem_resolve]
    simp only [ObjectId.normalPrefix?_eq_some_iff]
    constructor
    · rintro ⟨_, ⟨digits, rfl⟩, own⟩
      exact ⟨digits, own⟩
    · rintro ⟨digits, own⟩
      exact ⟨_, ⟨digits, rfl⟩, own⟩
  refine ⟨indexed.pairwise_resolve text, named, ?_⟩
  split
  · next digits =>
    refine (indexed.pairwise_resolve text).eq_of_mem_iff pairwise_tableScan fun {i} => ?_
    rw [named, mem_tableScan]
    exact and_iff_right digits
  · next none =>
    exact List.eq_nil_iff_forall_not_mem.2 fun i mem => none ((named i).1 mem).1

/-- Two hashes in one repository begin with the same digits, and one of them is in another one,
too. -/
theorem resolve_eq_tableScan_shared :
    let first : ObjectId := ⟨171 :: 193 :: List.replicate 18 0, rfl⟩
    let second : ObjectId := ⟨171 :: 193 :: List.replicate 18 1, rfl⟩
    let ids : List CommitId := [⟨first, ⟨"/a"⟩⟩, ⟨first, ⟨"/b"⟩⟩, ⟨second, ⟨"/a/"⟩⟩]
    ∃ store, empty.registerAll ids = .ok ([0, 1, 2], store) ∧ store.resolve " ABC1 " = [1] ∧
      store.resolve "abc100" = [0, 1] ∧ store.resolve "abc" = [] := by
  intro first second ids
  obtain ⟨⟨numbers, store⟩, run⟩ := @Sound.exists_registerAll empty ids sound_empty (by
    rw [unknown_empty]
    decide +kernel)
  have known := numbers_registerAll run
  obtain rfl : numbers = [0, 1, 2] := known.eq_of_places (by decide +kernel)
  have scan (digits : List Char) : store.tableScan digits =
      (⟨ids.eraseDups.toArray, ∅, []⟩ : CommitStore).tableScan digits :=
    tableScan_congr (Array.toList_inj.1 known.toList_ids)
  have short : store.tableScan "abc1".toList = [1] := (scan _).trans (by decide +kernel)
  have long : store.tableScan "abc100".toList = [0, 1] := (scan _).trans (by decide +kernel)
  have scanned (text : String) := (resolve_eq_tableScan _ _ store run text).2.2
  refine ⟨store, run, ?_, ?_, ?_⟩
  · exact (scanned " ABC1 ").trans ((if_pos (by decide)).trans short)
  · exact (scanned "abc100").trans ((if_pos (by decide)).trans long)
  · exact (scanned "abc").trans (if_neg (by decide))

end CommitStore

end CommitLog
