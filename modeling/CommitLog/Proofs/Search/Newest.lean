import CommitLog.Proofs.Search.Cache
import Mathlib.Data.List.Sort

/-!
# A cache keeps the newest

The list of a cache has the ages of exactly the details in its table, newest first
(`RecentCache.Aged`).  Putting details in keeps this, so what is left after the oldest have been
dropped is the front of the list.

    cache.Aged → (cache.trim.get? i = some m ↔
      cache.get? i = some m ∧ m.age ∈ cache.byAge.take cache.capacity)
-/

namespace CommitLog

/-! ## Ages -/

namespace Age

variable {a b c : Age}

theorem isBefore_iff :
    a.isBefore b = true ↔ b.time < a.time ∨ (a.time = b.time ∧ a.index < b.index) := by
  simp [isBefore]

theorem isBefore_trans (hab : a.isBefore b = true) (hbc : b.isBefore c = true) :
    a.isBefore c = true := by
  rw [isBefore_iff] at *
  grind

theorem isBefore_total (a b : Age) : a.isBefore b = true ∨ a = b ∨ b.isBefore a = true := by
  obtain ⟨time, index⟩ := a
  obtain ⟨time', index'⟩ := b
  simp only [isBefore_iff, mk.injEq]
  grind

instance : Std.Irrefl fun a b : Age => a.isBefore b = true :=
  ⟨fun a before => by simp [isBefore_iff] at before⟩

instance : Std.Antisymm fun a b : Age => a.isBefore b = true :=
  ⟨fun a b hab hba => by
    simp only [isBefore_iff] at hab hba
    grind⟩

end Age

namespace RecentCache

variable {cache : RecentCache} {age : Age} {ages : List Age} {metadata m : Metadata}
  {batch : List Metadata} {i : CommitIndex}

theorem mem_insertAge {a : Age} : a ∈ insertAge age ages ↔ a = age ∨ a ∈ ages := by
  induction ages with
  | nil => simp [insertAge]
  | cons b rest ih =>
    unfold insertAge
    split
    · exact List.mem_cons
    · split
      · next same => simp [same]
      · rw [List.mem_cons, ih, List.mem_cons, or_left_comm]

theorem pairwise_insertAge (sorted : ages.Pairwise (·.isBefore ·)) :
    (insertAge age ages).Pairwise (·.isBefore ·) := by
  induction ages with
  | nil => exact List.pairwise_singleton _ _
  | cons b rest ih =>
    obtain ⟨first, below⟩ := List.pairwise_cons.1 sorted
    unfold insertAge
    split
    · next before =>
      refine List.pairwise_cons.2 ⟨fun c hc => ?_, sorted⟩
      rcases List.mem_cons.1 hc with rfl | hc
      · exact before
      · exact Age.isBefore_trans before (first c hc)
    split
    · exact sorted
    next notBefore other =>
    refine List.pairwise_cons.2 ⟨fun c hc => ?_, ih below⟩
    rcases mem_insertAge.1 hc with rfl | hc
    · exact ((Age.isBefore_total _ _).resolve_left notBefore).resolve_left other
    · exact first c hc

/-! ## The two tables -/

/-- The table has the details of commits under their numbers, and the list has the ages of these,
newest first. -/
structure Aged (cache : RecentCache) : Prop where
  numbered : ∀ i m, cache.get? i = some m → m.index = i
  sorted : cache.byAge.Pairwise (·.isBefore ·)
  ages : ∀ age, age ∈ cache.byAge ↔ ∃ m, cache.get? age.index = some m ∧ m.age = age

theorem aged_empty (capacity : Nat) : (empty capacity).Aged :=
  ⟨fun i m => by simp, .nil, fun age => by simp [empty, get?]⟩

/-- A commit that is put in has one age only. -/
theorem Aged.mem_byAge_put (aged : cache.Aged) :
    age ∈ (cache.put metadata).byAge ↔
      age = metadata.age ∨ (age ∈ cache.byAge ∧ age.index ≠ metadata.index) := by
  unfold put
  dsimp only
  rw [mem_insertAge]
  refine or_congr_right ?_
  split
  · next previous known =>
    rw [List.mem_filter, decide_eq_true_iff]
    refine and_congr_right fun mem => not_congr ⟨?_, fun same => ?_⟩
    · rintro rfl
      exact aged.numbered _ _ known
    · obtain ⟨m, found, rfl⟩ := (aged.ages age).1 mem
      rw [same] at found
      rw [Option.some.inj (found.symm.trans known)]
  · next unknown =>
    refine (and_iff_left_of_imp fun mem same => ?_).symm
    obtain ⟨m, found, -⟩ := (aged.ages age).1 mem
    rw [same] at found
    cases unknown.symm.trans found

theorem Aged.put (aged : cache.Aged) (metadata : Metadata) : (cache.put metadata).Aged := by
  refine ⟨fun i m found => ?_, ?_, fun age => ?_⟩
  · rw [get?_put] at found
    split at found
    · next same => exact Option.some.inj found ▸ same
    · exact aged.numbered i m found
  · refine pairwise_insertAge ?_
    split
    · exact aged.sorted.filter _
    · exact aged.sorted
  · rw [aged.mem_byAge_put, get?_put, aged.ages]
    by_cases same : metadata.index = age.index
    · simp only [same, if_true, ne_eq, not_true_eq_false, and_false, or_false,
        Option.some.injEq, exists_eq_left']
      exact eq_comm
    · have other : age ≠ metadata.age := fun h => same (congrArg Age.index h).symm
      simp only [same, other, Ne.symm same, if_false, ne_eq, not_false_eq_true, and_true, false_or]

theorem Aged.foldl_put (aged : cache.Aged) (batch : List Metadata) :
    (batch.foldl RecentCache.put cache).Aged := by
  induction batch generalizing cache with
  | nil => exact aged
  | cons metadata batch ih => exact ih (aged.put metadata)

/-- The details with the first ages stay. -/
theorem Aged.get?_trim (aged : cache.Aged) :
    cache.trim.get? i = some m ↔
      cache.get? i = some m ∧ m.age ∈ cache.byAge.take cache.capacity := by
  have apart := List.disjoint_take_drop aged.sorted.nodup (Nat.le_refl cache.capacity)
  have split (age : Age) : age ∈ cache.byAge ↔
      age ∈ cache.byAge.take cache.capacity ∨ age ∈ cache.byAge.drop cache.capacity := by
    rw [← List.mem_append, List.take_append_drop]
  rw [RecentCache.get?_trim]
  by_cases dropped : ∃ age ∈ cache.byAge.drop cache.capacity, age.index = i
  · rw [if_pos dropped]
    obtain ⟨age, mem, rfl⟩ := dropped
    obtain ⟨own, known, rfl⟩ := (aged.ages age).1 ((split _).2 (.inr mem))
    refine ⟨nofun, fun ⟨found, first⟩ => ?_⟩
    rw [Option.some.inj (found.symm.trans known)] at first
    exact absurd mem (apart first)
  · rw [if_neg dropped]
    refine (and_iff_left_of_imp fun found => ?_).symm
    obtain rfl := aged.numbered i m found
    have mem := (aged.ages m.age).2 ⟨m, found, rfl⟩
    exact ((split _).1 mem).resolve_right fun last => dropped ⟨_, last, rfl⟩

/-! ## One batch -/

/-- All of a batch of different commits is in an empty cache before the oldest are dropped. -/
theorem get?_foldl_put_empty {capacity : Nat} (differ : (batch.map (·.index)).Nodup) :
    (batch.foldl put (empty capacity)).get? i = some m ↔ m ∈ batch ∧ m.index = i := by
  have within := (within_empty capacity).foldl_put batch
  refine ⟨within i m, ?_⟩
  rintro ⟨mem, rfl⟩
  obtain ⟨own, found⟩ := @exists_get?_foldl_put (empty capacity) batch _ (.inr ⟨m, mem, rfl⟩)
  obtain ⟨memOwn, same⟩ := within _ own found
  obtain rfl := List.inj_on_of_nodup_map differ memOwn mem same
  exact found

/-- An empty cache keeps of different commits those with the first ages. -/
theorem get?_store_empty {capacity : Nat} (differ : (batch.map (·.index)).Nodup)
    (sorted : ages.Pairwise (·.isBefore ·))
    (members : ∀ age, age ∈ ages ↔ ∃ m ∈ batch, m.age = age) :
    ((empty capacity).store batch).get? i = some m ↔
      m ∈ batch ∧ m.index = i ∧ m.age ∈ ages.take capacity := by
  have aged := (aged_empty capacity).foldl_put batch
  have list : (batch.foldl put (empty capacity)).byAge = ages := by
    refine aged.sorted.eq_of_mem_iff sorted fun age => ?_
    rw [aged.ages, members]
    simp only [get?_foldl_put_empty differ]
    refine exists_congr fun m => ⟨fun h => ⟨h.1.1, h.2⟩, fun h => ⟨⟨h.1, ?_⟩, h.2⟩⟩
    rw [← h.2]
    rfl
  unfold store
  rw [aged.get?_trim, get?_foldl_put_empty differ, list, capacity_foldl_put, and_assoc]
  rfl

end RecentCache

end CommitLog
