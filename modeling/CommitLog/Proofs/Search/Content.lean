import CommitLog.Proofs.Search.Newest

/-!
# The content of a cache

A cache stands for one list of details, newest first (`RecentCache.content`), of which its two
tables say the same at all times.  Storing a batch puts its details into the list one after the
other, each in place of what was known of its commit, and cuts the list off at the capacity.

    cache.byAge = cache.content.map (·.age)
    (cache.store batch).content =
      (newestFirst (batch.foldl override cache.content)).take cache.capacity
-/

namespace CommitLog

/-! ## Lists of details -/

namespace Metadata

variable {known : List Metadata} {metadata m : Metadata} {batch : List Metadata}

/-- Puts details among others, in place of what was known of their commit. -/
def override (known : List Metadata) (metadata : Metadata) : List Metadata :=
  metadata :: known.filter (·.index ≠ metadata.index)

/-- The details by descending time of the commit, then by ascending number. -/
def newestFirst (known : List Metadata) : List Metadata :=
  known.mergeSort fun a b => !b.age.isBefore a.age

def Newer (a b : Metadata) : Prop := a.age.isBefore b.age = true

instance : Std.Irrefl Newer where
  irrefl a before := by simp [Newer, Age.isBefore_iff] at before

instance : Std.Antisymm Newer where
  antisymm a b hab hba := by
    simp only [Newer, Age.isBefore_iff] at hab hba
    grind

theorem mem_override : m ∈ override known metadata ↔
    m = metadata ∨ (m ∈ known ∧ m.index ≠ metadata.index) := by
  simp [override]

theorem nodup_foldl_override (distinct : (known.map (·.index)).Nodup) (batch : List Metadata) :
    ((batch.foldl override known).map (·.index)).Nodup := by
  induction batch generalizing known with
  | nil => exact distinct
  | cons metadata batch ih =>
    apply ih
    have kept := (List.filter_sublist (l := known) (p := (·.index ≠ metadata.index))).map (·.index)
    refine List.nodup_cons.mpr ⟨?_, distinct.sublist kept⟩
    simp

theorem mem_newestFirst : m ∈ newestFirst known ↔ m ∈ known :=
  (List.mergeSort_perm known _).mem_iff

theorem pairwise_newestFirst (distinct : (known.map (·.index)).Nodup) :
    (newestFirst known).Pairwise Newer := by
  have perm : (newestFirst known).Perm known := List.mergeSort_perm known _
  have sorted : (newestFirst known).Pairwise fun a b => (!b.age.isBefore a.age) = true := by
    apply List.pairwise_mergeSort
    · intro a b c hab hbc
      simp only [Bool.not_eq_true', Bool.eq_false_iff, ne_eq, Age.isBefore_iff] at *
      grind
    · intro a b
      simp only [Bool.or_eq_true, Bool.not_eq_true', Bool.eq_false_iff, ne_eq, Age.isBefore_iff]
      grind
  have differ : (newestFirst known).Pairwise fun a b => a.index ≠ b.index :=
    List.pairwise_map.mp ((perm.map _).nodup_iff.mpr distinct)
  refine (sorted.and differ).imp ?_
  rintro a b ⟨notAfter, differ⟩
  show a.age.isBefore b.age = true
  rcases Age.isBefore_total a.age b.age with before | same | after
  · exact before
  · exact absurd (congrArg Age.index same) differ
  · rw [after] at notAfter
    cases notAfter

end Metadata

open Metadata (override newestFirst Newer)

namespace RecentCache

variable {cache : RecentCache} {metadata m : Metadata} {batch known : List Metadata}
  {i : CommitIndex} {capacity : Nat}

/-! ## Two tables, one list -/

/-- What a cache holds, newest first. -/
def content (cache : RecentCache) : List Metadata :=
  cache.byAge.filterMap fun age => cache.get? age.index

theorem Aged.mem_content (aged : cache.Aged) :
    m ∈ cache.content ↔ cache.get? m.index = some m := by
  rw [content, List.mem_filterMap]
  constructor
  · rintro ⟨age, -, found⟩
    rwa [aged.numbered _ _ found]
  · intro found
    exact ⟨m.age, (aged.ages m.age).mpr ⟨m, found, rfl⟩, found⟩

theorem Aged.get?_eq_some_iff (aged : cache.Aged) :
    cache.get? i = some m ↔ m ∈ cache.content ∧ m.index = i := by
  rw [aged.mem_content]
  constructor
  · intro found
    have number := aged.numbered i m found
    exact ⟨number ▸ found, number⟩
  · rintro ⟨found, rfl⟩
    exact found

theorem Aged.eq_of_index (aged : cache.Aged) {a b : Metadata} (ha : a ∈ cache.content)
    (hb : b ∈ cache.content) (same : a.index = b.index) : a = b := by
  rw [aged.mem_content] at ha hb
  rw [same] at ha
  exact Option.some.inj (ha.symm.trans hb)

theorem Aged.map_age_content (aged : cache.Aged) : cache.content.map (·.age) = cache.byAge := by
  have known : ∀ age ∈ cache.byAge, (cache.get? age.index).map (·.age) = some age := by
    intro age mem
    obtain ⟨m, found, same⟩ := (aged.ages age).mp mem
    rw [found, Option.map_some, same]
  rw [content, List.map_filterMap, List.filterMap_congr known, List.filterMap_some]

theorem Aged.pairwise_content (aged : cache.Aged) : cache.content.Pairwise Newer := by
  have sorted := aged.sorted
  rw [← aged.map_age_content, List.pairwise_map] at sorted
  exact sorted

theorem Aged.nodup_content (aged : cache.Aged) : (cache.content.map (·.index)).Nodup :=
  aged.pairwise_content.nodup.map_on fun _ ha _ hb => aged.eq_of_index ha hb

theorem Aged.size_eq (aged : cache.Aged) : cache.size = cache.content.length := by
  have keys : cache.byIndex.keys.Perm (cache.content.map (·.index)) := by
    rw [List.perm_ext_iff_of_nodup Std.HashMap.nodup_keys aged.nodup_content]
    intro i
    rw [Std.HashMap.mem_keys, Std.HashMap.mem_iff_isSome_getElem?, Option.isSome_iff_exists,
      List.mem_map]
    exact exists_congr fun m => aged.get?_eq_some_iff
  rw [size, ← Std.HashMap.length_keys, keys.length_eq, List.length_map]

/-! ## Storing -/

theorem Aged.trim (aged : cache.Aged) : cache.trim.Aged where
  numbered i m found := aged.numbered i m (aged.get?_trim.mp found).1
  sorted := aged.sorted.sublist (List.take_sublist _ _)
  ages age := by
    show age ∈ cache.byAge.take cache.capacity ↔ _
    constructor
    · intro front
      obtain ⟨m, found, rfl⟩ := (aged.ages age).mp (List.mem_of_mem_take front)
      exact ⟨m, aged.get?_trim.mpr ⟨found, front⟩, rfl⟩
    · rintro ⟨m, found, rfl⟩
      exact (aged.get?_trim.mp found).2

/-- What is too much is at the end of the list. -/
theorem Aged.content_trim (aged : cache.Aged) :
    cache.trim.content = cache.content.take cache.capacity := by
  refine aged.trim.pairwise_content.eq_of_mem_iff
    (aged.pairwise_content.sublist (List.take_sublist _ _)) fun m => ?_
  rw [aged.trim.mem_content, aged.get?_trim, ← aged.mem_content, ← aged.map_age_content,
    ← List.map_take, List.mem_map]
  constructor
  · rintro ⟨mem, front, first, same⟩
    rwa [← aged.eq_of_index (List.mem_of_mem_take first) mem (congrArg Age.index same)]
  · intro first
    exact ⟨List.mem_of_mem_take first, m, first, rfl⟩

theorem Aged.mem_content_put (aged : cache.Aged) :
    m ∈ (cache.put metadata).content ↔ m ∈ override cache.content metadata := by
  rw [(aged.put metadata).mem_content, get?_put, Metadata.mem_override, aged.mem_content]
  by_cases same : metadata.index = m.index
  · rw [if_pos same, Option.some.injEq]
    simp [same, eq_comm]
  · have differ : m ≠ metadata := fun equal => same (congrArg Metadata.index equal.symm)
    simp [same, differ, Ne.symm same]

theorem Aged.mem_content_foldl_put (aged : cache.Aged)
    (members : ∀ m, m ∈ cache.content ↔ m ∈ known) (batch : List Metadata) :
    m ∈ (batch.foldl RecentCache.put cache).content ↔ m ∈ batch.foldl override known := by
  induction batch generalizing cache known with
  | nil => exact members m
  | cons metadata batch ih =>
    apply ih (aged.put metadata)
    intro m
    rw [aged.mem_content_put, Metadata.mem_override, Metadata.mem_override, members]

theorem Aged.content_foldl_put (aged : cache.Aged) (batch : List Metadata) :
    (batch.foldl RecentCache.put cache).content =
      newestFirst (batch.foldl override cache.content) := by
  refine (aged.foldl_put batch).pairwise_content.eq_of_mem_iff
    (Metadata.pairwise_newestFirst (Metadata.nodup_foldl_override aged.nodup_content batch))
    fun m => ?_
  rw [Metadata.mem_newestFirst]
  exact aged.mem_content_foldl_put (fun _ => Iff.rfl) batch

theorem Aged.store (aged : cache.Aged) (batch : List Metadata) : (cache.store batch).Aged :=
  (aged.foldl_put batch).trim

theorem Aged.content_store (aged : cache.Aged) (batch : List Metadata) :
    (cache.store batch).content =
      (newestFirst (batch.foldl override cache.content)).take cache.capacity := by
  rw [RecentCache.store, (aged.foldl_put batch).content_trim, aged.content_foldl_put,
    capacity_foldl_put]

theorem capacity_store (cache : RecentCache) (batch : List Metadata) :
    (cache.store batch).capacity = cache.capacity :=
  capacity_foldl_put cache batch

theorem capacity_foldl_store (cache : RecentCache) (batches : List (List Metadata)) :
    (batches.foldl store cache).capacity = cache.capacity := by
  induction batches generalizing cache with
  | nil => rfl
  | cons batch batches ih => exact (ih _).trans (capacity_store cache batch)

theorem Aged.foldl_store (aged : cache.Aged) (batches : List (List Metadata)) :
    (batches.foldl RecentCache.store cache).Aged := by
  induction batches generalizing cache with
  | nil => exact aged
  | cons batch batches ih => exact ih (aged.store batch)

theorem length_content_foldl_store_le (capacity : Nat) (batches : List (List Metadata)) :
    (batches.foldl store (empty capacity)).content.length ≤ capacity := by
  rcases List.eq_nil_or_concat batches with rfl | ⟨front, batch, rfl⟩
  · exact Nat.zero_le _
  · have aged := (aged_empty capacity).foldl_store front
    rw [List.concat_eq_append, List.foldl_append, List.foldl_cons, List.foldl_nil,
      aged.content_store, capacity_foldl_store]
    exact List.length_take_le _ _

/-- **Whatever has been stored, a cache holds the newest of what it held before and of the batch.**
Its list of ages and its table have the same commits, as many as there is room for at most. -/
theorem content_stores (capacity : Nat) (batches : List (List Metadata)) :
    let cache := batches.foldl store (empty capacity)
    cache.byAge = cache.content.map (·.age) ∧ cache.byAge.Pairwise (·.isBefore ·) ∧
    (∀ i m, cache.get? i = some m ↔ m ∈ cache.content ∧ m.index = i) ∧
    cache.size = cache.content.length ∧ cache.size ≤ capacity ∧
    ∀ batch, (cache.store batch).content =
      (newestFirst (batch.foldl override cache.content)).take capacity := by
  intro cache
  have aged : cache.Aged := (aged_empty capacity).foldl_store batches
  have room : cache.capacity = capacity := capacity_foldl_store _ batches
  refine ⟨aged.map_age_content.symm, aged.sorted, ?_, aged.size_eq, ?_, ?_⟩
  · intro i m
    exact aged.get?_eq_some_iff
  · rw [aged.size_eq]
    exact length_content_foldl_store_le capacity batches
  · intro batch
    rw [aged.content_store, room]

end RecentCache

end CommitLog
