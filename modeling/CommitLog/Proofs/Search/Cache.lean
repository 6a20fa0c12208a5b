import CommitLog.Search.Cache

/-!
# What a cache holds

A cache that was empty holds some of the details that it was given (`RecentCache.within_store`), and
all of them when it has room (`RecentCache.exists_get?_store`).
-/

namespace CommitLog

namespace RecentCache

/-- Whatever is in a cache is one of some details, under its number. -/
def Within (cache : RecentCache) (ms : List Metadata) : Prop :=
  ∀ i m, cache.get? i = some m → m ∈ ms ∧ m.index = i

variable {cache : RecentCache} {ms batch : List Metadata}

@[simp]
theorem get?_empty (capacity : Nat) (i : CommitIndex) : (empty capacity).get? i = none := by
  simp [empty, get?]

theorem get?_put (cache : RecentCache) (metadata : Metadata) (i : CommitIndex) :
    (cache.put metadata).get? i = if metadata.index = i then some metadata else cache.get? i := by
  simp [put, get?, Std.HashMap.getElem?_insert]

theorem within_empty (capacity : Nat) : (empty capacity).Within [] := by
  intro i m h
  rw [get?_empty] at h
  cases h

theorem Within.put (metadata : Metadata) (h : cache.Within ms) :
    (cache.put metadata).Within (ms ++ [metadata]) := by
  intro i m found
  rw [get?_put] at found
  split at found
  · next same =>
    obtain rfl := Option.some.inj found
    exact ⟨by simp, same⟩
  · obtain ⟨mem, index⟩ := h i m found
    exact ⟨List.mem_append_left _ mem, index⟩

theorem Within.foldl_put (batch : List Metadata) (h : cache.Within ms) :
    (batch.foldl RecentCache.put cache).Within (ms ++ batch) := by
  induction batch generalizing cache ms with
  | nil => simpa using h
  | cons metadata batch ih => simpa using ih (h.put metadata)

theorem getElem?_foldl_erase (ages : List Age) (table : Std.HashMap CommitIndex Metadata)
    (i : CommitIndex) : (ages.foldl (fun table age => table.erase age.index) table)[i]? =
      if ∃ age ∈ ages, age.index = i then none else table[i]? := by
  induction ages generalizing table with
  | nil => simp
  | cons age ages ih =>
    rw [List.foldl_cons, ih, Std.HashMap.getElem?_erase]
    by_cases same : age.index = i
    · simp [same]
    · simp [same]

theorem get?_trim (cache : RecentCache) (i : CommitIndex) : cache.trim.get? i =
    if ∃ age ∈ cache.byAge.drop cache.capacity, age.index = i then none else cache.get? i :=
  getElem?_foldl_erase _ _ i

theorem within_store (capacity : Nat) (batch : List Metadata) :
    ((empty capacity).store batch).Within batch := by
  intro i m found
  unfold store at found
  rw [get?_trim] at found
  split at found
  · cases found
  · exact (within_empty capacity).foldl_put batch i m found

/-! ## Room for everything -/

theorem length_insertAge_le (age : Age) (ages : List Age) :
    (insertAge age ages).length ≤ ages.length + 1 := by
  induction ages with
  | nil => exact Nat.le_refl _
  | cons a ages ih =>
    unfold insertAge
    split
    · exact Nat.le_refl _
    · split
      · exact Nat.le_succ _
      · exact Nat.succ_le_succ ih

theorem length_byAge_put_le (cache : RecentCache) (metadata : Metadata) :
    (cache.put metadata).byAge.length ≤ cache.byAge.length + 1 := by
  refine Nat.le_trans (length_insertAge_le _ _) (Nat.succ_le_succ ?_)
  split
  · exact List.length_filter_le _ _
  · exact Nat.le_refl _

theorem length_byAge_foldl_put_le (cache : RecentCache) (batch : List Metadata) :
    (batch.foldl put cache).byAge.length ≤ cache.byAge.length + batch.length := by
  induction batch generalizing cache with
  | nil => exact Nat.le_refl _
  | cons metadata batch ih =>
    have first := length_byAge_put_le cache metadata
    have rest := ih (cache.put metadata)
    rw [List.foldl_cons, List.length_cons]
    omega

theorem capacity_foldl_put (cache : RecentCache) (batch : List Metadata) :
    (batch.foldl put cache).capacity = cache.capacity := by
  induction batch generalizing cache with
  | nil => rfl
  | cons metadata batch ih => exact ih (cache.put metadata)

/-- What has been put in stays until it is put in again. -/
theorem exists_get?_foldl_put {i : CommitIndex}
    (h : (∃ m, cache.get? i = some m) ∨ ∃ m ∈ batch, m.index = i) :
    ∃ m, (batch.foldl put cache).get? i = some m := by
  induction batch generalizing cache with
  | nil =>
    rcases h with h | ⟨m, mem, -⟩
    · exact h
    · cases mem
  | cons metadata batch ih =>
    rw [List.foldl_cons]
    have kept : (∃ m, cache.get? i = some m) ∨ metadata.index = i →
        ∃ m, (cache.put metadata).get? i = some m := by
      intro h
      rw [get?_put]
      split
      · exact ⟨metadata, rfl⟩
      · next other => exact h.resolve_right other
    rcases h with h | ⟨m, mem, index⟩
    · exact ih (.inl (kept (.inl h)))
    · rcases List.mem_cons.1 mem with rfl | mem
      · exact ih (.inl (kept (.inr index)))
      · exact ih (.inr ⟨m, mem, index⟩)

/-- A cache with room for a batch keeps all of it. -/
theorem exists_get?_store {capacity : Nat} (room : batch.length ≤ capacity) {m : Metadata}
    (mem : m ∈ batch) : ∃ m', ((empty capacity).store batch).get? m.index = some m' := by
  have short : (batch.foldl put (empty capacity)).byAge.length ≤ capacity := by
    have := length_byAge_foldl_put_le (empty capacity) batch
    rw [show (empty capacity).byAge.length = 0 from rfl] at this
    omega
  obtain ⟨m', found⟩ := @exists_get?_foldl_put (empty capacity) batch _ (.inr ⟨m, mem, rfl⟩)
  refine ⟨m', ?_⟩
  unfold store
  rw [get?_trim, capacity_foldl_put, show (empty capacity).capacity = capacity from rfl,
    List.drop_eq_nil_of_le short, if_neg (by simp)]
  exact found

end RecentCache

end CommitLog
