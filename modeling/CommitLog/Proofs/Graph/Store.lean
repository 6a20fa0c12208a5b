import CommitLog.Graph.CommitStore
import CommitLog.Proofs.Path.Order

/-!
# Numbers of commits

The commits by number and the table of their numbers are in step (`CommitStore.InStep`): the number
of a commit and the commit of a number belong together.  Every registration keeps them so
(`CommitStore.register_spec`), and as a store only grows, numbers that are given stay.

    store.InStep → (store.indexOf? id = some i ↔ ∃ own, store.commitId? i = some own ∧ own == id)
-/

namespace CommitLog

theorem CommitId.beq_iff {a b : CommitId} :
    (a == b) = true ↔ a.hash = b.hash ∧ (a.root == b.root) = true := by
  change CommitId.same a b = true ↔ _
  rw [CommitId.same, Bool.and_eq_true, beq_iff_eq]

instance : EquivBEq CommitId where
  rfl := CommitId.beq_iff.2 ⟨rfl, BEq.rfl⟩
  symm h := by
    obtain ⟨hash, root⟩ := CommitId.beq_iff.1 h
    exact CommitId.beq_iff.2 ⟨hash.symm, BEq.symm root⟩
  trans h₁ h₂ := by
    obtain ⟨hash₁, root₁⟩ := CommitId.beq_iff.1 h₁
    obtain ⟨hash₂, root₂⟩ := CommitId.beq_iff.1 h₂
    exact CommitId.beq_iff.2 ⟨hash₁.trans hash₂, BEq.trans root₁ root₂⟩

/-- Other spellings of a root do not change where a commit is looked up. -/
instance : LawfulHashable CommitId where
  hash_eq a b same := by
    obtain ⟨id, root⟩ := CommitId.beq_iff.1 same
    have roots : Hashable.hash a.root = Hashable.hash b.root := hash_eq root
    show mixHash (Hashable.hash a.hash) _ = mixHash (Hashable.hash b.hash) _
    rw [id, roots]

/-- A table has no fewer entries than there are different keys in it. -/
theorem length_le_size_of_distinct {α β : Type} [BEq α] [Hashable α] [EquivBEq α] [LawfulHashable α]
    {table : Std.HashMap α β} {keys : List α}
    (distinct : keys.Pairwise fun a b => ¬ (a == b) = true) (known : ∀ key ∈ keys, key ∈ table) :
    keys.length ≤ table.size := by
  induction keys generalizing table with
  | nil => exact Nat.zero_le _
  | cons key rest ih =>
    obtain ⟨own, others⟩ := List.pairwise_cons.1 distinct
    obtain ⟨mem, memRest⟩ := List.forall_mem_cons.1 known
    have left := @ih (table.erase key) others fun other h =>
      Std.HashMap.mem_erase.2 ⟨Bool.eq_false_iff.2 (own other h), memRest other h⟩
    rw [Std.HashMap.size_erase, if_pos mem] at left
    have some : table.size ≠ 0 := by
      have filled := Std.HashMap.isEmpty_eq_false_iff_exists_mem.2 ⟨key, mem⟩
      rw [Std.HashMap.isEmpty_eq_size_eq_zero] at filled
      exact beq_eq_false_iff_ne.1 filled
    rw [List.length_cons]
    omega

namespace CommitStore

/-- No commit has two numbers. -/
def Distinct (store : CommitStore) : Prop :=
  store.ids.toList.Pairwise fun a b => ¬ (a == b) = true

/-- A later store has all numbers of an earlier one. -/
def Extends (later earlier : CommitStore) : Prop := earlier.ids.toList <+: later.ids.toList

theorem Extends.refl (store : CommitStore) : store.Extends store := List.prefix_refl _

theorem Extends.trans {a b c : CommitStore} (hab : a.Extends b) (hbc : b.Extends c) :
    a.Extends c := List.IsPrefix.trans hbc hab

variable {store later final : CommitStore} {id : CommitId} {i : CommitIndex}

theorem commitId?_eq : store.commitId? i = store.ids.toList[i]? := by
  rw [commitId?, Array.getElem?_toList]

theorem Distinct.eq (distinct : store.Distinct) {i j : CommitIndex} {a b : CommitId}
    (ha : store.commitId? i = some a) (hb : store.commitId? j = some b) (same : (a == b) = true) :
    i = j := by
  rw [commitId?_eq, List.getElem?_eq_some_iff] at ha hb
  obtain ⟨hi, rfl⟩ := ha
  obtain ⟨hj, rfl⟩ := hb
  rcases Nat.lt_trichotomy i j with lt | rfl | lt
  · exact absurd same (List.pairwise_iff_getElem.1 distinct i j hi hj lt)
  · rfl
  · exact absurd (BEq.symm same) (List.pairwise_iff_getElem.1 distinct j i hj hi lt)

theorem Extends.commitId? (h : later.Extends store) {own : CommitId}
    (known : store.commitId? i = some own) : later.commitId? i = some own := by
  obtain ⟨rest, hrest⟩ := h
  rw [commitId?_eq] at *
  rw [← hrest, List.getElem?_append_left (List.getElem?_eq_some_iff.1 known).1, known]

theorem lt_size_of_commitId? {own : CommitId} (known : store.commitId? i = some own) :
    i < store.size := by
  rw [commitId?_eq, List.getElem?_eq_some_iff] at known
  exact known.1

theorem indexOf?_congr {other : CommitId} (same : (id == other) = true) :
    store.indexOf? id = store.indexOf? other :=
  Std.HashMap.getElem?_congr same

theorem indexOf?_empty : empty.indexOf? id = none := Std.HashMap.getElem?_empty

/-! ## Tables in step -/

/-- The commits by number and the table of their numbers say the same. -/
structure InStep (store : CommitStore) : Prop where
  indexOf?_eq_some : ∀ {id i}, store.indexOf? id = some i ↔
    ∃ own, store.commitId? i = some own ∧ (own == id) = true
  size_indices : store.indices.size = store.size

theorem inStep_empty : empty.InStep where
  indexOf?_eq_some := by simp [indexOf?, commitId?, empty]
  size_indices := rfl

namespace InStep

theorem distinct (inStep : store.InStep) : store.Distinct := by
  refine List.pairwise_iff_getElem.2 fun i j hi hj before same => ?_
  have first : store.indexOf? store.ids.toList[j] = some i :=
    inStep.indexOf?_eq_some.2 ⟨_, commitId?_eq.trans (List.getElem?_eq_getElem hi), same⟩
  have second : store.indexOf? store.ids.toList[j] = some j :=
    inStep.indexOf?_eq_some.2 ⟨_, commitId?_eq.trans (List.getElem?_eq_getElem hj), BEq.rfl⟩
  exact Nat.ne_of_lt before (Option.some.inj (first.symm.trans second))

/-- Commits of one number are the same. -/
theorem beq_of_indexOf? (inStep : store.InStep) {a b : CommitId} (ha : store.indexOf? a = some i)
    (hb : store.indexOf? b = some i) : (a == b) = true := by
  obtain ⟨own, known, same⟩ := inStep.indexOf?_eq_some.1 ha
  obtain ⟨own', known', same'⟩ := inStep.indexOf?_eq_some.1 hb
  obtain rfl := Option.some.inj (known.symm.trans known')
  exact BEq.trans (BEq.symm same) same'

/-- Numbers are smaller than the number of commits. -/
theorem lt_size_of_indexOf? (inStep : store.InStep) (h : store.indexOf? id = some i) :
    i < store.size := by
  obtain ⟨own, known, -⟩ := inStep.indexOf?_eq_some.1 h
  exact lt_size_of_commitId? known

theorem indexOf?_eq_none_iff (inStep : store.InStep) : store.indexOf? id = none ↔
    ∀ own ∈ store.ids, ¬ (own == id) = true := by
  rw [Option.eq_none_iff_forall_ne_some]
  constructor
  · intro none own mem same
    obtain ⟨i, hi⟩ := Array.mem_iff_getElem?.1 mem
    exact none i (inStep.indexOf?_eq_some.2 ⟨own, hi, same⟩)
  · intro absent i known
    obtain ⟨own, hown, same⟩ := inStep.indexOf?_eq_some.1 known
    exact absent own (Array.mem_of_getElem? hown) same

end InStep

theorem Extends.indexOf? (h : later.Extends store) (inStep : store.InStep)
    (inStepLater : later.InStep) (known : store.indexOf? id = some i) :
    later.indexOf? id = some i := by
  obtain ⟨own, hown, same⟩ := inStep.indexOf?_eq_some.1 known
  exact inStepLater.indexOf?_eq_some.2 ⟨own, h.commitId? hown, same⟩

/-! ## Registrations -/

/-- A commit without number gets the next one, in all tables. -/
theorem insert_of_indexOf?_eq_none (absent : store.indexOf? id = none) : store.insert id =
    (store.size, ⟨store.ids.push id, store.indices.insert id store.size,
      addHash id.hash store.size store.byHash⟩) := by
  rw [insert, absent]

theorem insert_of_indexOf?_eq_some (known : store.indexOf? id = some i) :
    store.insert id = (i, store) := by
  rw [insert, known]

/-- The last number is that of the new commit. -/
theorem getElem?_push_eq_some {ids : Array CommitId} {own : CommitId} :
    (ids.push id)[i]? = some own ↔ ids[i]? = some own ∨ i = ids.size ∧ own = id := by
  rw [Array.getElem?_push]
  by_cases last : i = ids.size
  · rw [if_pos last, last, Array.getElem?_size]
    simp [eq_comm]
  · rw [if_neg last]
    simp [last]

/-- A new commit is looked up where it has been put, and every other one where it was. -/
theorem InStep.push (inStep : store.InStep) (new : store.indexOf? id = none)
    (byHash : List (ObjectId × List CommitIndex)) :
    InStep ⟨store.ids.push id, store.indices.insert id store.size, byHash⟩ := by
  have absent := inStep.indexOf?_eq_none_iff.1 new
  constructor
  · intro other i
    have old : store.indices[other]? = some i ↔ ∃ own, store.ids[i]? = some own ∧ _ :=
      inStep.indexOf?_eq_some
    simp only [CommitStore.indexOf?, CommitStore.commitId?, getElem?_push_eq_some]
    rw [Std.HashMap.getElem?_insert]
    by_cases same : (id == other) = true
    · rw [if_pos same]
      constructor
      · rintro ⟨⟩
        exact ⟨id, .inr ⟨rfl, rfl⟩, same⟩
      · rintro ⟨own, found | ⟨rfl, -⟩, sameOwn⟩
        · exact absurd (BEq.trans sameOwn (BEq.symm same))
            (absent own (Array.mem_of_getElem? found))
        · rfl
    · rw [if_neg same, old]
      constructor
      · rintro ⟨own, found, sameOwn⟩
        exact ⟨own, .inl found, sameOwn⟩
      · rintro ⟨own, found | ⟨-, rfl⟩, sameOwn⟩
        · exact ⟨own, found, sameOwn⟩
        · exact absurd sameOwn same
  · have notMem : ¬ id ∈ store.indices := by
      rw [Std.HashMap.mem_iff_isSome_getElem?, show store.indices[id]? = none from new]
      exact Bool.false_ne_true
    rw [Std.HashMap.size_insert, if_neg notMem, inStep.size_indices, size, size, Array.size_push]

theorem InStep.insert (inStep : store.InStep) (id : CommitId) : (store.insert id).2.InStep := by
  cases known : store.indexOf? id with
  | some i =>
    rw [insert_of_indexOf?_eq_some known]
    exact inStep
  | none =>
    rw [insert_of_indexOf?_eq_none known]
    exact inStep.push known _

/-- A commit can be registered when it has a number or there is one left. -/
theorem exists_register (room : store.indexOf? id = none → store.size < capacity) :
    ∃ i final, store.register id = .ok (i, final) := by
  unfold register
  cases known : store.indexOf? id with
  | some i => exact ⟨_, _, rfl⟩
  | none =>
    have left : ¬ capacity ≤ store.size := Nat.not_le_of_lt (room known)
    exact ⟨_, _, if_neg (by simpa using left)⟩

/-- A registration finds the number of a commit, or gives it the next one in all tables. -/
theorem register_cases (h : store.register id = .ok (i, final)) :
    store.indexOf? id = some i ∧ final = store ∨
    store.indexOf? id = none ∧ i = store.size ∧ store.size < capacity ∧
      final = ⟨store.ids.push id, store.indices.insert id store.size,
        addHash id.hash store.size store.byHash⟩ := by
  unfold register at h
  split at h
  · cases h
  next notFull =>
  cases known : store.indexOf? id with
  | some j =>
    rw [insert_of_indexOf?_eq_some known] at h
    cases h
    exact .inl ⟨rfl, rfl⟩
  | none =>
    rw [insert_of_indexOf?_eq_none known] at h
    cases h
    rw [known] at notFull
    exact .inr ⟨rfl, rfl, Nat.lt_of_not_le (by simpa using notFull), rfl⟩

/-- A commit without number comes last. -/
theorem ids_register (absent : store.indexOf? id = none)
    (h : store.register id = .ok (i, final)) : final.ids = store.ids.push id := by
  rcases register_cases h with ⟨known, -⟩ | ⟨-, -, -, rfl⟩
  · cases absent.symm.trans known
  · rfl

/-- Other commits are looked up as before. -/
theorem indexOf?_register_of_ne {other : CommitId} (h : store.register id = .ok (i, final))
    (differ : ¬ (id == other) = true) : final.indexOf? other = store.indexOf? other := by
  rcases register_cases h with ⟨-, rfl⟩ | ⟨-, -, -, rfl⟩
  · rfl
  · exact Std.HashMap.getElem?_insert.trans (if_neg differ)

/-- What registering a commit does to a store: its tables stay in step, and it still has no more
commits than there are numbers. -/
theorem register_spec (inStep : store.InStep) (room : store.size ≤ capacity)
    (h : store.register id = .ok (i, final)) :
    final.InStep ∧ final.size ≤ capacity ∧ final.Extends store ∧
      (∀ own ∈ final.ids, own ∈ store.ids ∨ own = id) ∧ final.indexOf? id = some i := by
  rcases register_cases h with ⟨known, rfl⟩ | ⟨absent, rfl, left, rfl⟩
  · exact ⟨inStep, room, .refl _, fun own hown => .inl hown, known⟩
  · have kept := inStep.push absent (addHash id.hash store.size store.byHash)
    refine ⟨kept, ?_, ⟨[id], by rw [Array.toList_push]⟩, fun own hown => Array.mem_push.1 hown, ?_⟩
    · rw [size, Array.size_push]
      exact left
    · exact kept.indexOf?_eq_some.2 ⟨id, Array.getElem?_push_size, BEq.rfl⟩

end CommitStore

end CommitLog
