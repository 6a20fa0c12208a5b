import CommitLog.Proofs.Graph.Resolve
import CommitLog.Proofs.Steps
import Mathlib.Data.List.Sort

/-!
# Registering commits one after the other

However often commits are registered, the three tables of the store stay in step
(`CommitStore.Sound`).  Commits are numbered in the order in which they are first seen; the numbers
once given stay, and the table of numbers has them for every spelling of a root; the table of hashes
lists the commits of every hash (`CommitStore.Numbers`, `CommitStore.registerAll_numbers`).

    store.commitId? i = ids.eraseDups[i]?
    store.indexOf? id = some i ↔ ∃ own, store.commitId? i = some own ∧ own == id
    (hash, numbers) ∈ store.byHash ↔ numbers ≠ [] ∧ numbers = all i of this hash, ascending
-/

namespace CommitLog

namespace CommitStore

variable {table : List (ObjectId × List CommitIndex)} {hash : ObjectId} {i : CommitIndex}

/-! ## The numbers of a hash -/

/-- Every hash has numbers, and they stand in ascending order. -/
def Sorted (table : List (ObjectId × List CommitIndex)) : Prop :=
  ∀ entry ∈ table, entry.2 ≠ [] ∧ entry.2.Pairwise (· < ·)

/-- A number greater than all before it can be added. -/
theorem Sorted.addHash (sorted : Sorted table) (hash : ObjectId)
    (last : ∀ entry ∈ table, ∀ j ∈ entry.2, j < i) : Sorted (addHash hash i table) := by
  have single : (⟨hash, [i]⟩ : ObjectId × List CommitIndex).2 ≠ [] ∧ [i].Pairwise (· < ·) :=
    ⟨List.cons_ne_nil _ _, List.pairwise_singleton _ _⟩
  induction table with
  | nil =>
    intro entry mem
    rw [List.mem_singleton.1 mem]
    exact single
  | cons own table ih =>
    obtain ⟨first, rest⟩ := List.forall_mem_cons.1 sorted
    obtain ⟨ownLast, restLast⟩ := List.forall_mem_cons.1 last
    unfold CommitStore.addHash
    split
    · exact List.forall_mem_cons.2 ⟨single, sorted⟩
    · refine List.forall_mem_cons.2 ⟨⟨by simp, ?_⟩, rest⟩
      refine List.pairwise_append.2 ⟨first.2, single.2, fun j hj k hk => ?_⟩
      rw [List.mem_singleton.1 hk]
      exact ownLast j hj
    · exact List.forall_mem_cons.2 ⟨first, ih rest restLast⟩

theorem Ascending.nodup (ascending : Ascending table) : (table.map (·.1)).Nodup := by
  refine List.pairwise_map.2 (ascending.imp fun {a b} before same => ?_)
  have equal : b.1.order b.1 = .eq := Std.ReflCmp.compare_self
  rw [same, equal] at before
  cases before

theorem mem_pairs :
    (hash, i) ∈ pairs table ↔ ∃ numbers, (hash, numbers) ∈ table ∧ i ∈ numbers := by
  simp only [pairs, List.mem_flatMap, List.mem_map, Prod.exists, Prod.mk.injEq,
    exists_eq_right_right]
  constructor
  · rintro ⟨_, numbers, mem, hi, rfl⟩
    exact ⟨numbers, mem, hi⟩
  · rintro ⟨numbers, mem, hi⟩
    exact ⟨hash, numbers, mem, hi, rfl⟩

variable {store final : CommitStore} {id : CommitId} {ids : List CommitId}

theorem Indexed.mem_pairs_iff (indexed : store.Indexed) :
    (hash, i) ∈ pairs store.byHash ↔ ∃ own, store.commitId? i = some own ∧ own.hash = hash := by
  rw [indexed.numbers.mem_iff]
  simp only [List.mem_map, Prod.exists, Prod.mk.injEq, List.mem_zipIdx_iff_getElem?, commitId?_eq]
  constructor
  · rintro ⟨own, _, known, same, rfl⟩
    exact ⟨own, known, same⟩
  · rintro ⟨own, known, same⟩
    exact ⟨own, i, known, same, rfl⟩

/-- The numbers of the commits with a hash. -/
def numbersOf (store : CommitStore) (hash : ObjectId) : List CommitIndex :=
  (List.range store.size).filter fun i => (store.commitId? i).any (·.hash == hash)

theorem mem_numbersOf :
    i ∈ store.numbersOf hash ↔ ∃ own, store.commitId? i = some own ∧ own.hash = hash := by
  simp only [numbersOf, List.mem_filter, List.mem_range, Option.any_eq_true, beq_iff_eq]
  constructor
  · rintro ⟨-, own, known, same⟩
    exact ⟨own, known, same⟩
  · rintro ⟨own, known, same⟩
    exact ⟨lt_size_of_commitId? known, own, known, same⟩

/-- The table lists under a hash the numbers of its commits. -/
theorem Indexed.mem_byHash (indexed : store.Indexed) (sorted : Sorted store.byHash)
    {numbers : List CommitIndex} :
    (hash, numbers) ∈ store.byHash ↔ numbers ≠ [] ∧ numbers = store.numbersOf hash := by
  have listed (numbers : List CommitIndex) (mem : (hash, numbers) ∈ store.byHash) :
      numbers = store.numbersOf hash := by
    refine (sorted _ mem).2.eq_of_mem_iff (List.pairwise_lt_range.filter _) fun {i} => ?_
    rw [mem_numbersOf, ← indexed.mem_pairs_iff, mem_pairs]
    refine ⟨fun hi => ⟨numbers, mem, hi⟩, ?_⟩
    rintro ⟨others, memOthers, hi⟩
    cases List.inj_on_of_nodup_map indexed.ascending.nodup mem memOthers rfl
    exact hi
  constructor
  · intro mem
    exact ⟨(sorted _ mem).1, listed numbers mem⟩
  · rintro ⟨ne, rfl⟩
    obtain ⟨i, hi⟩ := List.exists_mem_of_ne_nil _ ne
    obtain ⟨numbers, mem, -⟩ := mem_pairs.1 (indexed.mem_pairs_iff.2 (mem_numbersOf.1 hi))
    rwa [← listed numbers mem]

/-! ## One registration -/

/-- The tables of a store belong together. -/
structure Sound (store : CommitStore) : Prop where
  inStep : store.InStep
  room : store.size ≤ capacity
  indexed : store.Indexed
  sorted : Sorted store.byHash

theorem sound_empty : empty.Sound :=
  ⟨inStep_empty, Nat.zero_le _, indexed_empty, fun _ mem => absurd mem List.not_mem_nil⟩

/-- What one registration keeps. -/
theorem Sound.register (sound : store.Sound) (h : store.register id = .ok (i, final)) :
    final.Sound := by
  obtain ⟨inStep, room, -⟩ := register_spec sound.inStep sound.room h
  refine ⟨inStep, room, sound.indexed.register h, ?_⟩
  rcases register_cases h with ⟨-, rfl⟩ | ⟨-, -, -, rfl⟩
  · exact sound.sorted
  · refine sound.sorted.addHash id.hash fun entry mem j hj => ?_
    obtain ⟨own, found, -⟩ := sound.indexed.mem_pairs_iff.1 (mem_pairs.2 ⟨entry.2, mem, hj⟩)
    exact lt_size_of_commitId? found

theorem register_of_indexOf?_eq_some (known : store.indexOf? id = some i) :
    store.register id = .ok (i, store) := by
  unfold CommitStore.register
  rw [known, insert_of_indexOf?_eq_some known]
  rfl

/-! ## A run of registrations -/

/-- Registers commits one after the other; gives their numbers and the store with them. -/
def registerAll (store : CommitStore) : List CommitId →
    Except Fault (List CommitIndex × CommitStore)
  | [] => .ok ([], store)
  | id :: rest => do
    let (i, store) ← store.register id
    let (numbers, store) ← store.registerAll rest
    return (i :: numbers, store)

def unknown (store : CommitStore) (ids : List CommitId) : List CommitId :=
  ids.filter fun id => (store.indexOf? id).isNone

theorem unknown_empty : empty.unknown ids = ids :=
  List.filter_eq_self.2 fun _ _ => Option.isNone_iff_eq_none.2 indexOf?_empty

/-- Each registration takes one step through the commits that are seen for the first time. -/
theorem Sound.append_unknown_register {rest : List CommitId} (sound : store.Sound)
    (h : store.register id = .ok (i, final)) :
    store.ids.toList ++ (store.unknown (id :: rest)).eraseDups =
      final.ids.toList ++ (final.unknown rest).eraseDups := by
  unfold unknown
  cases known : store.indexOf? id with
  | some j =>
    have same := (register_of_indexOf?_eq_some known).symm.trans h
    obtain ⟨-, rfl⟩ := Prod.mk.inj (Except.ok.inj same)
    rw [List.filter_cons_of_neg (by simp [known])]
  | none =>
    have pushed := ids_register known h
    have inStep := sound.inStep
    have inStepFinal := (sound.register h).inStep
    have others : (rest.filter fun other => (final.indexOf? other).isNone) =
        (rest.filter fun other => (store.indexOf? other).isNone).filter
          fun other => !other == id := by
      rw [List.filter_filter]
      refine List.filter_congr fun other _ => ?_
      rw [Bool.eq_iff_iff, Bool.and_eq_true, Option.isNone_iff_eq_none, Option.isNone_iff_eq_none,
        inStepFinal.indexOf?_eq_none_iff, inStep.indexOf?_eq_none_iff, pushed, Bool.not_eq_true',
        Bool.eq_false_iff]
      simp only [Array.mem_push, or_imp, forall_and, forall_eq]
      rw [and_comm, BEq.comm]
    rw [List.filter_cons_of_pos (by simp [known]), List.eraseDups_cons, others, pushed,
      Array.toList_push, List.append_assoc]
    rfl

/-- A run succeeds when there are numbers left for all commits seen for the first time. -/
theorem Sound.exists_registerAll (sound : store.Sound)
    (room : store.size + (store.unknown ids).eraseDups.length ≤ capacity) :
    ∃ result, store.registerAll ids = .ok result := by
  induction ids generalizing store with
  | nil => exact ⟨_, rfl⟩
  | cons id rest ih =>
    obtain ⟨i, middle, step⟩ := @exists_register store id fun absent => by
      unfold unknown at room
      rw [List.filter_cons_of_pos (by simp [absent]), List.eraseDups_cons, List.length_cons] at room
      omega
    have lengths := congrArg List.length (@Sound.append_unknown_register _ _ _ _ rest sound step)
    simp only [List.length_append, Array.length_toList] at lengths
    obtain ⟨result, run⟩ := ih (sound.register step) (by
      unfold size at room ⊢
      omega)
    exact ⟨_, bind_eq_ok.2 ⟨_, step, bind_eq_ok.2 ⟨_, run, rfl⟩⟩⟩

/-- A run keeps the tables and the numbers that are given, and gives new commits numbers in the
order in which they are first seen. -/
theorem Sound.registerAll {numbers : List CommitIndex} (sound : store.Sound)
    (h : store.registerAll ids = .ok (numbers, final)) :
    final.Sound ∧ final.Extends store ∧
      final.ids.toList = store.ids.toList ++ (store.unknown ids).eraseDups ∧
      List.Forall₂ (fun id i => final.indexOf? id = some i) ids numbers := by
  induction ids generalizing store numbers with
  | nil =>
    cases h
    exact ⟨sound, .refl _, (List.append_nil _).symm, .nil⟩
  | cons id rest ih =>
    obtain ⟨⟨i, middle⟩, step, h⟩ := bind_eq_ok.1 h
    obtain ⟨⟨others, final'⟩, run, h⟩ := bind_eq_ok.1 h
    cases h
    obtain ⟨-, -, extendsM, -, givenM⟩ := register_spec sound.inStep sound.room step
    have soundM := sound.register step
    obtain ⟨soundF, extendsF, idsF, given⟩ := ih soundM run
    exact ⟨soundF, extendsF.trans extendsM, idsF.trans (sound.append_unknown_register step).symm,
      .cons (extendsF.indexOf? soundM.inStep soundF.inStep givenM) given⟩

theorem registerAll_append {more : List CommitId} {numbers : List CommitIndex}
    (h : store.registerAll (ids ++ more) = .ok (numbers, final)) :
    ∃ first middle last, store.registerAll ids = .ok (first, middle) ∧
      middle.registerAll more = .ok (last, final) ∧ numbers = first ++ last := by
  induction ids generalizing store numbers with
  | nil => exact ⟨[], store, numbers, rfl, h, rfl⟩
  | cons id rest ih =>
    obtain ⟨⟨i, next⟩, step, h⟩ := bind_eq_ok.1 h
    obtain ⟨⟨others, final'⟩, run, h⟩ := bind_eq_ok.1 h
    cases h
    obtain ⟨first, middle, last, hfirst, hlast, rfl⟩ := ih run
    exact ⟨i :: first, middle, last,
      bind_eq_ok.2 ⟨_, step, bind_eq_ok.2 ⟨_, hfirst, rfl⟩⟩, hlast, rfl⟩

/-! ## What a store knows -/

/-- What a store knows when some commits have been registered in this order and have got these
numbers. -/
structure Numbers (store : CommitStore) (ids : List CommitId) (numbers : List CommitIndex) :
    Prop where
  /-- The numbers from zero on are given in the order in which the commits are first seen. -/
  inOrder : ∀ i, store.commitId? i = ids.eraseDups[i]?
  /-- Every commit has the number that it has got. -/
  given : List.Forall₂ (fun id i => store.indexOf? id = some i) ids numbers
  /-- The number of a commit and the commit of a number belong together. -/
  inverse : ∀ id i, store.indexOf? id = some i ↔
    ∃ own, store.commitId? i = some own ∧ (own == id) = true
  /-- The table of numbers has no other commits than those that have a number. -/
  sameSize : store.indices.size = store.size
  /-- The table of hashes has every hash once, -/
  ascending : Ascending store.byHash
  /-- with the numbers of its commits in ascending order, -/
  listed : ∀ hash numbers, (hash, numbers) ∈ store.byHash ↔
    numbers ≠ [] ∧ numbers = store.numbersOf hash
  /-- one for each root. -/
  apart : ∀ hash, (store.numbersOf hash).Pairwise fun i j => ∀ a b, store.commitId? i = some a →
    store.commitId? j = some b → ¬ (a.root == b.root) = true

theorem numbers_registerAll {numbers : List CommitIndex}
    (h : empty.registerAll ids = .ok (numbers, store)) : store.Numbers ids numbers := by
  obtain ⟨sound, -, inOrder, given⟩ := sound_empty.registerAll h
  rw [unknown_empty] at inOrder
  refine ⟨fun i => by rw [commitId?_eq, inOrder]; rfl, given,
    fun id i => sound.inStep.indexOf?_eq_some, sound.inStep.size_indices, sound.indexed.ascending,
    fun hash numbers => sound.indexed.mem_byHash sound.sorted, fun hash => ?_⟩
  refine (List.pairwise_lt_range.filter _).imp_of_mem fun {i j} hi hj before a b ha hb same => ?_
  obtain ⟨_, known, hashA⟩ := mem_numbersOf.1 hi
  obtain rfl := Option.some.inj (ha.symm.trans known)
  obtain ⟨_, known, hashB⟩ := mem_numbersOf.1 hj
  obtain rfl := Option.some.inj (hb.symm.trans known)
  have equal := sound.inStep.distinct.eq ha hb (CommitId.beq_iff.2 ⟨hashA.trans hashB.symm, same⟩)
  exact Nat.ne_of_lt before equal

/-- The numbers of commits are their places among those that are seen for the first time. -/
theorem Numbers.numbers_eq {numbers : List CommitIndex} (known : store.Numbers ids numbers) :
    numbers.map some = ids.map fun id => ids.eraseDups.findIdx? (· == id) := by
  have place (id : CommitId) (i : CommitIndex) (number : store.indexOf? id = some i) :
      some i = ids.eraseDups.findIdx? (· == id) := by
    obtain ⟨own, found, same⟩ := (known.inverse id i).1 number
    rw [known.inOrder, List.getElem?_eq_some_iff] at found
    obtain ⟨inside, rfl⟩ := found
    refine (List.findIdx?_eq_some_iff_getElem.2 ⟨inside, same, fun j before sameJ => ?_⟩).symm
    -- a commit at an earlier place would have that place as its number
    have early : store.indexOf? id = some j := (known.inverse id j).2
      ⟨_, (known.inOrder j).trans (List.getElem?_eq_getElem (Nat.lt_trans before inside)), sameJ⟩
    exact Nat.ne_of_lt before (Option.some.inj (early.symm.trans number))
  refine List.forall₂_eq_eq_eq ▸ ?_
  rw [List.forall₂_map_left_iff, List.forall₂_map_right_iff]
  exact known.given.flip.imp fun i id => place id i

theorem Numbers.eq_of_places {numbers values : List CommitIndex} (known : store.Numbers ids numbers)
    (places : values.map some = ids.map fun id => ids.eraseDups.findIdx? (· == id)) :
    numbers = values :=
  List.map_injective_iff.2 (Option.some_injective _) (known.numbers_eq.trans places.symm)

theorem Numbers.toList_ids {numbers : List CommitIndex} (known : store.Numbers ids numbers) :
    store.ids.toList = ids.eraseDups :=
  List.ext_getElem? fun i => commitId?_eq.symm.trans (known.inOrder i)

/-- **Registering commits.**  Commits can be registered in any order and any number of times, as
long as there are numbers for all that differ.  After each step the three tables of the store belong
together, and whatever is registered later, a commit that has a number keeps it and gets it
again. -/
theorem registerAll_numbers (ids more : List CommitId)
    (room : (ids ++ more).eraseDups.length ≤ capacity) :
    ∃ numbers store, empty.registerAll ids = .ok (numbers, store) ∧ store.Numbers ids numbers ∧
      ∃ others later, store.registerAll more = .ok (others, later) ∧
        later.Numbers (ids ++ more) (numbers ++ others) ∧
        ∀ id i, store.indexOf? id = some i →
          later.register id = .ok (i, later) ∧ later.commitId? i = store.commitId? i := by
  obtain ⟨⟨together, later⟩, run⟩ := @Sound.exists_registerAll empty (ids ++ more) sound_empty (by
    rw [unknown_empty]
    simpa [size, empty] using room)
  obtain ⟨numbers, store, others, hfirst, hlast, rfl⟩ := registerAll_append run
  obtain ⟨sound, -⟩ := sound_empty.registerAll hfirst
  obtain ⟨soundLater, extendsLater, -⟩ := sound.registerAll hlast
  refine ⟨numbers, store, hfirst, numbers_registerAll hfirst, others, later, hlast,
    numbers_registerAll run, ?_⟩
  intro id i known
  obtain ⟨own, found, -⟩ := sound.inStep.indexOf?_eq_some.1 known
  refine ⟨register_of_indexOf?_eq_some ?_, (extendsLater.commitId? found).trans found.symm⟩
  exact extendsLater.indexOf? sound.inStep soundLater.inStep known

/-- The same hash in two repositories, then the roots in other spellings and another hash. -/
theorem registerAll_numbers_spellings :
    let first : List CommitId := [⟨.zero, ⟨"/a"⟩⟩, ⟨.zero, ⟨"/b"⟩⟩, ⟨.zero, ⟨"/a/"⟩⟩]
    let more : List CommitId := [⟨⟨1 :: List.replicate 19 0, rfl⟩, ⟨"/a"⟩⟩, ⟨.zero, ⟨"//b"⟩⟩]
    (first ++ more).eraseDups.length ≤ capacity ∧
    ∃ store, empty.registerAll first = .ok ([0, 1, 0], store) ∧ store.Numbers first [0, 1, 0] ∧
      ∃ later, store.registerAll more = .ok ([2, 1], later) ∧
        later.Numbers (first ++ more) [0, 1, 0, 2, 1] := by
  intro first more
  have room : (first ++ more).eraseDups.length ≤ capacity := by decide +kernel
  obtain ⟨numbers, store, run, known, others, later, runLater, knownLater, -⟩ :=
    registerAll_numbers first more room
  obtain rfl : numbers = [0, 1, 0] := known.eq_of_places (by decide +kernel)
  have all : [0, 1, 0] ++ others = [0, 1, 0] ++ [2, 1] :=
    knownLater.eq_of_places (by decide +kernel)
  obtain rfl : others = [2, 1] := List.append_cancel_left all
  exact ⟨room, store, run, known, later, runLater, knownLater⟩

end CommitStore

end CommitLog
