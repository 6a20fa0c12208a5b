import CommitLog.Proofs.Graph.Store
import CommitLog.Proofs.Object.Id

/-!
# Partial hashes

The hashes of a store stand in ascending order, each with the numbers of its commits
(`CommitStore.Indexed`).  Those that begin with some digits stand next to each other, so the scan
for them misses none, and a partial hash names in every repository the one commit that it fits, if
there is just one (`CommitStore.IsNamedBy`).

    store.Indexed → (i ∈ store.resolve text ↔
      ∃ digits, ObjectId.normalPrefix? text = some digits ∧ store.IsNamedBy digits i)
-/

namespace CommitLog

/-! ## Order of digits -/

theorem compare_hexChar {m n : Nat} (hm : m < 16) (hn : n < 16) :
    compare (Text.hexChar m) (Text.hexChar n) = compare m n := by
  have all : ∀ a b : Fin 16, compare (Text.hexChar a) (Text.hexChar b) = compare a.1 b.1 := by
    decide
  exact all ⟨m, hm⟩ ⟨n, hn⟩

/-- Numbers are ordered by their quotients first and then by their remainders. -/
theorem compare_div_mod (m n k : Nat) :
    (compare (m / k) (n / k)).then (compare (m % k) (n % k)) = compare m n := by
  have hm := Nat.div_add_mod m k
  have hn := Nat.div_add_mod n k
  rcases Nat.eq_zero_or_pos k with rfl | pos
  · simp
  rcases Nat.lt_trichotomy (m / k) (n / k) with lt | eq | lt
  · have less : m < n := Nat.lt_of_div_lt_div lt
    rw [Nat.compare_eq_lt.2 lt, Nat.compare_eq_lt.2 less]
    rfl
  · rw [eq] at hm ⊢
    rw [Nat.compare_eq_eq.2 rfl, Ordering.eq_then]
    rcases Nat.lt_trichotomy (m % k) (n % k) with lt | same | lt
    · rw [Nat.compare_eq_lt.2 lt, Nat.compare_eq_lt.2 (by omega)]
    · rw [Nat.compare_eq_eq.2 same, Nat.compare_eq_eq.2 (by omega)]
    · rw [Nat.compare_eq_gt.2 lt, Nat.compare_eq_gt.2 (by omega)]
  · have less : n < m := Nat.lt_of_div_lt_div lt
    rw [Nat.compare_eq_gt.2 lt, Nat.compare_eq_gt.2 less]
    rfl

/-- The order of bytes is that of their digits. -/
theorem compare_hex (as bs : List UInt8) : compare (Text.hex as) (Text.hex bs) = compare as bs := by
  induction as generalizing bs with
  | nil => cases bs <;> rfl
  | cons a as ih =>
    cases bs with
    | nil => rfl
    | cons b bs =>
      have digits (c : UInt8) : c.toNat / 16 < 16 ∧ c.toNat % 16 < 16 := by
        have := c.toNat_lt
        omega
      have hex_cons (c : UInt8) (cs : List UInt8) : Text.hex (c :: cs) =
          Text.hexChar (c.toNat / 16) :: Text.hexChar (c.toNat % 16) :: Text.hex cs := rfl
      rw [hex_cons, hex_cons, List.compare_cons_cons, List.compare_cons_cons, ih,
        compare_hexChar (digits a).1 (digits b).1, compare_hexChar (digits a).2 (digits b).2,
        ← Ordering.then_assoc, compare_div_mod, ← UInt8.compare_eq_toNat_compare_toNat,
        List.compare_cons_cons]

theorem ObjectId.order_eq (a b : ObjectId) : a.order b = compare a.digits b.digits :=
  (compare_hex a.bytes b.bytes).symm

/-- What begins with some digits does not come before them. -/
theorem not_lt_of_prefix {digits text : List Char} (h : digits <+: text) :
    compare text digits ≠ .lt := by
  induction digits generalizing text with
  | nil => cases text <;> exact fun h => nomatch h
  | cons d digits ih =>
    obtain ⟨rest, rfl, hrest⟩ := List.cons_prefix_iff.1 h
    have same : compare d d = .eq := Std.ReflCmp.compare_self
    rw [List.compare_cons_cons, same, Ordering.eq_then]
    exact ih hrest

/-- What lies between some digits and a text that begins with them begins with them, too. -/
theorem prefix_of_between {digits text later : List Char} (notBefore : compare text digits ≠ .lt)
    (before : compare text later = .lt) (h : digits <+: later) : digits <+: text := by
  induction digits generalizing text later with
  | nil => exact List.nil_prefix
  | cons d digits ih =>
    obtain ⟨rest, rfl, hrest⟩ := List.cons_prefix_iff.1 h
    cases text with
    | nil => exact absurd rfl notBefore
    | cons c text =>
      rw [List.compare_cons_cons] at notBefore before
      cases order : compare c d with
      | lt =>
        rw [order] at notBefore
        exact absurd rfl notBefore
      | gt =>
        rw [order] at before
        cases before
      | eq =>
        rw [order, Ordering.eq_then] at notBefore before
        obtain rfl : c = d := Std.LawfulEqCmp.compare_eq_iff_eq.1 order
        exact List.cons_prefix_cons.2 ⟨rfl, ih notBefore before hrest⟩

/-! ## Scans -/

section Scans

variable {α : Type} {p : α → Bool} {l : List α}

/-- A scan up to the first element that fails finds all that pass, when none of them follows one
that fails. -/
theorem takeWhile_eq_filter (closed : l.Pairwise fun a b => p b = true → p a = true) :
    l.takeWhile p = l.filter p := by
  induction l with
  | nil => rfl
  | cons a l ih =>
    obtain ⟨first, rest⟩ := List.pairwise_cons.1 closed
    by_cases h : p a = true
    · rw [List.takeWhile_cons_of_pos h, List.filter_cons_of_pos h, ih rest]
    · have none : l.filter p = [] := List.filter_eq_nil_iff.2 fun b hb hp => h (first b hb hp)
      rw [List.takeWhile_cons_of_neg h, List.filter_cons_of_neg h, none]

theorem dropWhile_eq_filter (closed : l.Pairwise fun a b => p b = true → p a = true) :
    l.dropWhile p = l.filter fun a => !p a := by
  induction l with
  | nil => rfl
  | cons a l ih =>
    obtain ⟨first, rest⟩ := List.pairwise_cons.1 closed
    by_cases h : p a = true
    · rw [List.dropWhile_cons_of_pos h, List.filter_cons_of_neg (by simp [h]), ih rest]
    · have all : (a :: l).filter (fun a => !p a) = a :: l := by
        refine List.filter_eq_self.2 fun b hb => ?_
        rcases List.mem_cons.1 hb with rfl | hb
        · simpa using h
        · have fails : p b ≠ true := fun hp => h (first b hb hp)
          simpa using fails
      rw [List.dropWhile_cons_of_neg h, all]

/-- Just one element passes. -/
theorem length_filter_eq_one {a : α} (nodup : l.Nodup) (mem : a ∈ l) (passes : p a = true) :
    (l.filter p).length = 1 ↔ ∀ b ∈ l, p b = true → b = a := by
  have mem' : a ∈ l.filter p := List.mem_filter.2 ⟨mem, passes⟩
  rw [List.length_eq_one_iff]
  constructor
  · rintro ⟨only, single⟩ b hb hp
    have first := mem'
    have second : b ∈ l.filter p := List.mem_filter.2 ⟨hb, hp⟩
    rw [single, List.mem_singleton] at first second
    rw [first, second]
  · intro only
    refine ⟨a, List.perm_singleton.1 ?_⟩
    refine (List.perm_ext_iff_of_nodup (nodup.filter p) (List.nodup_cons.2 ⟨by simp, .nil⟩)).2 ?_
    intro b
    rw [List.mem_filter, List.mem_singleton]
    constructor
    · rintro ⟨hb, hp⟩
      exact only b hb hp
    · rintro rfl
      exact ⟨mem, passes⟩

end Scans

namespace CommitStore

/-! ## The table of hashes -/

def Ascending (table : List (ObjectId × List CommitIndex)) : Prop :=
  table.Pairwise fun a b => a.1.order b.1 = .lt

/-- The hashes with one number each. -/
def pairs (table : List (ObjectId × List CommitIndex)) : List (ObjectId × CommitIndex) :=
  table.flatMap fun entry => entry.2.map (entry.1, ·)

variable {table : List (ObjectId × List CommitIndex)} {hash : ObjectId} {i : CommitIndex}

theorem mem_addHash {entry : ObjectId × List CommitIndex} (h : entry ∈ addHash hash i table) :
    entry.1 = hash ∨ ∃ own ∈ table, own.1 = entry.1 := by
  induction table with
  | nil =>
    rw [List.mem_singleton.1 h]
    exact .inl rfl
  | cons own table ih =>
    unfold addHash at h
    split at h
    · rcases List.mem_cons.1 h with rfl | h
      · exact .inl rfl
      · exact .inr ⟨entry, h, rfl⟩
    · rcases List.mem_cons.1 h with rfl | h
      · exact .inr ⟨own, List.mem_cons_self, rfl⟩
      · exact .inr ⟨entry, List.mem_cons_of_mem _ h, rfl⟩
    · rcases List.mem_cons.1 h with rfl | h
      · exact .inr ⟨own, List.mem_cons_self, rfl⟩
      · refine (ih h).imp_right ?_
        rintro ⟨other, mem, same⟩
        exact ⟨other, List.mem_cons_of_mem _ mem, same⟩

theorem Ascending.addHash (ascending : Ascending table) (hash : ObjectId) (i : CommitIndex) :
    Ascending (addHash hash i table) := by
  induction table with
  | nil => exact List.pairwise_singleton _ _
  | cons own table ih =>
    obtain ⟨first, rest⟩ := List.pairwise_cons.1 ascending
    unfold CommitStore.addHash
    split
    · next lt =>
      refine List.pairwise_cons.2 ⟨fun other mem => ?_, ascending⟩
      rcases List.mem_cons.1 mem with rfl | mem
      · exact lt
      · exact Std.TransCmp.lt_trans lt (first other mem)
    · exact List.pairwise_cons.2 ⟨first, rest⟩
    · next gt =>
      refine List.pairwise_cons.2 ⟨fun other mem => ?_, ih rest⟩
      rcases mem_addHash mem with same | ⟨known, hknown, same⟩
      · rw [same]
        exact Std.OrientedCmp.gt_iff_lt.1 gt
      · rw [← same]
        exact first known hknown

theorem perm_pairs_addHash (hash : ObjectId) (i : CommitIndex) :
    (pairs (addHash hash i table)).Perm ((hash, i) :: pairs table) := by
  induction table with
  | nil => exact .refl _
  | cons own table ih =>
    obtain ⟨h, indices⟩ := own
    unfold addHash
    split
    · exact .refl _
    · next eq =>
      obtain rfl := ObjectId.eq_of_order eq
      show ((indices ++ [i]).map (hash, ·) ++ pairs table).Perm
        ((hash, i) :: (indices.map (hash, ·) ++ pairs table))
      rw [List.map_append, List.append_assoc]
      exact List.perm_middle
    · show (indices.map (h, ·) ++ pairs (addHash hash i table)).Perm
        ((hash, i) :: (indices.map (h, ·) ++ pairs table))
      exact (ih.append_left _).trans List.perm_middle

variable {store final : CommitStore} {id : CommitId} {digits : List Char}

/-- Every number stands under the hash of its commit, and the hashes are in ascending order. -/
structure Indexed (store : CommitStore) : Prop where
  ascending : Ascending store.byHash
  numbers : (pairs store.byHash).Perm
    (store.ids.toList.zipIdx.map fun entry => (entry.1.hash, entry.2))

theorem indexed_empty : empty.Indexed := ⟨.nil, .nil⟩

/-- The number of a new commit goes under its hash. -/
theorem Indexed.push (indexed : store.Indexed) (id : CommitId)
    (indices : Std.HashMap CommitId CommitIndex) :
    Indexed ⟨store.ids.push id, indices, addHash id.hash store.size store.byHash⟩ := by
  refine ⟨indexed.ascending.addHash _ _, ?_⟩
  refine (perm_pairs_addHash id.hash store.size).trans ((indexed.numbers.cons _).trans ?_)
  rw [Array.toList_push, List.zipIdx_append, List.map_append]
  refine List.perm_append_comm.trans ?_ |>.symm
  simp [CommitStore.size]

theorem Indexed.insert (indexed : store.Indexed) (id : CommitId) : (store.insert id).2.Indexed := by
  cases known : store.indexOf? id with
  | some j =>
    rw [insert_of_indexOf?_eq_some known]
    exact indexed
  | none =>
    rw [insert_of_indexOf?_eq_none known]
    exact indexed.push id _

theorem Indexed.register (indexed : store.Indexed) (h : store.register id = .ok (i, final)) :
    final.Indexed := by
  rcases register_cases h with ⟨-, rfl⟩ | ⟨-, -, -, rfl⟩
  · exact indexed
  · exact indexed.push id _

/-! ## Digits -/

/-- The scan finds all hashes that begin with the digits. -/
theorem candidates_eq (ascending : Ascending store.byHash) (digits : List Char) :
    store.candidates digits =
      (store.byHash.filter fun entry => entry.1.startsWith digits).flatMap (·.2) := by
  unfold candidates
  have before {a b : ObjectId} (h : a.order b = .lt) : compare a.digits b.digits = .lt := by
    rwa [← ObjectId.order_eq]
  rw [dropWhile_eq_filter, takeWhile_eq_filter, List.filter_filter]
  · congr 1
    refine List.filter_congr fun entry _ => ?_
    by_cases starts : entry.1.startsWith digits = true
    · have notBefore := not_lt_of_prefix (List.isPrefixOf_iff_prefix.1 starts)
      simp [starts, notBefore]
    · simp [starts]
  · refine List.pairwise_filter.2 (ascending.imp fun {a b} lt notBefore _ starts => ?_)
    have notBefore : compare a.1.digits digits ≠ .lt := by simpa using notBefore
    exact List.isPrefixOf_iff_prefix.2
      (prefix_of_between notBefore (before lt) (List.isPrefixOf_iff_prefix.1 starts))
  · refine ascending.imp fun {a b} lt h => ?_
    have h : compare b.1.digits digits = .lt := by simpa using h
    have less : compare a.1.digits digits = .lt := Std.TransCmp.lt_trans (before lt) h
    simp [less]

theorem flatMap_filter_eq (p : ObjectId → Bool) :
    (table.filter fun entry => p entry.1).flatMap (·.2) =
      ((pairs table).filter fun pair => p pair.1).map (·.2) := by
  induction table with
  | nil => rfl
  | cons entry table ih =>
    have numbers : ((entry.2.map (entry.1, ·)).filter fun pair => p pair.1).map (·.2) =
        if p entry.1 then entry.2 else [] := by
      split <;> simp [List.filter_map, Function.comp_def, *]
    show _ = (((entry.2.map (entry.1, ·)) ++ pairs table).filter fun pair => p pair.1).map (·.2)
    rw [List.filter_append, List.map_append, numbers, ← ih]
    by_cases h : p entry.1 = true <;> simp [h]

theorem Indexed.perm_candidates (indexed : store.Indexed) (digits : List Char) :
    (store.candidates digits).Perm
      ((store.ids.toList.zipIdx.filter fun entry => entry.1.hash.startsWith digits).map (·.2)) := by
  rw [candidates_eq indexed.ascending, flatMap_filter_eq (·.startsWith digits)]
  have perm := (indexed.numbers.filter fun pair => pair.1.startsWith digits).map (·.2)
  rwa [List.filter_map, List.map_map] at perm

theorem Indexed.mem_candidates (indexed : store.Indexed) : i ∈ store.candidates digits ↔
    ∃ own, store.commitId? i = some own ∧ own.hash.startsWith digits = true := by
  rw [(indexed.perm_candidates digits).mem_iff]
  simp only [List.mem_map, List.mem_filter, Prod.exists, exists_eq_right,
    List.mem_zipIdx_iff_getElem?, commitId?_eq]

theorem Indexed.nodup_candidates (indexed : store.Indexed) (digits : List Char) :
    (store.candidates digits).Nodup := by
  refine (indexed.perm_candidates digits).nodup_iff.2 ?_
  refine (List.filter_sublist.map Prod.snd).nodup ?_
  rw [List.zipIdx_map_snd]
  exact List.nodup_range'

/-- The digits fit the commit of a number, and no other one in its repository. -/
def IsNamedBy (store : CommitStore) (digits : List Char) (i : CommitIndex) : Prop :=
  ∃ own, store.commitId? i = some own ∧ own.hash.startsWith digits = true ∧
    ∀ j other, store.commitId? j = some other → other.hash.startsWith digits = true →
      (other.root == own.root) = true → j = i

/-- In every repository, a partial hash names the one commit that it fits, if there is just one. -/
theorem Indexed.mem_resolve (indexed : store.Indexed) {text : String} : i ∈ store.resolve text ↔
    ∃ digits, ObjectId.normalPrefix? text = some digits ∧ store.IsNamedBy digits i := by
  unfold resolve
  cases ObjectId.normalPrefix? text with
  | none => simp
  | some digits =>
    have root (j : CommitIndex) {own : CommitId} (h : store.commitId? j = some own) :
        store.root? j = some own.root := by
      rw [root?, h, Option.map_some]
    simp only [Option.some.injEq, exists_eq_left', List.mem_mergeSort, List.mem_filter, beq_iff_eq]
    constructor
    · rintro ⟨mem, single⟩
      obtain ⟨own, hown, starts⟩ := indexed.mem_candidates.1 mem
      refine ⟨own, hown, starts, fun j other hother startsOther same => ?_⟩
      have same_root : (store.root? i == store.root? i) = true := BEq.rfl
      refine (length_filter_eq_one (indexed.nodup_candidates digits) mem same_root).1 single j ?_ ?_
      · exact indexed.mem_candidates.2 ⟨other, hother, startsOther⟩
      · rw [root i hown, root j hother]
        exact same
    · rintro ⟨own, hown, starts, single⟩
      have mem := indexed.mem_candidates.2 ⟨own, hown, starts⟩
      have nodup := indexed.nodup_candidates digits
      have same_root : (store.root? i == store.root? i) = true := BEq.rfl
      refine ⟨mem, (length_filter_eq_one nodup mem same_root).2 fun j hj same => ?_⟩
      obtain ⟨other, hother, startsOther⟩ := indexed.mem_candidates.1 hj
      rw [root i hown, root j hother] at same
      exact single j other hother startsOther same

end CommitStore

end CommitLog
