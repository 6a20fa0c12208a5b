import CommitLog.Unicode.CodePoints
import Mathlib.Data.List.Sort

/-!
# What sets of code points contain

The normal form contains what the ranges contain that it is made from, and a union what either set
contains.

    (ofRanges ranges).contains n ↔ ∃ range ∈ ranges, range.1 ≤ n ∧ n ≤ range.2
    (a.union b).contains n ↔ a.contains n ∨ b.contains n
-/

namespace CommitLog.Unicode.CodePoints

variable {set a b : CodePoints} {ranges : List (Nat × Nat)} {low high m n : Nat}

theorem contains_iff : set.contains n = true ↔ ∃ range ∈ set, range.1 ≤ n ∧ n ≤ range.2 := by
  simp [contains, List.any_eq_true]

theorem not_contains_nil : ¬ CodePoints.contains [] n = true := by
  rw [contains_iff]
  rintro ⟨range, mem, -⟩
  exact List.not_mem_nil mem

theorem contains_cons : CodePoints.contains ((low, high) :: set) n = true ↔
    (low ≤ n ∧ n ≤ high) ∨ set.contains n = true := by
  simp only [contains_iff, List.exists_mem_cons_iff]

theorem contains_append : CodePoints.contains (a ++ b) n = true ↔
    a.contains n = true ∨ b.contains n = true := by
  simp only [contains_iff, List.mem_append, or_and_right, exists_or]

theorem contains_singleton : (singleton m).contains n = true ↔ n = m := by
  rw [singleton, contains_cons, or_iff_left not_contains_nil]
  omega

/-- Ranges that overlap or touch can be joined when they start in ascending order. -/
theorem contains_mergeFrom (sorted : ((low, high) :: ranges).Pairwise fun r s => r.1 ≤ s.1) :
    (mergeFrom low high ranges).contains n = true ↔
      CodePoints.contains ((low, high) :: ranges) n = true := by
  induction ranges generalizing low high with
  | nil => exact Iff.rfl
  | cons range rest ih =>
    obtain ⟨l, h⟩ := range
    obtain ⟨above, sorted⟩ := List.pairwise_cons.1 sorted
    have ascending : low ≤ l := above (l, h) List.mem_cons_self
    rw [mergeFrom]
    split
    · have kept : ((low, max high h) :: rest).Pairwise fun r s => r.1 ≤ s.1 :=
        List.pairwise_cons.2 ⟨fun r mem => above r (List.mem_cons_of_mem _ mem), sorted.of_cons⟩
      rw [ih kept, contains_cons, contains_cons, contains_cons, ← or_assoc]
      refine or_congr_left ?_
      omega
    · rw [contains_cons, ih sorted]
      exact contains_cons.symm

/-- The normal form is made from the ranges that are not empty, in ascending order. -/
theorem exists_ofRanges (ranges : List (Nat × Nat)) : ∃ sorted : List (Nat × Nat),
    sorted.Perm (ranges.filter fun range => range.1 ≤ range.2) ∧
    sorted.Pairwise (fun r s => r.1 ≤ s.1) ∧
    ofRanges ranges = match sorted with
      | [] => []
      | (low, high) :: rest => mergeFrom low high rest := by
  refine ⟨_, List.mergeSort_perm _ fun r s => decide (r.1 ≤ s.1), ?_, rfl⟩
  have sorted := @List.pairwise_mergeSort _ (fun r s : Nat × Nat => decide (r.1 ≤ s.1))
    (fun r s t => by simpa using Nat.le_trans) (fun r s => by simpa using Nat.le_total r.1 s.1)
    (ranges.filter fun range => range.1 ≤ range.2)
  simpa only [decide_eq_true_eq] using sorted

theorem contains_ofRanges :
    (ofRanges ranges).contains n = true ↔ ∃ range ∈ ranges, range.1 ≤ n ∧ n ≤ range.2 := by
  obtain ⟨sorted, perm, ascending, own⟩ := exists_ofRanges ranges
  have same : CodePoints.contains sorted n = true ↔
      ∃ range ∈ ranges, range.1 ≤ n ∧ n ≤ range.2 := by
    simp only [contains_iff, perm.mem_iff, List.mem_filter, decide_eq_true_eq, and_assoc]
    refine exists_congr fun range => and_congr_right fun _ => and_iff_right_of_imp fun inside => ?_
    exact Nat.le_trans inside.1 inside.2
  rw [own, ← same]
  cases sorted with
  | nil => exact Iff.rfl
  | cons range rest => exact contains_mergeFrom ascending

theorem contains_union :
    (a.union b).contains n = true ↔ a.contains n = true ∨ b.contains n = true := by
  unfold union
  split
  · next empty =>
    rw [List.isEmpty_iff.1 empty, or_iff_right not_contains_nil]
  · split
    · next empty =>
      rw [List.isEmpty_iff.1 empty, or_iff_left not_contains_nil]
    · rw [contains_ofRanges, ← contains_iff, contains_append]

/-- A set made of single code points contains these. -/
theorem contains_ofRanges_map {points : List Nat} :
    (ofRanges (points.map fun m => (m, m))).contains n = true ↔ n ∈ points := by
  simp only [contains_ofRanges, List.mem_map]
  constructor
  · rintro ⟨range, ⟨m, mem, rfl⟩, below, above⟩
    exact Nat.le_antisymm below above ▸ mem
  · intro mem
    exact ⟨(n, n), ⟨n, mem, rfl⟩, Nat.le_refl n, Nat.le_refl n⟩

end CommitLog.Unicode.CodePoints
