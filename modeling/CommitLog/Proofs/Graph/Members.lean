import CommitLog.Graph.CommitSet
import Mathlib.Data.List.Perm.Subperm
import Mathlib.Tactic.Tauto

/-!
# Members of sets of commits

What the operations on `CommitSet` do to membership.  A set has no member twice, so the size of
`ofList ns` is the number of different numbers in `ns`.
-/

namespace CommitLog.CommitSet

instance : Membership CommitIndex CommitSet := ⟨fun set n => n ∈ set.members⟩

theorem mem_def {set : CommitSet} {n : CommitIndex} : n ∈ set ↔ n ∈ set.members := Iff.rfl

@[simp]
theorem contains_iff {set : CommitSet} {n : CommitIndex} : set.contains n = true ↔ n ∈ set := by
  rw [contains, List.contains_iff_mem, mem_def]

@[simp]
theorem not_mem_empty (n : CommitIndex) : n ∉ empty := List.not_mem_nil

@[simp]
theorem mem_insert {set : CommitSet} {m n : CommitIndex} : n ∈ set.insert m ↔ n = m ∨ n ∈ set :=
  mem_insertMember

theorem mem_foldl_insert {set : CommitSet} {ns : List CommitIndex} {n : CommitIndex} :
    n ∈ ns.foldl insert set ↔ n ∈ set ∨ n ∈ ns := by
  induction ns generalizing set with
  | nil => simp
  | cons m rest ih =>
    rw [List.foldl_cons, ih, mem_insert, List.mem_cons]
    tauto

@[simp]
theorem mem_ofList {ns : List CommitIndex} {n : CommitIndex} : n ∈ ofList ns ↔ n ∈ ns := by
  rw [ofList, mem_foldl_insert]
  simp

@[simp]
theorem mem_union {a b : CommitSet} {n : CommitIndex} : n ∈ a.union b ↔ n ∈ a ∨ n ∈ b := by
  rw [union, mem_foldl_insert]
  rfl

theorem meets_iff {a b : CommitSet} : a.meets b = true ↔ ∃ n, n ∈ a ∧ n ∈ b := by
  rw [meets, List.any_eq_true]
  simp only [contains_iff]
  rfl

theorem isEmpty_iff {set : CommitSet} : set.isEmpty = true ↔ ∀ n, n ∉ set := by
  rw [isEmpty, List.isEmpty_iff, List.eq_nil_iff_forall_not_mem]
  rfl

/-- Numbers that differ and belong to a set are no more than its members. -/
theorem length_le_size {set : CommitSet} {ns : List CommitIndex} (nodup : ns.Nodup)
    (sub : ∀ n ∈ ns, n ∈ set) : ns.length ≤ set.size :=
  (List.Nodup.subperm nodup sub).length_le

end CommitLog.CommitSet
