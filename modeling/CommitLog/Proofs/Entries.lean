import Mathlib.Data.List.Nodup
import Mathlib.Data.String.Basic

/-!
# Entries by name

The children of a trie, the entries of a tree and the branches of a repository are lists of named
entries that are filled in the same way (`Entries.put`).  Such a list stands in ascending order of
its names and is known by what it has under each of them.

    Ascending entries → Ascending (put name value entries)
    (put name value entries).lookup other =
      if other = name then some value else entries.lookup other
    Ascending a → Ascending b → (∀ name, a.lookup name = b.lookup name) → a = b
-/

namespace CommitLog

variable {α : Type} {name other : String} {value v : α} {entries a b : List (String × α)}

theorem lookup_cons_ite (name n : String) (value : α) (rest : List (String × α)) :
    ((n, value) :: rest).lookup name = if name = n then some value else rest.lookup name := by
  rw [List.lookup_cons]
  by_cases h : name = n <;> simp [h, beq_eq_false_iff_ne.2]

namespace Entries

def Ascending (entries : List (String × α)) : Prop :=
  entries.Pairwise fun a b => compare a.1 b.1 = .lt

/-- Puts an entry in its place, instead of the one that has its name. -/
def put (name : String) (value : α) : List (String × α) → List (String × α)
  | [] => [(name, value)]
  | (n, v) :: rest =>
    match compare name n with
    | .lt => (name, value) :: (n, v) :: rest
    | .eq => (name, value) :: rest
    | .gt => (n, v) :: put name value rest

/-- A function that goes down a list as `put` does is `put`. -/
theorem eq_put (place : List (String × α) → List (String × α)) (nil : place [] = [(name, value)])
    (cons : ∀ n v rest, place ((n, v) :: rest) =
      match compare name n with
      | .lt => (name, value) :: (n, v) :: rest
      | .eq => (name, value) :: rest
      | .gt => (n, v) :: place rest)
    (entries : List (String × α)) : place entries = put name value entries := by
  induction entries with
  | nil => exact nil
  | cons entry rest ih =>
    obtain ⟨n, v⟩ := entry
    rw [cons, put, ih]

theorem ne_of_compare {o : Ordering} (h : compare name other = o) (ne : o ≠ .eq) :
    name ≠ other := by
  rintro rfl
  rw [Std.ReflOrd.compare_self] at h
  exact ne h.symm

theorem lookup_put (name other : String) (value : α) (entries : List (String × α)) :
    (put name value entries).lookup other =
      if other = name then some value else entries.lookup other := by
  induction entries with
  | nil => exact lookup_cons_ite other name value []
  | cons entry rest ih =>
    obtain ⟨n, v⟩ := entry
    unfold put
    split
    · exact lookup_cons_ite other name value ((n, v) :: rest)
    · next same =>
      obtain rfl : name = n := Std.LawfulEqCmp.eq_of_compare same
      by_cases h : other = name <;> simp [lookup_cons_ite, h]
    · next gt =>
      -- the new entry goes further down, so its name is another one
      have differ : name ≠ n := ne_of_compare gt (by decide)
      by_cases h : other = n
      · subst h
        simp [Ne.symm differ]
      · simp [lookup_cons_ite, h, ih]

/-- Entries of other names stay. -/
theorem mem_put_of_ne (differ : other ≠ name) :
    (other, v) ∈ put name value entries ↔ (other, v) ∈ entries := by
  induction entries with
  | nil => simp [put, differ]
  | cons first rest ih =>
    obtain ⟨n, own⟩ := first
    unfold put
    split
    · simp [differ]
    · next same =>
      obtain rfl : name = n := Std.LawfulEqCmp.eq_of_compare same
      simp [differ]
    · rw [List.mem_cons, List.mem_cons, ih]

theorem Ascending.put (ascending : Ascending entries) : Ascending (put name value entries) := by
  unfold Ascending at *
  induction entries with
  | nil => exact List.pairwise_singleton _ _
  | cons first rest ih =>
    obtain ⟨n, own⟩ := first
    obtain ⟨least, pairwise⟩ := List.pairwise_cons.mp ascending
    unfold Entries.put
    split
    · next lt =>
      apply List.pairwise_cons.mpr
      refine ⟨?_, ascending⟩
      intro entry mem
      rcases List.mem_cons.mp mem with rfl | mem
      · exact lt
      · exact Std.TransCmp.lt_trans lt (least entry mem)
    · next same =>
      obtain rfl : name = n := Std.LawfulEqCmp.eq_of_compare same
      exact List.pairwise_cons.mpr ⟨least, pairwise⟩
    · next gt =>
      apply List.pairwise_cons.mpr
      refine ⟨?_, ih pairwise⟩
      rintro ⟨other, v⟩ mem
      by_cases same : other = name
      · rw [same]
        exact Std.OrientedCmp.lt_of_gt gt
      · exact least _ ((mem_put_of_ne same).mp mem)

/-! ## Lists known by their lookups -/

theorem mem_of_lookup (found : entries.lookup name = some value) : (name, value) ∈ entries := by
  obtain ⟨before, after, split, -⟩ := List.lookup_eq_some_iff.mp found
  rw [split]
  simp

theorem lookup_eq_some_iff (distinct : (entries.map (·.1)).Nodup) :
    entries.lookup name = some value ↔ (name, value) ∈ entries := by
  refine ⟨mem_of_lookup, ?_⟩
  intro mem
  induction entries with
  | nil => cases mem
  | cons first rest ih =>
    obtain ⟨n, own⟩ := first
    rw [List.map_cons, List.nodup_cons] at distinct
    rw [lookup_cons_ite]
    rcases List.mem_cons.mp mem with same | mem
    · cases same
      rw [if_pos rfl]
    · have differ : name ≠ n := by
        intro same
        apply distinct.1
        exact List.mem_map.mpr ⟨(name, value), mem, same⟩
      rw [if_neg differ]
      exact ih distinct.2 mem

theorem Ascending.distinct (ascending : Ascending entries) : (entries.map (·.1)).Nodup := by
  apply List.pairwise_map.mpr
  exact ascending.imp fun lt => ne_of_compare lt (by decide)

theorem Ascending.mem_iff (ascending : Ascending entries) :
    (name, value) ∈ entries ↔ entries.lookup name = some value :=
  (lookup_eq_some_iff ascending.distinct).symm

theorem Ascending.mem_put (ascending : Ascending entries) :
    (other, v) ∈ Entries.put name value entries ↔
      if other = name then v = value else (other, v) ∈ entries := by
  rw [ascending.put.mem_iff, lookup_put]
  by_cases same : other = name
  · simp [same, eq_comm]
  · simp [same, ascending.mem_iff]

/-- A list in ascending order is known by what it has under every name. -/
theorem Ascending.ext (ha : Ascending a) (hb : Ascending b)
    (same : ∀ name, a.lookup name = b.lookup name) : a = b := by
  have perm : a.Perm b := by
    rw [List.perm_ext_iff_of_nodup (.of_map _ ha.distinct) (.of_map _ hb.distinct)]
    rintro ⟨name, value⟩
    rw [ha.mem_iff, hb.mem_iff, same]
  refine perm.eq_of_pairwise ?_ ha hb
  intro x y _ _ lt gt
  rw [Std.OrientedCmp.gt_of_lt lt] at gt
  cases gt

end Entries

end CommitLog
