import CommitLog.Path.Table
import Mathlib.Data.String.Basic
import Mathlib.Tactic.Tauto

/-!
# The order of paths

Paths are ordered by their components, and equal in order when these are.  So the sets and tables
of paths hold a path at most once, and what they hold is found by components.

    a.order b = .eq ↔ a.components = b.components
    (table.insert path value).get? other = if path == other then some value else table.get? other
-/

namespace CommitLog

/-! ## Components -/

namespace Component

theorem order_eq_compareLex :
    order = compareLex (compareOn rank) (compareOn text) := by
  funext a b
  cases a <;> cases b <;> rfl

instance : Std.TransCmp order := by
  rw [order_eq_compareLex]
  infer_instance

instance : Std.LawfulEqCmp order where
  eq_of_compare {a b} h := by
    cases a <;> cases b <;> simp_all [order, rank, Std.LawfulEqCmp.compare_eq_iff_eq]

end Component

theorem orderComponents_eq_compareLex :
    orderComponents = List.compareLex Component.order := by
  funext as bs
  induction as generalizing bs with
  | nil => cases bs <;> rfl
  | cons a as ih =>
    cases bs with
    | nil => rfl
    | cons b bs => rw [orderComponents, List.compareLex_cons_cons, ih]

namespace Path

theorem beq_iff {a b : Path} : (a == b) = true ↔ a.components = b.components := by
  change same a b = true ↔ _
  rw [same, beq_iff_eq]

instance : EquivBEq Path where
  rfl := beq_iff.2 rfl
  symm h := beq_iff.2 (beq_iff.1 h).symm
  trans h₁ h₂ := beq_iff.2 ((beq_iff.1 h₁).trans (beq_iff.1 h₂))

instance : LawfulHashable Path where
  hash_eq a b same := by
    show hash a.components = hash b.components
    rw [beq_iff.1 same]

theorem order_eq_iff {a b : Path} : a.order b = .eq ↔ (a == b) = true := by
  rw [order, orderComponents_eq_compareLex, Std.LawfulEqCmp.compare_eq_iff_eq, beq_iff]

instance : Std.TransCmp order where
  eq_swap {a b} := by
    simp only [order, orderComponents_eq_compareLex]
    exact Std.OrientedCmp.eq_swap
  isLE_trans {a b c} h₁ h₂ := by
    simp only [order, orderComponents_eq_compareLex] at *
    exact Std.TransCmp.isLE_trans h₁ h₂

end Path

/-! ## Sets of paths -/

section Sets

variable {P : List Component → Prop} {path : Path} {paths set : List Path} {cs ds : List Component}
  {all known : List (List Component)}

/-- Adds the components of a path to an ascending list, unless the list already has them. -/
def insertComponents (cs : List Component) : List (List Component) → List (List Component)
  | [] => [cs]
  | ds :: rest =>
    match orderComponents cs ds with
    | .lt => cs :: ds :: rest
    | .eq => ds :: rest
    | .gt => ds :: insertComponents cs rest

theorem map_components_insertPath : (insertPath path set).map Path.components =
    insertComponents path.components (set.map Path.components) := by
  induction set with
  | nil => rfl
  | cons p rest ih =>
    unfold insertPath Path.order
    rw [List.map_cons, insertComponents]
    cases orderComponents path.components p.components with
    | lt | eq => rfl
    | gt => exact congrArg (p.components :: ·) ih

/-- Which spelling of a path is kept makes no difference to the components. -/
theorem map_components_replacePath : (replacePath path set).map Path.components =
    insertComponents path.components (set.map Path.components) := by
  induction set with
  | nil => rfl
  | cons p rest ih =>
    unfold replacePath Path.order
    rw [List.map_cons, insertComponents]
    cases order : orderComponents path.components p.components with
    | lt => rfl
    | eq =>
      have same : path.components = p.components := Path.beq_iff.1 (Path.order_eq_iff.1 order)
      exact congrArg (· :: rest.map Path.components) same
    | gt => exact congrArg (p.components :: ·) ih

theorem map_components_foldl_insertPath :
    (paths.foldl (fun set p => insertPath p set) set).map Path.components =
      (paths.map Path.components).foldl (fun known cs => insertComponents cs known)
        (set.map Path.components) := by
  induction paths generalizing set with
  | nil => rfl
  | cons p rest ih => rw [List.foldl_cons, ih, map_components_insertPath, List.map_cons,
      List.foldl_cons]

theorem map_components_sortPaths : (sortPaths paths).map Path.components =
    (paths.map Path.components).foldl (fun known cs => insertComponents cs known) [] := by
  suffices run : ∀ set, (paths.foldl (fun set p => replacePath p set) set).map Path.components =
      (paths.map Path.components).foldl (fun known cs => insertComponents cs known)
        (set.map Path.components) from run []
  induction paths with
  | nil => exact fun _ => rfl
  | cons p rest ih =>
    intro set
    rw [List.foldl_cons, ih, map_components_replacePath, List.map_cons, List.foldl_cons]

theorem mem_insertComponents : ds ∈ insertComponents cs known ↔ ds = cs ∨ ds ∈ known := by
  induction known with
  | nil => exact List.mem_singleton.trans (by simp)
  | cons es rest ih =>
    unfold insertComponents
    split
    · exact List.mem_cons
    · next eq =>
      have same : cs = es := by
        rw [orderComponents_eq_compareLex] at eq
        exact Std.LawfulEqCmp.compare_eq_iff_eq.1 eq
      simp [same]
    · simp only [List.mem_cons, ih]
      exact or_left_comm

theorem mem_foldl_insertComponents :
    ds ∈ all.foldl (fun known cs => insertComponents cs known) known ↔ ds ∈ known ∨ ds ∈ all := by
  induction all generalizing known with
  | nil => simp
  | cons cs rest ih =>
    rw [List.foldl_cons, ih, mem_insertComponents, List.mem_cons]
    exact or_assoc.trans or_left_comm

theorem exists_mem_components :
    (∃ q ∈ paths, P q.components) ↔ ∃ cs ∈ paths.map Path.components, P cs := by
  simp only [List.mem_map, exists_exists_and_eq_and]

/-- Whether some path of a set has a property of its components. -/
theorem exists_mem_foldl_insertPath :
    (∃ q ∈ paths.foldl (fun set p => insertPath p set) set, P q.components) ↔
      (∃ q ∈ set, P q.components) ∨ ∃ q ∈ paths, P q.components := by
  rw [exists_mem_components, map_components_foldl_insertPath]
  simp only [mem_foldl_insertComponents, or_and_right, exists_or, exists_mem_components]

theorem exists_mem_sortPaths :
    (∃ q ∈ sortPaths paths, P q.components) ↔ ∃ q ∈ paths, P q.components := by
  rw [exists_mem_components, map_components_sortPaths]
  simp only [mem_foldl_insertComponents, List.not_mem_nil, false_or, exists_mem_components]

theorem mem_insertPath {other : Path} (h : other ∈ insertPath path paths) :
    other = path ∨ other ∈ paths := by
  induction paths with
  | nil => exact .inl (List.mem_singleton.1 h)
  | cons p rest ih =>
    unfold insertPath at h
    split at h
    · exact List.mem_cons.1 h
    · exact .inr h
    · rcases List.mem_cons.1 h with rfl | h
      · exact .inr List.mem_cons_self
      · exact (ih h).imp_right (List.mem_cons_of_mem _)

theorem mem_foldl_insertPath (h : path ∈ paths.foldl (fun set p => insertPath p set) set) :
    path ∈ set ∨ path ∈ paths := by
  induction paths generalizing set with
  | nil => exact .inl h
  | cons p rest ih =>
    rcases ih h with h | h
    · rcases mem_insertPath h with rfl | h
      · exact .inr List.mem_cons_self
      · exact .inl h
    · exact .inr (List.mem_cons_of_mem _ h)

theorem pairwise_insertPath (ascending : set.Pairwise fun a b => a.order b = .lt) :
    (insertPath path set).Pairwise fun a b => a.order b = .lt := by
  induction set with
  | nil => exact List.pairwise_singleton _ _
  | cons p rest ih =>
    obtain ⟨least, pairwise⟩ := List.pairwise_cons.1 ascending
    unfold insertPath
    split
    · next lt =>
      refine List.pairwise_cons.2 ⟨fun q h => ?_, ascending⟩
      rcases List.mem_cons.1 h with rfl | h
      · exact lt
      · exact Std.TransCmp.lt_trans lt (least q h)
    · exact ascending
    · next gt =>
      refine List.pairwise_cons.2 ⟨fun q h => ?_, ih pairwise⟩
      rcases mem_insertPath h with rfl | h
      · exact Std.OrientedCmp.lt_of_gt gt
      · exact least q h

/-- Paths that are added one after the other stand in ascending order. -/
theorem pairwise_foldl_insertPath (ascending : set.Pairwise fun a b => a.order b = .lt) :
    (paths.foldl (fun set p => insertPath p set) set).Pairwise fun a b => a.order b = .lt := by
  induction paths generalizing set with
  | nil => exact ascending
  | cons p rest ih => exact ih (pairwise_insertPath ascending)

theorem contains_sortPaths : (sortPaths paths).contains path = paths.contains path := by
  rw [Bool.eq_iff_iff, List.contains_iff_exists_mem_beq, List.contains_iff_exists_mem_beq]
  simp only [Path.beq_iff]
  exact exists_mem_sortPaths

end Sets

/-! ## Tables -/

namespace PathTable

variable {α : Type} {path other : Path} {value : α} {entries : List (Path × α)}
  {table : PathTable α}

theorem find?_insertEntry :
    ((insertEntry path value entries).find? fun (p, _) => p == other).map (·.2) =
      if path == other then some value
      else (entries.find? fun (p, _) => p == other).map (·.2) := by
  induction entries with
  | nil => by_cases h : (path == other) = true <;> simp [insertEntry, h]
  | cons entry rest ih =>
    obtain ⟨p, v⟩ := entry
    unfold insertEntry
    split
    · by_cases h : (path == other) = true <;> simp [h]
    · next same =>
      have same : (path == other) = (p == other) := BEq.congr_left (Path.order_eq_iff.1 same)
      by_cases h : (p == other) = true <;> simp [same, h]
    · next gt =>
      by_cases h : (p == other) = true
      · -- the new entry goes further down, so its path is another one
        have differ : ¬ (path == other) = true := fun h' => by
          rw [Path.order_eq_iff.2 (BEq.trans h' (BEq.symm h))] at gt
          cases gt
        simp [h, differ]
      · simpa [h] using ih

@[simp]
theorem get?_insert : (table.insert path value).get? other =
    if path == other then some value else table.get? other :=
  find?_insertEntry

theorem get?_congr (same : (path == other) = true) : table.get? path = table.get? other := by
  have same : (fun entry : Path × α => entry.1 == path) = fun entry => entry.1 == other := by
    funext entry
    exact BEq.congr_right same
  unfold get?
  rw [same]

theorem mem_insertEntry {entry : Path × α} (h : entry ∈ insertEntry path value entries) :
    (entry.1 == path) = true ∧ entry.2 = value ∨ entry ∈ entries := by
  induction entries with
  | nil =>
    rw [List.mem_singleton.1 h]
    exact .inl ⟨BEq.rfl, rfl⟩
  | cons first rest ih =>
    obtain ⟨p, v⟩ := first
    unfold insertEntry at h
    split at h
    · rcases List.mem_cons.1 h with rfl | h
      · exact .inl ⟨BEq.rfl, rfl⟩
      · exact .inr h
    · next same =>
      rcases List.mem_cons.1 h with rfl | h
      · exact .inl ⟨BEq.symm (Path.order_eq_iff.1 same), rfl⟩
      · exact .inr (List.mem_cons_of_mem _ h)
    · rcases List.mem_cons.1 h with rfl | h
      · exact .inr List.mem_cons_self
      · exact (ih h).imp_right (List.mem_cons_of_mem _)

def Ascending (table : PathTable α) : Prop :=
  table.entries.Pairwise fun a b => a.1.order b.1 = .lt

theorem ascending_empty : Ascending (empty : PathTable α) := .nil

theorem Ascending.insert (ascending : Ascending table) : Ascending (table.insert path value) := by
  obtain ⟨entries⟩ := table
  unfold Ascending PathTable.insert at *
  induction entries with
  | nil => simp [insertEntry]
  | cons first rest ih =>
    obtain ⟨p, v⟩ := first
    obtain ⟨least, pairwise⟩ := List.pairwise_cons.1 ascending
    unfold insertEntry
    split
    · next lt =>
      refine List.pairwise_cons.2 ⟨fun entry h => ?_, ascending⟩
      rcases List.mem_cons.1 h with rfl | h
      · exact lt
      · exact Std.TransCmp.lt_trans lt (least entry h)
    · exact List.pairwise_cons.2 ⟨least, pairwise⟩
    · next gt =>
      refine List.pairwise_cons.2 ⟨fun entry h => ?_, ih pairwise⟩
      rcases mem_insertEntry h with ⟨same, -⟩ | h
      · rw [Std.TransCmp.congr_right (Path.order_eq_iff.2 same)]
        exact Std.OrientedCmp.lt_of_gt gt
      · exact least entry h

/-- An ascending table gives the value of every entry. -/
theorem Ascending.get?_eq (ascending : Ascending table) {entry : Path × α}
    (h : entry ∈ table.entries) (same : (entry.1 == path) = true) :
    table.get? path = some entry.2 := by
  obtain ⟨entries⟩ := table
  unfold Ascending at ascending
  unfold get?
  induction entries with
  | nil => cases h
  | cons first rest ih =>
    obtain ⟨least, pairwise⟩ := List.pairwise_cons.1 ascending
    rcases List.mem_cons.1 h with rfl | h
    · simp [same]
    · have differ : ¬ (first.1 == path) = true := fun h' => by
        have := least entry h
        rw [Path.order_eq_iff.2 (BEq.trans h' (BEq.symm same))] at this
        cases this
      simpa [differ] using ih pairwise h

/-- No two entries have the same path. -/
theorem Ascending.eq_of_beq (ascending : Ascending table) {a b : Path × α}
    (ha : a ∈ table.entries) (hb : b ∈ table.entries) (same : (a.1 == b.1) = true) : a = b := by
  obtain ⟨m, hm, rfl⟩ := List.getElem_of_mem ha
  obtain ⟨n, hn, rfl⟩ := List.getElem_of_mem hb
  have equal := Path.order_eq_iff.2 same
  rcases Nat.lt_trichotomy m n with lt | rfl | lt
  · have less := List.pairwise_iff_getElem.1 ascending m n hm hn lt
    rw [equal] at less
    cases less
  · rfl
  · have less := List.pairwise_iff_getElem.1 ascending n m hn hm lt
    rw [Path.order_eq_iff.2 (BEq.symm same)] at less
    cases less

end PathTable

end CommitLog
