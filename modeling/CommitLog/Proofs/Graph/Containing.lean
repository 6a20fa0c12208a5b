import CommitLog.Proofs.Graph.Heads
import CommitLog.Proofs.Graph.Visible

/-!
# The heads that contain a commit

The table of containing heads is complete: when the turn of a row comes, its children have passed on
to it all heads that lead to it, because children come first.

    ChildrenFirst graph.rows →
      graph.headTable[i]? = some set → (h ∈ set ↔ h ∈ graph.heads ∧ graph.Leads h i)
-/

namespace CommitLog.PermanentGraph

open GraphCommit

variable {graph : PermanentGraph} {table : Std.HashMap CommitIndex CommitSet}

/-! ## One row -/

theorem mem_getD_foldl_union {own : CommitSet} {parents : List CommitIndex} {j n : CommitIndex} :
    n ∈ (parents.foldl (fun table p => table.insert p ((table.getD p .empty).union own))
        table).getD j .empty ↔ n ∈ table.getD j .empty ∨ (j ∈ parents ∧ n ∈ own) := by
  induction parents generalizing table with
  | nil => simp
  | cons p parents ih =>
    rw [List.foldl_cons, ih, Std.HashMap.getD_insert]
    by_cases same : p = j
    · subst same
      simp only [beq_self_eq_true, if_true, CommitSet.mem_union, List.mem_cons, true_or, true_and]
      grind
    · have other : (p == j) = false := beq_eq_false_iff_ne.2 same
      simp only [other, Bool.false_eq_true, if_false, List.mem_cons, Ne.symm same, false_or]

theorem mem_foldl_union {own : CommitSet} {parents : List CommitIndex} {j : CommitIndex} :
    j ∈ parents.foldl (fun table p => table.insert p ((table.getD p .empty).union own)) table ↔
      j ∈ table ∨ j ∈ parents := by
  induction parents generalizing table with
  | nil => simp
  | cons p parents ih =>
    rw [List.foldl_cons, ih, Std.HashMap.mem_insert, List.mem_cons, beq_iff_eq]
    grind

/-- A row gets itself if it is a head, and its parents get what it has. -/
theorem mem_getD_passHeads {heads : CommitSet} {row : GraphCommit} {j n : CommitIndex} :
    n ∈ (passHeads heads table row).getD j .empty ↔ n ∈ table.getD j .empty ∨
      ((j = row.index ∨ j ∈ row.parents) ∧
        (n ∈ table.getD row.index .empty ∨ (n = row.index ∧ row.index ∈ heads))) := by
  have own : n ∈ (if heads.contains row.index
      then (table.getD row.index .empty).insert row.index else table.getD row.index .empty) ↔
      n ∈ table.getD row.index .empty ∨ (n = row.index ∧ row.index ∈ heads) := by
    by_cases isHead : row.index ∈ heads
    · rw [if_pos (CommitSet.contains_iff.2 isHead), CommitSet.mem_insert]
      grind
    · rw [if_neg (fun h => isHead (CommitSet.contains_iff.1 h))]
      grind
  unfold passHeads
  rw [mem_getD_foldl_union, own, Std.HashMap.getD_insert]
  by_cases same : row.index = j
  · subst same
    simp only [beq_self_eq_true, if_true, own, true_or, true_and]
    grind
  · have other : (row.index == j) = false := beq_eq_false_iff_ne.2 same
    simp only [other, Bool.false_eq_true, if_false, Ne.symm same, false_or]

theorem mem_passHeads {heads : CommitSet} {row : GraphCommit} {j : CommitIndex} :
    j ∈ passHeads heads table row ↔ j ∈ table ∨ j = row.index ∨ j ∈ row.parents := by
  unfold passHeads
  rw [mem_foldl_union, Std.HashMap.mem_insert, beq_iff_eq]
  grind

/-! ## All rows -/

/-- What the table has after these rows: an entry for each of them and for their parents, with all
heads that lead to the row. -/
structure TableComplete (graph : PermanentGraph) (done : List GraphCommit)
    (table : Std.HashMap CommitIndex CommitSet) : Prop where
  mem_iff : ∀ j, j ∈ table ↔ ∃ c ∈ done, j = c.index ∨ j ∈ c.parents
  has : ∀ c ∈ done, ∀ h ∈ graph.heads, graph.Leads h c.index →
    ∀ j, j = c.index ∨ j ∈ c.parents → h ∈ table.getD j .empty

theorem TableComplete.passHeads (wellFormed : graph.WellFormed)
    (ordered : ChildrenFirst graph.rows) {done rest : List GraphCommit} {row : GraphCommit}
    (rows : graph.rows = done ++ row :: rest) (complete : graph.TableComplete done table) :
    graph.TableComplete (done ++ [row]) (passHeads graph.heads table row) := by
  have hrow : row ∈ graph.rows := by
    rw [rows]
    exact List.mem_append_right _ List.mem_cons_self
  refine ⟨fun j => ?_, fun c hc h isHead leads j hj => ?_⟩
  · rw [mem_passHeads, complete.mem_iff]
    simp only [List.mem_append, List.mem_singleton, or_and_right, exists_or, exists_eq_left]
  rw [mem_getD_passHeads]
  rcases List.mem_append.1 hc with hc | hc
  · exact Or.inl (complete.has c hc h isHead leads j hj)
  obtain rfl := List.mem_singleton.1 hc
  refine Or.inr ⟨hj, ?_⟩
  rcases Relation.ReflTransGen.cases_tail leads with same | ⟨child, leads, link⟩
  · exact Or.inr ⟨same.symm, same ▸ isHead⟩
  · -- the last child on the way stands above the row, so it has passed the head on
    obtain ⟨d, hd, rfl, hp⟩ := wellFormed.numbered.isParent.1 (mem_parents_iff.1 link)
    have above : d ∈ done := by
      obtain ⟨own, before⟩ := ordered
      rw [rows] at hd before
      rcases List.mem_append.1 hd with above | below
      · exact above
      · obtain ⟨-, before, -⟩ := List.pairwise_append.1 before
        rcases List.mem_cons.1 below with rfl | below
        · exact absurd hp (own d hrow)
        · exact absurd hp ((List.pairwise_cons.1 before).1 d below)
    exact Or.inl (complete.has d above h isHead leads c.index (Or.inr hp))

theorem tableComplete_headTable (wellFormed : graph.WellFormed)
    (ordered : ChildrenFirst graph.rows) : graph.TableComplete graph.rows graph.headTable := by
  have run : ∀ (rest done : List GraphCommit) (table : Std.HashMap CommitIndex CommitSet),
      graph.rows = done ++ rest → graph.TableComplete done table →
      graph.TableComplete graph.rows
        (rest.foldl (PermanentGraph.passHeads graph.heads) table) := by
    intro rest
    induction rest with
    | nil =>
      intro done table rows complete
      rwa [rows, List.append_nil]
    | cons row rest ih =>
      intro done table rows complete
      refine ih (done ++ [row]) _ ?_ (complete.passHeads wellFormed ordered rows)
      rw [rows, List.append_assoc, List.singleton_append]
  refine run graph.rows [] ∅ rfl ⟨fun j => ?_, fun c hc => ?_⟩
  · simp
  · exact absurd hc List.not_mem_nil

/-- The table has an entry for every commit and for nothing else. -/
theorem isSome_containingHeads? (wellFormed : graph.WellFormed)
    (ordered : ChildrenFirst graph.rows) {i : CommitIndex} :
    (graph.containingHeads? i).isSome = true ↔ ∃ c ∈ graph.rows, c.index = i := by
  rw [containingHeads?, ← Std.HashMap.contains_eq_isSome_getElem?, Std.HashMap.contains_iff_mem,
    (tableComplete_headTable wellFormed ordered).mem_iff]
  constructor
  · rintro ⟨c, hc, rfl | hp⟩
    · exact ⟨c, hc, rfl⟩
    · exact wellFormed.known c hc i hp
  · rintro ⟨c, hc, rfl⟩
    exact ⟨c, hc, Or.inl rfl⟩

/-- The entry of a commit has the heads that lead to it. -/
theorem mem_containingHeads (wellFormed : graph.WellFormed) (ordered : ChildrenFirst graph.rows)
    {i : CommitIndex} {set : CommitSet} (found : graph.containingHeads? i = some set)
    {h : CommitIndex} : h ∈ set ↔ h ∈ graph.heads ∧ graph.Leads h i := by
  constructor
  · exact tableSound_headTable wellFormed i set found h
  · rintro ⟨isHead, leads⟩
    obtain ⟨c, hc, rfl⟩ := (isSome_containingHeads? wellFormed ordered).1 (by rw [found]; rfl)
    have has := (tableComplete_headTable wellFormed ordered).has c hc h isHead leads _ (Or.inl rfl)
    rw [containingHeads?] at found
    rwa [Std.HashMap.getD_eq_getD_getElem?, found] at has

/-- The commits that some heads reach in the table are those that a view from these heads shows. -/
theorem isReachableFromAny_iff (wellFormed : graph.WellFormed)
    (ordered : ChildrenFirst graph.rows) {heads : CommitSet} (sub : ∀ h ∈ heads, h ∈ graph.heads)
    {i : CommitIndex} : graph.isReachableFromAny i heads = true ↔
      i ∈ (graph.visible .date (some heads) none).commits := by
  have shows : i ∈ (graph.visible .date (some heads) none).commits ↔
      (∃ c ∈ graph.rows, c.index = i) ∧ ∃ h ∈ heads, graph.Leads h i := by
    have mem := (map_commit_visibleRows wellFormed (some heads) none).2 i
    simpa [Shows, VisibleGraph.commits, VisibleGraph.rows, visible] using mem
  rw [shows, ← isSome_containingHeads? wellFormed ordered, isReachableFromAny]
  cases found : graph.containingHeads? i with
  | none => simp
  | some set =>
    simp only [Option.any_some, CommitSet.meets_iff, mem_containingHeads wellFormed ordered found,
      Option.isSome_some, true_and]
    constructor
    · rintro ⟨h, ⟨-, leads⟩, mem⟩
      exact ⟨h, mem, leads⟩
    · rintro ⟨h, mem, leads⟩
      exact ⟨h, ⟨sub h mem, leads⟩, mem⟩

/-- Links between the rows are links between the given commits. -/
theorem leads_ofCommits {commits : List GraphCommit} {heads : List CommitIndex}
    {h i : CommitIndex} (known : ∃ c ∈ commits, c.index = i) :
    (ofCommits commits heads).Leads h i ↔
      Relation.ReflTransGen (IsParent commits) h i := by
  constructor
  · intro leads
    exact Relation.ReflTransGen.mono (fun _ _ link => (mem_parents_ofCommits.1 link).1) _ _ leads
  · intro path
    induction path using Relation.ReflTransGen.head_induction_on with
    | refl => exact .refl
    | @head child parent link path ih =>
      -- a parent that leads further is a commit, and so is the last one
      have isCommit : ∃ c ∈ commits, c.index = parent := by
        rcases path.cases_head with rfl | ⟨_, ⟨c, found, -⟩, -⟩
        · exact known
        · exact ⟨c, List.mem_of_find?_eq_some found, by simpa using List.find?_some found⟩
      exact .head (mem_parents_ofCommits.2 ⟨link, isCommit⟩) ih

/-- **The heads that contain a commit are those that it can be reached from.**  The table of the
in-memory search and the view from some heads agree on what these heads reach. -/
theorem containingHeads?_ofCommits {commits : List GraphCommit} (heads : List CommitIndex)
    (acyclic : Acyclic commits) :
    let graph := ofCommits commits heads
    (∀ i, graph.containingHeads? i = none ↔ ∀ c ∈ commits, c.index ≠ i) ∧
    (∀ i set, graph.containingHeads? i = some set → ∀ h, h ∈ set ↔
      h ∈ heads ∧ (∃ c ∈ commits, c.index = h) ∧
        Relation.ReflTransGen (IsParent commits) h i) ∧
    ∀ set : CommitSet, (∀ h ∈ set, h ∈ graph.heads) → ∀ i,
      graph.isReachableFromAny i set = true ↔
        i ∈ (graph.visible .date (some set) none).commits := by
  intro graph
  have wellFormed : graph.WellFormed := wellFormed_ofCommits commits heads
  have ordered : ChildrenFirst graph.rows := childrenFirst_ofCommits heads acyclic
  have known : ∀ i, (graph.containingHeads? i).isSome = true ↔ ∃ c ∈ commits, c.index = i := by
    intro i
    rw [isSome_containingHeads? wellFormed ordered, exists_row_ofCommits]
  refine ⟨fun i => ?_, fun i set found h => ?_, fun set sub i => ?_⟩
  · rw [← Option.not_isSome_iff_eq_none, known]
    simp
  · have isCommit := (known i).1 (by rw [found]; rfl)
    rw [mem_containingHeads wellFormed ordered found, mem_heads_ofCommits, exists_row_ofCommits,
      leads_ofCommits isCommit, and_assoc]
  · exact isReachableFromAny_iff wellFormed ordered sub

/-- A merge of two branches, one of which has a head of its own. -/
theorem containingHeads?_merge :
    let graph := ofCommits [⟨0, [1, 2, 9], 30⟩, ⟨1, [3], 20⟩, ⟨2, [3], 10⟩, ⟨3, [], 0⟩] [0, 2, 9]
    graph.containingHeads? 9 = none ∧
    (∀ set, graph.containingHeads? 3 = some set → 2 ∈ set ∧ 9 ∉ set) ∧
    (graph.isReachableFromAny 1 (.ofList [2]) = true ↔
      1 ∈ (graph.visible .date (some (.ofList [2])) none).commits) := by
  have acyclic : Acyclic [⟨0, [1, 2, 9], 30⟩, ⟨1, [3], 20⟩, ⟨2, [3], 10⟩, ⟨3, [], 0⟩] :=
    acyclic_of_rank id (by decide)
  obtain ⟨none, mem, same⟩ := containingHeads?_ofCommits [0, 2, 9] acyclic
  refine ⟨(none 9).2 (by decide), fun set found => ?_, same (.ofList [2]) (fun h hh => ?_) 1⟩
  · refine ⟨(mem 3 set found 2).2 ⟨by decide, by decide, .single ⟨_, rfl, by decide⟩⟩, ?_⟩
    intro unknown
    exact absurd ((mem 3 set found 9).1 unknown).2.1 (by decide)
  · rw [CommitSet.mem_ofList, List.mem_singleton] at hh
    subst hh
    exact mem_heads_ofCommits.2 ⟨by decide, exists_row_ofCommits.2 (by decide)⟩

end CommitLog.PermanentGraph
