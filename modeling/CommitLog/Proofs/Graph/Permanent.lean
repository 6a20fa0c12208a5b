import CommitLog.Proofs.Graph.Members
import CommitLog.Proofs.Graph.PermanentOrder

/-!
# The permanent graph of some commits

The rows of `ofCommits commits heads` are the first commits of their numbers with their known
parents, in permanent order.

    Acyclic commits → ChildrenFirst (ofCommits commits heads).rows
-/

namespace CommitLog

namespace GraphCommit

theorem mem_closeParents {commits : List GraphCommit} {c : GraphCommit} :
    c ∈ closeParents commits ↔ ∃ d ∈ commits, c =
      { d with parents := d.parents.filter fun p => commits.any (·.index == p) } := by
  have known : (table commits).contains = fun p => commits.any (·.index == p) := by
    funext p
    rw [Bool.eq_iff_iff, contains_table]
    simp
  simp only [closeParents, known, List.mem_map, eq_comm]

theorem map_index_closeParents (commits : List GraphCommit) :
    (closeParents commits).map (·.index) = commits.map (·.index) := by
  simp [closeParents]

theorem numbered_closeParents {commits : List GraphCommit} (numbered : Numbered commits) :
    Numbered (closeParents commits) := by
  rwa [Numbered, map_index_closeParents]

theorem known_closeParents {commits : List GraphCommit} {c : GraphCommit}
    (hc : c ∈ closeParents commits) {p : CommitIndex} (hp : p ∈ c.parents) :
    ∃ d ∈ closeParents commits, d.index = p := by
  obtain ⟨d, hd, rfl⟩ := mem_closeParents.1 hc
  obtain ⟨-, known⟩ := List.mem_filter.1 hp
  obtain ⟨e, he, same⟩ := List.any_eq_true.1 known
  exact ⟨_, mem_closeParents.2 ⟨e, he, rfl⟩, by simpa using same⟩

/-- The links between the commits that are kept are links between the given ones. -/
theorem isParent_of_closeParents {commits : List GraphCommit} {child parent : CommitIndex}
    (h : IsParent (closeParents (distinct commits)) child parent) :
    IsParent commits child parent := by
  obtain ⟨c, hc, hp⟩ := (numbered_closeParents (numbered_distinct commits)).isParent.1 h
  obtain ⟨d, hd, rfl⟩ := mem_closeParents.1 hc
  refine ⟨d, ?_, (List.mem_filter.1 hp.2).1⟩
  rw [← find?_distinct]
  exact (numbered_distinct commits).find?.2 ⟨hd, hp.1⟩

theorem acyclic_closeParents {commits : List GraphCommit} (acyclic : Acyclic commits) :
    Acyclic (closeParents (distinct commits)) := fun index cycle =>
  acyclic index (Relation.TransGen.mono (fun _ _ => isParent_of_closeParents) _ _ cycle)

end GraphCommit

open GraphCommit

namespace PermanentGraph

/-- A commit and one that its parents lead to, itself included. -/
def Leads (graph : PermanentGraph) : CommitIndex → CommitIndex → Prop :=
  Relation.ReflTransGen fun child parent => parent ∈ graph.parents child

/-- The numbers of the rows differ, and the parents of a row are rows. -/
structure WellFormed (graph : PermanentGraph) : Prop where
  numbered : Numbered graph.rows
  known : ∀ c ∈ graph.rows, ∀ p ∈ c.parents, ∃ d ∈ graph.rows, d.index = p

theorem rows_ofCommits (commits : List GraphCommit) (heads : List CommitIndex) :
    (ofCommits commits heads).rows.Perm (closeParents (distinct commits)) ∧
      GreedyOrder (ofCommits commits heads).rows :=
  permanentOrder_spec (numbered_closeParents (numbered_distinct commits))
    fun _ hc _ hp => known_closeParents hc hp

theorem wellFormed_ofCommits (commits : List GraphCommit) (heads : List CommitIndex) :
    (ofCommits commits heads).WellFormed := by
  obtain ⟨perm, -⟩ := rows_ofCommits commits heads
  refine ⟨(numbered_closeParents (numbered_distinct commits)).perm perm, fun c hc p hp => ?_⟩
  obtain ⟨d, hd, same⟩ := known_closeParents (perm.mem_iff.1 hc) hp
  exact ⟨d, perm.mem_iff.2 hd, same⟩

theorem childrenFirst_ofCommits {commits : List GraphCommit} (heads : List CommitIndex)
    (acyclic : Acyclic commits) : ChildrenFirst (ofCommits commits heads).rows := by
  obtain ⟨perm, greedy⟩ := rows_ofCommits commits heads
  exact greedy.childrenFirst (numbered_closeParents (numbered_distinct commits))
    (acyclic_closeParents acyclic) fun c hc => perm.mem_iff.1 hc

theorem mem_heads_ofCommits {commits : List GraphCommit} {heads : List CommitIndex}
    {h : CommitIndex} : h ∈ (ofCommits commits heads).heads ↔
      h ∈ heads ∧ ∃ c ∈ (ofCommits commits heads).rows, c.index = h := by
  simp only [ofCommits, CommitSet.mem_ofList, List.mem_filter, contains_table]

/-- The numbers of the rows are those of the commits. -/
theorem exists_row_ofCommits {commits : List GraphCommit} {heads : List CommitIndex}
    {i : CommitIndex} :
    (∃ c ∈ (ofCommits commits heads).rows, c.index = i) ↔ ∃ c ∈ commits, c.index = i := by
  obtain ⟨perm, -⟩ := rows_ofCommits commits heads
  have same : i ∈ (ofCommits commits heads).rows.map (·.index) ↔
      i ∈ (distinct commits).map (·.index) := by
    rw [(perm.map _).mem_iff, map_index_closeParents]
  simp only [List.mem_map] at same
  rw [same]
  constructor
  · rintro ⟨c, hc, rfl⟩
    have found := (numbered_distinct commits).find?.2 ⟨hc, rfl⟩
    rw [find?_distinct] at found
    exact ⟨c, List.mem_of_find?_eq_some found, rfl⟩
  · rintro ⟨c, hc, rfl⟩
    have found : (commits.find? (·.index == c.index)).isSome = true :=
      List.find?_isSome.2 ⟨c, hc, by simp⟩
    obtain ⟨d, hd⟩ := Option.isSome_iff_exists.1 found
    rw [← find?_distinct] at hd
    exact ⟨d, (numbered_distinct commits).find?.1 hd⟩

variable {graph : PermanentGraph}

theorem WellFormed.commit? (wellFormed : graph.WellFormed) {index : CommitIndex}
    {c : GraphCommit} : graph.commit? index = some c ↔ c ∈ graph.rows ∧ c.index = index :=
  wellFormed.numbered.find?

theorem WellFormed.parents (wellFormed : graph.WellFormed) {c : GraphCommit}
    (hc : c ∈ graph.rows) : graph.parents c.index = c.parents := by
  rw [PermanentGraph.parents, wellFormed.commit?.2 ⟨hc, rfl⟩]
  rfl

theorem mem_parents_iff {child parent : CommitIndex} :
    parent ∈ graph.parents child ↔ IsParent graph.rows child parent := by
  rw [PermanentGraph.parents, PermanentGraph.commit?, IsParent]
  cases graph.rows.find? (·.index == child) <;> simp

/-- The parents of a commit are those that it is given, as far as they are commits. -/
theorem mem_parents_ofCommits {commits : List GraphCommit} {heads : List CommitIndex}
    {child parent : CommitIndex} : parent ∈ (ofCommits commits heads).parents child ↔
      IsParent commits child parent ∧ ∃ c ∈ commits, c.index = parent := by
  obtain ⟨perm, -⟩ := rows_ofCommits commits heads
  have numbered := numbered_closeParents (numbered_distinct commits)
  rw [mem_parents_iff, numbered.isParent_congr perm]
  constructor
  · intro link
    refine ⟨isParent_of_closeParents link, ?_⟩
    obtain ⟨c, hc, -, hp⟩ := numbered.isParent.1 link
    obtain ⟨d, hd, same⟩ := known_closeParents hc hp
    exact (@exists_row_ofCommits commits heads parent).1 ⟨d, perm.mem_iff.2 hd, same⟩
  · rintro ⟨⟨c, found, hp⟩, known⟩
    rw [← find?_distinct] at found
    obtain ⟨hc, same⟩ := (numbered_distinct commits).find?.1 found
    refine numbered.isParent.2 ⟨_, mem_closeParents.2 ⟨c, hc, rfl⟩, same, ?_⟩
    obtain ⟨d, hd, same⟩ := (@exists_row_ofCommits commits heads parent).2 known
    obtain ⟨e, he, rfl⟩ := mem_closeParents.1 (perm.mem_iff.1 hd)
    exact List.mem_filter.2 ⟨hp, List.any_eq_true.2 ⟨e, he, by simpa using same⟩⟩

/-- Parents are rows. -/
theorem WellFormed.known_parent (wellFormed : graph.WellFormed) {child parent : CommitIndex}
    (h : parent ∈ graph.parents child) : ∃ c ∈ graph.rows, c.index = parent := by
  obtain ⟨c, hc, -, hp⟩ := wellFormed.numbered.isParent.1 (mem_parents_iff.1 h)
  exact wellFormed.known c hc parent hp

end PermanentGraph

end CommitLog
