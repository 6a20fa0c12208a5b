import CommitLog.Proofs.Graph.Members
import CommitLog.Proofs.Graph.Permanent

/-!
# The table of containing heads

Every head that the table has for a commit leads to it.

    h ∈ set → graph.headTable[i]? = some set → h ∈ graph.heads ∧ graph.Leads h i
-/

namespace CommitLog.PermanentGraph

/-- The heads of a table lead to the commits that it has them for. -/
def TableSound (graph : PermanentGraph) (table : Std.HashMap CommitIndex CommitSet) : Prop :=
  ∀ i set, table[i]? = some set → ∀ h ∈ set, h ∈ graph.heads ∧ graph.Leads h i

variable {graph : PermanentGraph} {table : Std.HashMap CommitIndex CommitSet}

theorem TableSound.insert (sound : graph.TableSound table) {i : CommitIndex} {set : CommitSet}
    (leads : ∀ h ∈ set, h ∈ graph.heads ∧ graph.Leads h i) :
    graph.TableSound (table.insert i set) := by
  intro j other found
  rw [Std.HashMap.getElem?_insert] at found
  split at found
  · next same =>
    rw [← beq_iff_eq.1 same, ← Option.some.inj found]
    exact leads
  · exact sound j other found

theorem TableSound.getD (sound : graph.TableSound table) (i : CommitIndex) :
    ∀ h ∈ table.getD i .empty, h ∈ graph.heads ∧ graph.Leads h i := by
  intro h mem
  rw [Std.HashMap.getD_eq_getD_getElem?] at mem
  cases found : table[i]? with
  | none =>
    rw [found] at mem
    exact absurd mem (CommitSet.not_mem_empty h)
  | some set =>
    rw [found] at mem
    exact sound i set found h mem

/-- A commit passes on to its parents what leads to it. -/
theorem TableSound.foldl_union (sound : graph.TableSound table) {own : CommitSet}
    (parents : List CommitIndex)
    (leads : ∀ p ∈ parents, ∀ h ∈ own, h ∈ graph.heads ∧ graph.Leads h p) :
    graph.TableSound
      (parents.foldl (fun table p => table.insert p ((table.getD p .empty).union own)) table) := by
  induction parents generalizing table with
  | nil => exact sound
  | cons p parents ih =>
    refine ih (sound.insert ?_) fun q hq => leads q (List.mem_cons_of_mem _ hq)
    intro h mem
    rcases CommitSet.mem_union.1 mem with mem | mem
    · exact sound.getD p h mem
    · exact leads p List.mem_cons_self h mem

theorem TableSound.passHeads (wellFormed : graph.WellFormed) (sound : graph.TableSound table)
    {row : GraphCommit} (hrow : row ∈ graph.rows) :
    graph.TableSound (passHeads graph.heads table row) := by
  have own : ∀ h ∈ (if graph.heads.contains row.index
      then (table.getD row.index .empty).insert row.index else table.getD row.index .empty),
      h ∈ graph.heads ∧ graph.Leads h row.index := by
    intro h mem
    split at mem
    · next isHead =>
      rcases CommitSet.mem_insert.1 mem with rfl | mem
      · exact ⟨CommitSet.contains_iff.1 isHead, .refl⟩
      · exact sound.getD row.index h mem
    · exact sound.getD row.index h mem
  refine (sound.insert own).foldl_union _ ?_
  intro p hp h mem
  rw [← wellFormed.parents hrow] at hp
  exact ⟨(own h mem).1, (own h mem).2.tail hp⟩

theorem tableSound_headTable (wellFormed : graph.WellFormed) :
    graph.TableSound graph.headTable := by
  have run : ∀ (rows : List GraphCommit) (table : Std.HashMap CommitIndex CommitSet),
      (∀ row ∈ rows, row ∈ graph.rows) → graph.TableSound table →
      graph.TableSound (rows.foldl (PermanentGraph.passHeads graph.heads) table) := by
    intro rows
    induction rows with
    | nil =>
      intro table _ sound
      exact sound
    | cons row rows ih =>
      intro table sub sound
      refine ih _ (fun r hr => sub r (List.mem_cons_of_mem _ hr)) ?_
      exact sound.passHeads wellFormed (sub row List.mem_cons_self)
  refine run graph.rows ∅ (fun row h => h) ?_
  intro i set found
  simp at found

/-- A commit that is reached from some heads is one that a head leads to. -/
theorem leads_of_meets (wellFormed : graph.WellFormed) {i : CommitIndex} {heads : CommitSet}
    (h : graph.headTable[i]?.any (·.meets heads) = true) : ∃ n ∈ heads, graph.Leads n i := by
  cases found : graph.headTable[i]? with
  | none =>
    rw [found] at h
    cases h
  | some set =>
    rw [found] at h
    obtain ⟨n, mem, mem'⟩ := CommitSet.meets_iff.1 h
    exact ⟨n, mem', (tableSound_headTable wellFormed i set found n mem).2⟩

end CommitLog.PermanentGraph
