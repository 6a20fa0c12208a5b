import CommitLog.Graph.Visible
import CommitLog.Proofs.Graph.Permanent

/-!
# Reachability in the permanent graph

The search `reachable` finds exactly the rows that the heads lead to, in any graph and for any set
of heads.  Every step uses up a pending number or takes in the parents of a row that was not reached
before, so `workLeft` never exceeds the steps that are left.

    graph.WellFormed → ((graph.reachable heads).contains i ↔ i is a row ∧ ∃ h ∈ heads, graph.Leads h i)
-/

namespace CommitLog.PermanentGraph

open GraphCommit

/-- What the search has to do at most: the pending numbers and the links of the rows not reached. -/
def workLeft (rows : List GraphCommit) (pending : List CommitIndex)
    (reached : Std.HashMap CommitIndex Unit) : Nat :=
  pending.length +
    (rows.flatMap fun row => if reached.contains row.index then [] else row.parents).length

theorem length_flatMap_le {α β : Type} {f g : α → List β} {as : List α}
    (le : ∀ b ∈ as, (g b).length ≤ (f b).length) :
    (as.flatMap g).length ≤ (as.flatMap f).length := by
  induction as with
  | nil => exact Nat.le_refl _
  | cons b rest ih =>
    have hb := le b List.mem_cons_self
    have hrest := ih fun c hc => le c (List.mem_cons_of_mem _ hc)
    simp only [List.flatMap_cons, List.length_append]
    omega

theorem length_flatMap_add_le {α β : Type} {f g : α → List β} {k : Nat} {a : α} {as : List α}
    (mem : a ∈ as) (le : ∀ b ∈ as, (g b).length ≤ (f b).length)
    (drop : (g a).length + k ≤ (f a).length) :
    (as.flatMap g).length + k ≤ (as.flatMap f).length := by
  induction as with
  | nil => cases mem
  | cons b rest ih =>
    have hb := le b List.mem_cons_self
    have hrest := length_flatMap_le fun c hc => le c (List.mem_cons_of_mem _ hc)
    simp only [List.flatMap_cons, List.length_append]
    rcases List.mem_cons.1 mem with rfl | mem
    · omega
    · have := ih mem fun c hc => le c (List.mem_cons_of_mem _ hc)
      omega

/-- Reaching a row pays for its links. -/
theorem workLeft_insert {rows : List GraphCommit} (pending : List CommitIndex)
    {reached : Std.HashMap CommitIndex Unit} {c : GraphCommit} (hc : c ∈ rows)
    (fresh : ¬ reached.contains c.index = true) :
    workLeft rows (c.parents ++ pending) (reached.insert c.index ()) ≤
      workLeft rows pending reached := by
  have links := @length_flatMap_add_le _ _
    (fun row => if reached.contains row.index then [] else row.parents)
    (fun row => if (reached.insert c.index ()).contains row.index then [] else row.parents)
    c.parents.length c rows hc
    (fun d _ => by
      rw [Std.HashMap.contains_insert]
      by_cases h : reached.contains d.index = true <;> simp [h]
      split <;> simp)
    (by simp [fresh])
  simp only [workLeft, List.length_append]
  omega

/-- What has been reached, with what is pending, has all parents of what has been reached. -/
def ClosedUpTo (graph : PermanentGraph) (pending : List CommitIndex)
    (reached : Std.HashMap CommitIndex Unit) : Prop :=
  ∀ i, reached.contains i = true → ∀ p ∈ graph.parents i, reached.contains p = true ∨ p ∈ pending

variable {graph : PermanentGraph}

/-- The search ends with a closed set that has the rows it started from. -/
theorem reachFrom_closed (wellFormed : graph.WellFormed) (steps : Nat)
    (pending : List CommitIndex) (reached : Std.HashMap CommitIndex Unit)
    (enough : workLeft graph.rows pending reached ≤ steps)
    (closed : graph.ClosedUpTo pending reached) :
    let final := reachFrom (table graph.rows) steps pending reached
    (∀ i, reached.contains i = true → final.contains i = true) ∧
      (∀ p ∈ pending, (∃ c ∈ graph.rows, c.index = p) → final.contains p = true) ∧
      ∀ i, final.contains i = true → ∀ p ∈ graph.parents i, final.contains p = true := by
  fun_induction reachFrom (table graph.rows) steps pending reached with
  | case1 pending reached =>
    have : pending = [] := List.length_eq_zero_iff.1 (by unfold workLeft at enough; omega)
    subst this
    exact ⟨fun _ h => h, by simp, fun i hi p hp => (closed i hi p hp).resolve_right (by simp)⟩
  | case2 steps reached =>
    exact ⟨fun _ h => h, by simp, fun i hi p hp => (closed i hi p hp).resolve_right (by simp)⟩
  | case3 steps next pending reached known ih =>
    have closed' : graph.ClosedUpTo pending reached := by
      intro i hi p hp
      refine (closed i hi p hp).elim .inl fun h => ?_
      rcases List.mem_cons.1 h with rfl | h
      · exact .inl known
      · exact .inr h
    obtain ⟨keeps, starts, ends⟩ := ih (by simp only [workLeft, List.length_cons] at *; omega) closed'
    refine ⟨keeps, fun p hp row => ?_, ends⟩
    rcases List.mem_cons.1 hp with rfl | hp
    · exact keeps p known
    · exact starts p hp row
  | case4 steps next pending reached _ absent ih =>
    have noRow : ¬ ∃ c ∈ graph.rows, c.index = next := by
      rw [← contains_table, Std.HashMap.contains_eq_isSome_getElem?, absent]
      simp
    have closed' : graph.ClosedUpTo pending reached := by
      intro i hi p hp
      refine (closed i hi p hp).elim .inl fun h => .inr ?_
      rcases List.mem_cons.1 h with rfl | h
      · exact absurd (wellFormed.known_parent hp) noRow
      · exact h
    obtain ⟨keeps, starts, ends⟩ := ih (by simp only [workLeft, List.length_cons] at *; omega) closed'
    refine ⟨keeps, fun p hp row => ?_, ends⟩
    rcases List.mem_cons.1 hp with rfl | hp
    · exact absurd row noRow
    · exact starts p hp row
  | case5 steps next pending reached fresh c found ih =>
    obtain ⟨hc, rfl⟩ := wellFormed.numbered.find?.1 (by rwa [getElem?_table] at found)
    have enough' := workLeft_insert pending hc fresh
    have closed' : graph.ClosedUpTo (c.parents ++ pending) (reached.insert c.index ()) := by
      intro i hi p hp
      rw [Std.HashMap.contains_insert, Bool.or_eq_true, beq_iff_eq] at hi ⊢
      rw [List.mem_append]
      rcases hi with rfl | hi
      · exact .inr (.inl (by rwa [wellFormed.parents hc] at hp))
      · rcases closed i hi p hp with h | h
        · exact .inl (.inr h)
        · exact (List.mem_cons.1 h).elim (fun same => .inl (.inl same.symm)) fun h => .inr (.inr h)
    obtain ⟨keeps, starts, ends⟩ := ih (by simp only [workLeft, List.length_cons] at *; omega) closed'
    have own := keeps c.index (by simp)
    refine ⟨fun i hi => keeps i (by simp [hi]), fun p hp row => ?_, ends⟩
    rcases List.mem_cons.1 hp with rfl | hp
    · exact own
    · exact starts p (List.mem_append_right _ hp) row

/-- The search reaches only rows that what is pending leads to. -/
theorem reachFrom_sound (wellFormed : graph.WellFormed) (steps : Nat)
    (pending : List CommitIndex) (reached : Std.HashMap CommitIndex Unit) (i : CommitIndex)
    (h : (reachFrom (table graph.rows) steps pending reached).contains i = true) :
    reached.contains i = true ∨
      (∃ c ∈ graph.rows, c.index = i) ∧ ∃ p ∈ pending, graph.Leads p i := by
  fun_induction reachFrom (table graph.rows) steps pending reached with
  | case1 | case2 => exact .inl h
  | case3 steps next pending reached _ ih | case4 steps next pending reached _ _ ih =>
    refine (ih h).imp_right fun ⟨row, p, hp, leads⟩ => ?_
    exact ⟨row, p, List.mem_cons_of_mem _ hp, leads⟩
  | case5 steps next pending reached _ c found ih =>
    obtain ⟨hc, rfl⟩ := wellFormed.numbered.find?.1 (by rwa [getElem?_table] at found)
    rcases ih h with hi | ⟨row, p, hp, leads⟩
    · rw [Std.HashMap.contains_insert, Bool.or_eq_true, beq_iff_eq] at hi
      rcases hi with rfl | hi
      · exact .inr ⟨⟨c, hc, rfl⟩, c.index, List.mem_cons_self, .refl⟩
      · exact .inl hi
    · refine .inr ⟨row, ?_⟩
      rcases List.mem_append.1 hp with hp | hp
      · refine ⟨c.index, List.mem_cons_self, .head ?_ leads⟩
        rwa [wellFormed.parents hc]
      · exact ⟨p, List.mem_cons_of_mem _ hp, leads⟩

theorem workLeft_start (rows : List GraphCommit) (heads : CommitSet) :
    workLeft rows heads.members ∅ ≤
      rows.foldr (fun row count => row.parents.length + count) (heads.size + 1) := by
  have hfold : ∀ k, rows.foldr (fun row count => row.parents.length + count) k =
      (rows.flatMap (·.parents)).length + k := by
    intro k
    induction rows with
    | nil => simp
    | cons row rest ih =>
      simp only [List.foldr_cons, ih, List.flatMap_cons, List.length_append]
      omega
  rw [hfold, workLeft, CommitSet.size]
  simp only [Std.HashMap.contains_empty, Bool.false_eq_true, if_false]
  omega

/-- The rows that the heads lead to are reached, and no others. -/
theorem contains_reachable (wellFormed : graph.WellFormed) (heads : CommitSet) (i : CommitIndex) :
    (graph.reachable heads).contains i = true ↔
      (∃ c ∈ graph.rows, c.index = i) ∧ ∃ h ∈ heads, graph.Leads h i := by
  constructor
  · intro h
    exact (reachFrom_sound wellFormed _ _ _ i h).resolve_left (by simp)
  · rintro ⟨row, h, hh, leads⟩
    obtain ⟨-, starts, ends⟩ := reachFrom_closed wellFormed _ _ _
      (workLeft_start graph.rows heads) (fun i hi => by simp at hi)
    -- a head that leads to a row is a row: otherwise it has no parents
    have head : ∃ c ∈ graph.rows, c.index = h := by
      rcases leads.cases_head with rfl | ⟨p, hp, -⟩
      · exact row
      · obtain ⟨c, hc, same, -⟩ := wellFormed.numbered.isParent.1 (mem_parents_iff.1 hp)
        exact ⟨c, hc, same⟩
    clear row
    induction leads with
    | refl => exact starts h hh head
    | tail _ hp ih => exact ends _ ih _ hp

end CommitLog.PermanentGraph
