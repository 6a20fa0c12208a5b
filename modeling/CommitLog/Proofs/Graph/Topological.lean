import CommitLog.Proofs.Graph.Visible

/-!
# Topological order keeps the rows

Sorting the rows of a view into lines of history loses none of them and still puts children before
parents.  The stack of a `LineWalk` holds exactly the rows that no row to come is a child of
(`LineWalk.Settled`); as parents are later rows, there is such a row as long as any is left.

    rows differ → ParentsLater rows → (topologicalOrder rows).Perm rows
    rows differ → ParentsLater rows → ParentsLater (topologicalOrder rows)
-/

namespace CommitLog

def DistinctRows (rows : List VisibleRow) : Prop := (rows.map (·.commit)).Nodup

theorem DistinctRows.eq {rows : List VisibleRow} (distinct : DistinctRows rows) {a b : VisibleRow}
    (ha : a ∈ rows) (hb : b ∈ rows) (h : a.commit = b.commit) : a = b :=
  List.inj_on_of_nodup_map distinct ha hb h

/-- Among some of the rows there is always one that is no parent of the others. -/
theorem exists_childless_row {rows rest : List VisibleRow} (distinct : DistinctRows rows)
    (later : ParentsLater rows) (sub : ∀ r ∈ rest, r ∈ rows) (ne : rest ≠ []) :
    ∃ r ∈ rest, ∀ s ∈ rest, r.commit ∉ s.parents := by
  induction rows with
  | nil =>
    obtain ⟨r, hr⟩ := List.exists_mem_of_ne_nil rest ne
    exact absurd (sub r hr) List.not_mem_nil
  | cons row below ih =>
    obtain ⟨first, laterBelow⟩ := parentsLater_cons.1 later
    obtain ⟨absent, distinctBelow⟩ := List.nodup_cons.1 distinct
    by_cases mem : row ∈ rest
    · -- the parents of all rows are rows below the first one
      have parentBelow : ∀ s ∈ row :: below, ∀ v ∈ s.parents, v ∈ below.map (·.commit) := by
        intro s hs v hv
        rcases List.mem_cons.1 hs with rfl | hs
        · exact List.mem_map.2 (first v hv)
        · obtain ⟨above, under, rfl⟩ := List.append_of_mem hs
          obtain ⟨r, hr, rfl⟩ := laterBelow above s under rfl v hv
          exact List.mem_map_of_mem (by simp [hr])
      exact ⟨row, mem, fun s hs hv => absent (parentBelow s (sub s hs) _ hv)⟩
    · refine ih distinctBelow laterBelow fun r hr => ?_
      exact (List.mem_cons.1 (sub r hr)).resolve_left fun same => mem (same ▸ hr)

/-- The state of the walk when the rows of `rest` are still to come and the links of their children
to the commits in `pending` have not been released. -/
structure LineWalk.Settled (rows rest : List VisibleRow) (pending : List CommitIndex)
    (walk : LineWalk) : Prop where
  sub : ∀ r ∈ rest, r ∈ rows
  distinct : rest.Nodup
  remaining : ∀ r ∈ rest, walk.remaining[r.commit]? = some r
  waiting : ∀ p, walk.waiting[p]? =
    if p ∈ rows.flatMap (·.parents) then some (pending.count p) else none
  mem_stack : ∀ i, i ∈ walk.stack ↔ (∃ r ∈ rest, r.commit = i) ∧ i ∉ pending
  nodup : walk.stack.Nodup
  /-- Nobody comes before the last link to it is released. -/
  waits : ∀ r ∈ rows, r.commit ∈ pending → r ∈ rest

namespace LineWalk

variable {rows rest : List VisibleRow} {pending : List CommitIndex} {walk : LineWalk}

theorem Settled.perm {rest' : List VisibleRow} {pending' : List CommitIndex}
    (settled : Settled rows rest pending walk) (hrest : rest.Perm rest')
    (hpending : pending.Perm pending') : Settled rows rest' pending' walk where
  sub r hr := settled.sub r (hrest.mem_iff.2 hr)
  distinct := hrest.nodup_iff.1 settled.distinct
  remaining r hr := settled.remaining r (hrest.mem_iff.2 hr)
  waiting p := by rw [settled.waiting, hpending.count_eq]
  mem_stack i := by simp only [settled.mem_stack, hrest.mem_iff, hpending.mem_iff]
  nodup := settled.nodup
  waits r hr h := hrest.mem_iff.1 (settled.waits r hr (hpending.mem_iff.2 h))

/-- One released link. -/
theorem Settled.release {p : CommitIndex} (isParent : p ∈ rows.flatMap (·.parents))
    (known : ∃ r ∈ rows, r.commit = p) (settled : Settled rows rest (p :: pending) walk) :
    Settled rows rest pending (walk.release p) := by
  have hcount : walk.waiting[p]? = some (pending.count p + 1) := by
    rw [settled.waiting, if_pos isParent, List.count_cons_self]
  have hwaiting : ∀ q, (walk.waiting.insert p (pending.count p))[q]? =
      if q ∈ rows.flatMap (·.parents) then some (pending.count q) else none := by
    intro q
    rw [Std.HashMap.getElem?_insert]
    by_cases same : p = q
    · subst same
      rw [if_pos isParent]
      simp
    · rw [settled.waiting, List.count_cons_of_ne same]
      simp [same]
  have hwaits : ∀ r ∈ rows, r.commit ∈ pending → r ∈ rest := fun r hr h =>
    settled.waits r hr (List.mem_cons_of_mem _ h)
  have notYet : p ∉ walk.stack := fun h => ((settled.mem_stack p).1 h).2 List.mem_cons_self
  unfold LineWalk.release
  simp only [hcount, Nat.add_sub_cancel]
  by_cases last : pending.count p + 1 = 1
  · -- the last link to `p`: it goes on top of the stack
    have free : p ∉ pending := List.count_eq_zero.1 (by omega)
    have hp : ∃ r ∈ rest, r.commit = p := by
      obtain ⟨r, hr, rfl⟩ := known
      exact ⟨r, settled.waits r hr List.mem_cons_self, rfl⟩
    rw [if_pos last]
    refine ⟨settled.sub, settled.distinct, settled.remaining, hwaiting, fun i => ?_,
      List.nodup_cons.2 ⟨notYet, settled.nodup⟩, hwaits⟩
    rw [List.mem_cons, settled.mem_stack, List.mem_cons, not_or]
    constructor
    · rintro (rfl | ⟨hi, -, notPending⟩)
      · exact ⟨hp, free⟩
      · exact ⟨hi, notPending⟩
    · rintro ⟨hi, notPending⟩
      exact (Classical.em (i = p)).imp_right fun other => ⟨hi, other, notPending⟩
  · have held : p ∈ pending := List.count_pos_iff.1 (by omega)
    rw [if_neg last]
    refine ⟨settled.sub, settled.distinct, settled.remaining, hwaiting, fun i => ?_,
      settled.nodup, hwaits⟩
    rw [settled.mem_stack, List.mem_cons, not_or]
    constructor
    · rintro ⟨hi, -, notPending⟩
      exact ⟨hi, notPending⟩
    · rintro ⟨hi, notPending⟩
      exact ⟨hi, fun same => notPending (same ▸ held), notPending⟩

theorem Settled.foldl_release {parents : List CommitIndex}
    (isParent : ∀ p ∈ parents, p ∈ rows.flatMap (·.parents))
    (known : ∀ p ∈ parents, ∃ r ∈ rows, r.commit = p)
    (settled : Settled rows rest (parents ++ pending) walk) :
    Settled rows rest pending (parents.foldl LineWalk.release walk) := by
  induction parents generalizing walk with
  | nil => exact settled
  | cons p parents ih =>
    rw [List.foldl_cons]
    refine ih (fun q hq => isParent q (List.mem_cons_of_mem _ hq))
      (fun q hq => known q (List.mem_cons_of_mem _ hq)) ?_
    exact settled.release (isParent p List.mem_cons_self) (known p List.mem_cons_self)

/-- The row on top of the stack comes; its links are still to be released. -/
theorem Settled.pop {row : VisibleRow} {stack : List CommitIndex}
    {remaining : Std.HashMap CommitIndex VisibleRow} {waiting : Std.HashMap CommitIndex Nat}
    (distinct : DistinctRows rows)
    (settled : Settled rows (row :: rest) pending ⟨row.commit :: stack, remaining, waiting⟩) :
    Settled rows rest pending ⟨stack, remaining.erase row.commit, waiting⟩ := by
  obtain ⟨absent, restDistinct⟩ := List.nodup_cons.1 settled.distinct
  obtain ⟨notStacked, nodup⟩ := List.nodup_cons.1 settled.nodup
  have hrow : row ∈ rows := settled.sub row List.mem_cons_self
  have others : ∀ r ∈ rest, r.commit ≠ row.commit := fun r hr same =>
    absent (distinct.eq (settled.sub r (List.mem_cons_of_mem _ hr)) hrow same ▸ hr)
  have free : row.commit ∉ pending := ((settled.mem_stack _).1 List.mem_cons_self).2
  refine ⟨fun r hr => settled.sub r (List.mem_cons_of_mem _ hr), restDistinct, fun r hr => ?_,
    settled.waiting, fun i => ?_, nodup, fun r hr h => ?_⟩
  · rw [Std.HashMap.getElem?_erase]
    simpa [Ne.symm (others r hr)] using settled.remaining r (List.mem_cons_of_mem _ hr)
  · have hmem := settled.mem_stack i
    rw [List.mem_cons] at hmem
    constructor
    · intro h
      obtain ⟨⟨r, hr, rfl⟩, hfree⟩ := hmem.1 (.inr h)
      rcases List.mem_cons.1 hr with rfl | hr
      · exact absurd h notStacked
      · exact ⟨⟨r, hr, rfl⟩, hfree⟩
    · rintro ⟨⟨r, hr, rfl⟩, hfree⟩
      exact (hmem.2 ⟨⟨r, List.mem_cons_of_mem _ hr, rfl⟩, hfree⟩).resolve_left (others r hr)
  · exact (List.mem_cons.1 (settled.waits r hr h)).resolve_left fun same => free (same ▸ h)

theorem getElem?_foldl_insert (distinct : DistinctRows rows)
    (table : Std.HashMap CommitIndex VisibleRow) {r : VisibleRow}
    (hr : r ∈ rows ∨ table[r.commit]? = some r ∧ ∀ s ∈ rows, s.commit ≠ r.commit) :
    (rows.foldl (fun table row => table.insert row.commit row) table)[r.commit]? = some r := by
  induction rows generalizing table with
  | nil => exact (hr.resolve_left List.not_mem_nil).1
  | cons s rows ih =>
    obtain ⟨absent, distinct⟩ := List.nodup_cons.1 distinct
    rw [List.foldl_cons]
    refine ih distinct _ ?_
    rcases hr with hr | ⟨found, others⟩
    · rcases List.mem_cons.1 hr with rfl | hr
      · exact .inr ⟨Std.HashMap.getElem?_insert_self,
          fun t ht same => absent (List.mem_map.2 ⟨t, ht, same⟩)⟩
      · exact .inl hr
    · refine .inr ⟨?_, fun t ht => others t (List.mem_cons_of_mem _ ht)⟩
      rw [Std.HashMap.getElem?_insert]
      simp [others s List.mem_cons_self, found]

theorem settled_start (distinct : DistinctRows rows) :
    Settled rows rows (rows.flatMap (·.parents)) (start rows) where
  sub r hr := hr
  distinct := .of_map _ distinct
  remaining r hr := getElem?_foldl_insert distinct _ (.inl hr)
  waiting p := getElem?_occurrences _ p
  mem_stack i := by
    have hcount : (childCounts rows).contains i = true ↔ i ∈ rows.flatMap (·.parents) :=
      contains_occurrences _ _
    simp only [start, List.mem_map, List.mem_filter, Bool.not_eq_true', Bool.eq_false_iff, ne_eq]
    constructor
    · rintro ⟨r, ⟨hr, free⟩, rfl⟩
      exact ⟨⟨r, hr, rfl⟩, fun h => free (hcount.2 h)⟩
    · rintro ⟨⟨r, hr, rfl⟩, free⟩
      exact ⟨r, ⟨hr, fun h => free (hcount.1 h)⟩, rfl⟩
  nodup := distinct.sublist (List.filter_sublist.map _)
  waits r hr _ := hr

/-- The row on top of the stack is one that is left; it comes, and its links are released. -/
theorem Settled.next {top : CommitIndex} {stack : List CommitIndex}
    {remaining : Std.HashMap CommitIndex VisibleRow} {waiting : Std.HashMap CommitIndex Nat}
    (distinct : DistinctRows rows) (known : ∀ r ∈ rows, ∀ p ∈ r.parents, ∃ s ∈ rows, s.commit = p)
    (settled : Settled rows rest (rest.flatMap (·.parents)) ⟨top :: stack, remaining, waiting⟩) :
    ∃ row ∈ rest, row.commit = top ∧ row.commit ∉ rest.flatMap (·.parents) ∧
      remaining[top]? = some row ∧
      Settled rows (rest.erase row) ((rest.erase row).flatMap (·.parents))
        (row.parents.reverse.foldl LineWalk.release ⟨stack, remaining.erase top, waiting⟩) := by
  obtain ⟨⟨row, hrow, rfl⟩, free⟩ := (settled.mem_stack top).1 List.mem_cons_self
  have perm : rest.Perm (row :: rest.erase row) := List.perm_cons_erase hrow
  have hmem : row ∈ rows := settled.sub row hrow
  have hpending : (rest.flatMap (·.parents)).Perm
      (row.parents.reverse ++ (rest.erase row).flatMap (·.parents)) := by
    refine (perm.flatMap_right _).trans ?_
    rw [List.flatMap_cons]
    exact (List.reverse_perm _).symm.append_right _
  refine ⟨row, hrow, rfl, free, settled.remaining row hrow, ?_⟩
  exact ((settled.perm perm hpending).pop distinct).foldl_release
    (fun p hp => List.mem_flatMap.2 ⟨row, hmem, List.mem_reverse.1 hp⟩)
    fun p hp => known row hmem p (List.mem_reverse.1 hp)

/-- A row on top of the stack comes. -/
theorem run_cons {top : CommitIndex} {stack : List CommitIndex} {row : VisibleRow}
    (hstack : walk.stack = top :: stack) (found : walk.remaining[top]? = some row) (count : Nat) :
    run (count + 1) walk = row :: run count (row.parents.reverse.foldl LineWalk.release
      ⟨stack, walk.remaining.erase top, walk.waiting⟩) := by
  simp only [run, hstack, found]

/-- What holds of a run that stops, and of a run whose first row is the one on top of the stack when
it holds of the rest, holds of every run that is long enough. -/
theorem run_induction (distinct : DistinctRows rows)
    (known : ∀ r ∈ rows, ∀ p ∈ r.parents, ∃ s ∈ rows, s.commit = p)
    {P : List VisibleRow → LineWalk → List VisibleRow → Prop}
    (stop : ∀ rest walk, Settled rows rest (rest.flatMap (·.parents)) walk → walk.stack = [] →
      P rest walk [])
    (step : ∀ rest row walk stack next below, row ∈ rest →
      row.commit ∉ rest.flatMap (·.parents) →
      Settled rows rest (rest.flatMap (·.parents)) walk → walk.stack = row.commit :: stack →
      next = row.parents.reverse.foldl LineWalk.release
        ⟨stack, walk.remaining.erase row.commit, walk.waiting⟩ →
      Settled rows (rest.erase row) ((rest.erase row).flatMap (·.parents)) next →
      P (rest.erase row) next below → P rest walk (row :: below))
    (count : Nat) (length : rest.length ≤ count)
    (settled : Settled rows rest (rest.flatMap (·.parents)) walk) :
    P rest walk (run count walk) := by
  induction count generalizing rest walk with
  | zero =>
    obtain rfl : rest = [] := List.length_eq_zero_iff.1 (by omega)
    refine stop [] walk settled (List.eq_nil_iff_forall_not_mem.2 fun i hi => ?_)
    obtain ⟨⟨r, hr, -⟩, -⟩ := (settled.mem_stack i).1 hi
    exact List.not_mem_nil hr
  | succ count ih =>
    obtain ⟨stack, remaining, waiting⟩ := walk
    cases stack with
    | nil => exact stop rest _ settled rfl
    | cons top stack =>
      obtain ⟨row, hrow, rfl, free, found, next⟩ := settled.next distinct known
      have shorter : (rest.erase row).length ≤ count := by
        rw [List.length_erase_of_mem hrow]
        omega
      rw [run_cons rfl found]
      exact step rest row _ stack _ _ hrow free settled rfl rfl next (ih shorter next)

/-- When parents are later rows, the stack is empty at the end only. -/
theorem Settled.eq_nil (distinct : DistinctRows rows) (later : ParentsLater rows)
    (settled : Settled rows rest (rest.flatMap (·.parents)) walk) (empty : walk.stack = []) :
    rest = [] := by
  by_contra ne
  obtain ⟨r, hr, childless⟩ := exists_childless_row distinct later settled.sub ne
  have : r.commit ∈ walk.stack :=
    (settled.mem_stack r.commit).2 ⟨⟨r, hr, rfl⟩, by simpa using childless⟩
  rw [empty] at this
  cases this

/-- A run brings all rows that are left, children first. -/
theorem run_spec (distinct : DistinctRows rows) (later : ParentsLater rows) (count : Nat)
    (length : rest.length ≤ count)
    (settled : Settled rows rest (rest.flatMap (·.parents)) walk) :
    (run count walk).Perm rest ∧ ParentsLater (run count walk) := by
  have known := later.known
  refine run_induction (P := fun rest _ come => come.Perm rest ∧ ParentsLater come) distinct known
    (fun rest walk settled empty => ?_)
    (fun rest row walk stack next below hrow free settled _ _ _ => ?_) count length settled
  · obtain rfl := settled.eq_nil distinct later empty
    exact ⟨.refl _, parentsLater_nil⟩
  · rintro ⟨hperm, hlater⟩
    have perm : rest.Perm (row :: rest.erase row) := List.perm_cons_erase hrow
    refine ⟨(hperm.cons row).trans perm.symm, parentsLater_cons.2 ⟨fun v hv => ?_, hlater⟩⟩
    -- a parent still waits for this row, so it has not come before
    obtain ⟨r, hr, rfl⟩ := known row (settled.sub row hrow) v hv
    have pending : r.commit ∈ rest.flatMap (·.parents) := List.mem_flatMap.2 ⟨row, hrow, hv⟩
    refine ⟨r, hperm.mem_iff.2 ?_, rfl⟩
    refine (List.mem_cons.1 (perm.mem_iff.1 (settled.waits r hr pending))).resolve_left ?_
    rintro rfl
    exact free pending

end LineWalk

/-- Topological order has every row once, children before parents. -/
theorem topologicalOrder_spec {rows : List VisibleRow} (distinct : DistinctRows rows)
    (later : ParentsLater rows) :
    (topologicalOrder rows).Perm rows ∧ ParentsLater (topologicalOrder rows) :=
  LineWalk.run_spec distinct later rows.length le_rfl (LineWalk.settled_start distinct)

namespace PermanentGraph

variable {graph : PermanentGraph}

/-- In either order a view has the commits to be shown, once each; by date it has them whether or
not the rows stand with children first. -/
theorem commits_visible (wellFormed : graph.WellFormed) {sort : SortOrder}
    (ordered : sort = .date ∨ GraphCommit.ChildrenFirst graph.rows)
    (heads commits : Option CommitSet) :
    (graph.visible sort heads commits).commits.Nodup ∧
      ∀ i, i ∈ (graph.visible sort heads commits).commits ↔ graph.Shows heads commits i := by
  obtain ⟨sub, mem⟩ := map_commit_visibleRows wellFormed heads commits
  have nodup : (graph.visible .date heads commits).commits.Nodup := sub.nodup wellFormed.numbered
  cases sort with
  | date => exact ⟨nodup, mem⟩
  | topological =>
    have ordered := ordered.resolve_left SortOrder.noConfusion
    have later := (isView_visible wellFormed ordered heads commits).parents_later
    have perm : (graph.visible .topological heads commits).commits.Perm
        (graph.visible .date heads commits).commits :=
      (topologicalOrder_spec nodup later).1.map _
    refine ⟨perm.nodup_iff.2 nodup, fun i => ?_⟩
    rw [perm.mem_iff]
    exact mem i

/-- In either order a view has children before parents. -/
theorem parentsLater_visible (wellFormed : graph.WellFormed)
    (ordered : GraphCommit.ChildrenFirst graph.rows) (sort : SortOrder)
    (heads commits : Option CommitSet) : ParentsLater (graph.visible sort heads commits).rows := by
  have view := isView_visible wellFormed ordered heads commits
  cases sort with
  | date => exact view.parents_later
  | topological => exact (topologicalOrder_spec view.nodup view.parents_later).2

end PermanentGraph

end CommitLog
