import CommitLog.Proofs.Graph.Part

/-!
# Lines of history in a part of a graph

A walk along the lines of history of a whole view goes through a part of it just as a walk through
the part alone does: between two rows of the part it may take others, which change nothing for the
part (`LineWalk.Matches`).

    IsPart own k whole part → (the same commits are to be shown) →
      (whole.visible sort …).rows.filter own = (part.visible sort …).rows.map (raise k)
-/

namespace CommitLog

variable {own : CommitIndex → Bool} {k : Nat}

/-- A table of rows has the last row of every commit. -/
theorem getElem?_foldl_insert_row (rows : List VisibleRow)
    (table : Std.HashMap CommitIndex VisibleRow) (i : CommitIndex) :
    (rows.foldl (fun table row => table.insert row.commit row) table)[i]? =
      (rows.reverse.find? (·.commit == i)).or table[i]? := by
  induction rows generalizing table with
  | nil => simp
  | cons row rows ih =>
    rw [List.foldl_cons, ih, List.reverse_cons, List.find?_append, Std.HashMap.getElem?_insert,
      Option.or_assoc]
    by_cases same : row.commit = i
    · simp [same]
    · simp [same, List.find?_cons_of_neg]

theorem filter_own {row : VisibleRow} (rows : List VisibleRow) (isOwn : own row.commit = true) :
    (row :: rows).filter (own ·.commit) = row :: rows.filter (own ·.commit) :=
  List.filter_cons_of_pos isOwn

theorem filter_other {row : VisibleRow} (rows : List VisibleRow)
    (other : ¬ own row.commit = true) :
    (row :: rows).filter (own ·.commit) = rows.filter (own ·.commit) :=
  List.filter_cons_of_neg other

namespace LineWalk

variable {rows rest rows' : List VisibleRow} {walk walk' : LineWalk}

/-- The part of a walk is a walk through the part. -/
structure Matches (own : CommitIndex → Bool) (k : Nat) (walk walk' : LineWalk) : Prop where
  stack : walk.stack.filter own = walk'.stack.map (k + ·)
  remaining : ∀ j, own (k + j) = true →
    walk.remaining[k + j]? = walk'.remaining[j]?.map (VisibleRow.raise k)
  waiting : ∀ j, own (k + j) = true → walk.waiting[k + j]? = walk'.waiting[j]?

/-! ## One step -/

/-- A link to an own commit is released in both walks. -/
theorem Matches.release (matching : Matches own k walk walk') {j : CommitIndex}
    (isOwn : own (k + j) = true) : Matches own k (walk.release (k + j)) (walk'.release j) := by
  unfold LineWalk.release
  rw [matching.waiting j isOwn]
  cases walk'.waiting[j]? with
  | none => exact matching
  | some count =>
    refine ⟨?_, matching.remaining, fun i hi => ?_⟩
    · by_cases last : count = 1
      · simp [last, isOwn, matching.stack]
      · simp [last, matching.stack]
    · dsimp only
      rw [Std.HashMap.getElem?_insert, Std.HashMap.getElem?_insert, matching.waiting i hi]
      simp

/-- A link to another commit does not count in the part. -/
theorem Matches.release_other (matching : Matches own k walk walk') {i : CommitIndex}
    (other : own i = false) : Matches own k (walk.release i) walk' := by
  unfold LineWalk.release
  cases walk.waiting[i]? with
  | none => exact matching
  | some count =>
    refine ⟨?_, matching.remaining, fun j hj => ?_⟩
    · by_cases last : count = 1
      · simp [last, other, matching.stack]
      · simp [last, matching.stack]
    · have differ : i ≠ k + j := by
        rintro rfl
        rw [hj] at other
        cases other
      dsimp only
      rw [Std.HashMap.getElem?_insert, ← matching.waiting j hj]
      simp [differ]

theorem Matches.foldl_release (matching : Matches own k walk walk') {parents : List CommitIndex}
    (isOwn : ∀ p ∈ parents, own (k + p) = true) :
    Matches own k ((parents.map (k + ·)).foldl LineWalk.release walk)
      (parents.foldl LineWalk.release walk') := by
  induction parents generalizing walk walk' with
  | nil => exact matching
  | cons p parents ih =>
    exact ih (matching.release (isOwn p List.mem_cons_self)) fun q hq =>
      isOwn q (List.mem_cons_of_mem _ hq)

theorem Matches.foldl_release_other (matching : Matches own k walk walk')
    {parents : List CommitIndex} (other : ∀ p ∈ parents, own p = false) :
    Matches own k (parents.foldl LineWalk.release walk) walk' := by
  induction parents generalizing walk with
  | nil => exact matching
  | cons p parents ih =>
    exact ih (matching.release_other (other p List.mem_cons_self)) fun q hq =>
      other q (List.mem_cons_of_mem _ hq)

variable {top : CommitIndex} {stack stack' : List CommitIndex}
  {remaining remaining' : Std.HashMap CommitIndex VisibleRow}
  {waiting waiting' : Std.HashMap CommitIndex Nat}

/-- An own commit on top comes in both walks. -/
theorem Matches.pop {j : CommitIndex} (isOwn : own (k + j) = true)
    (matching : Matches own k ⟨(k + j) :: stack, remaining, waiting⟩ walk') :
    ∃ stack', walk'.stack = j :: stack' ∧
      Matches own k ⟨stack, remaining.erase (k + j), waiting⟩
        ⟨stack', walk'.remaining.erase j, walk'.waiting⟩ := by
  have equal := matching.stack
  dsimp only at equal
  rw [List.filter_cons_of_pos isOwn] at equal
  obtain ⟨i, stack', hstack, same, rest⟩ := List.map_eq_cons_iff.1 equal.symm
  obtain rfl : i = j := Nat.add_left_cancel same
  refine ⟨stack', hstack, rest.symm, fun n hn => ?_, matching.waiting⟩
  dsimp only
  rw [Std.HashMap.getElem?_erase, Std.HashMap.getElem?_erase]
  have found := matching.remaining n hn
  dsimp only at found
  by_cases same : i = n
  · simp [same]
  · simp [same, found]

/-- Another commit on top does not count in the part. -/
theorem Matches.pop_other (other : own top = false)
    (matching : Matches own k ⟨top :: stack, remaining, waiting⟩ walk') :
    Matches own k ⟨stack, remaining.erase top, waiting⟩ walk' := by
  have equal := matching.stack
  dsimp only at equal
  rw [List.filter_cons_of_neg (by simp [other])] at equal
  refine ⟨equal, fun j hj => ?_, matching.waiting⟩
  have differ : top ≠ k + j := by
    rintro rfl
    rw [hj] at other
    cases other
  dsimp only
  rw [Std.HashMap.getElem?_erase, ← matching.remaining j hj]
  simp [differ]

/-! ## A run -/

theorem run_of_stack_eq_nil (count : Nat) (h : walk.stack = []) : run count walk = [] := by
  cases count with
  | zero => rfl
  | succ count =>
    unfold run
    rw [h]

theorem Matches.run_of_nil (matching : Matches own k walk walk') (h : walk.stack = [])
    (count count' : Nat) :
    (run count walk).filter (own ·.commit) = (run count' walk').map (VisibleRow.raise k) := by
  have equal := matching.stack
  rw [h] at equal
  have empty : walk'.stack = [] := List.map_eq_nil_iff.1 equal.symm
  rw [run_of_stack_eq_nil count h, run_of_stack_eq_nil count' empty]
  rfl

/-- An own row on top comes in both walks, and its links are released in both. -/
theorem Matches.step {row : VisibleRow} (isOwn : own row.commit = true)
    (closed : ∀ p ∈ row.parents, own p = own row.commit)
    (found : remaining[row.commit]? = some row)
    (matching : Matches own k ⟨row.commit :: stack, remaining, waiting⟩ walk') :
    ∃ row' next, row = row'.raise k ∧ (∀ count, run (count + 1) walk' = row' :: run count next) ∧
      Matches own k (row.parents.reverse.foldl LineWalk.release
        ⟨stack, remaining.erase row.commit, waiting⟩) next := by
  have isTop : row.commit ∈ walk'.stack.map (k + ·) := by
    rw [← matching.stack]
    exact List.mem_filter.2 ⟨List.mem_cons_self, isOwn⟩
  obtain ⟨j, -, same⟩ := List.mem_map.1 isTop
  rw [← same] at isOwn found matching
  have raised := matching.remaining j isOwn
  dsimp only at raised
  rw [found] at raised
  obtain ⟨row', found', rfl⟩ := Option.map_eq_some_iff.1 raised.symm
  obtain ⟨stack', hstack', popped⟩ := matching.pop isOwn
  have parents : (row'.raise k).parents.reverse = row'.parents.reverse.map (k + ·) :=
    (List.map_reverse).symm
  have ownParents : ∀ p ∈ row'.parents.reverse, own (k + p) = true := by
    intro p hp
    rw [closed (k + p) (List.mem_map_of_mem (List.mem_reverse.1 hp)), ← same]
    exact isOwn
  refine ⟨row', _, rfl, run_cons hstack' found', ?_⟩
  rw [parents, ← same]
  exact popped.foldl_release ownParents

/-- Another row on top comes in the whole walk alone. -/
theorem Matches.step_other {row : VisibleRow} (other : own row.commit = false)
    (closed : ∀ p ∈ row.parents, own p = own row.commit)
    (matching : Matches own k ⟨row.commit :: stack, remaining, waiting⟩ walk') :
    Matches own k (row.parents.reverse.foldl LineWalk.release
      ⟨stack, remaining.erase row.commit, waiting⟩) walk' :=
  (matching.pop_other other).foldl_release_other fun p hp =>
    (closed p (List.mem_reverse.1 hp)).trans other

/-- The own rows of a run are the rows of the run through the part. -/
theorem run_filter (distinct : DistinctRows rows)
    (known : ∀ r ∈ rows, ∀ p ∈ r.parents, ∃ s ∈ rows, s.commit = p)
    (closed : ∀ r ∈ rows, ∀ p ∈ r.parents, own p = own r.commit) (count : Nat) {count' : Nat}
    (length : rest.length ≤ count) (length' : (rest.filter (own ·.commit)).length ≤ count')
    (settled : Settled rows rest (rest.flatMap (·.parents)) walk)
    (matching : Matches own k walk walk') :
    (run count walk).filter (own ·.commit) = (run count' walk').map (VisibleRow.raise k) := by
  induction count generalizing rest walk walk' count' with
  | zero =>
    obtain rfl : rest = [] := List.length_eq_zero_iff.1 (by omega)
    have empty : walk.stack = [] := by
      rw [List.eq_nil_iff_forall_not_mem]
      intro i hi
      obtain ⟨⟨r, hr, -⟩, -⟩ := (settled.mem_stack i).1 hi
      exact List.not_mem_nil hr
    exact matching.run_of_nil empty 0 count'
  | succ count ih =>
    obtain ⟨stack, remaining, waiting⟩ := walk
    cases stack with
    | nil => exact matching.run_of_nil rfl (count + 1) count'
    | cons top stack =>
      obtain ⟨row, hrow, rfl, -, found, next⟩ := settled.next distinct known
      have closedRow := closed row (settled.sub row hrow)
      have shorter : (rest.erase row).length ≤ count := by
        rw [List.length_erase_of_mem hrow]
        omega
      rw [run_cons rfl found]
      by_cases isOwn : own row.commit = true
      · obtain ⟨row', walkNext, rfl, step, matchingNext⟩ := matching.step isOwn closedRow found
        have perm := (List.perm_cons_erase hrow).filter (own ·.commit)
        rw [filter_own _ isOwn] at perm
        have fewer := perm.length_eq
        rw [List.length_cons] at fewer
        obtain ⟨count', rfl⟩ : ∃ n, count' = n + 1 := ⟨count' - 1, by omega⟩
        rw [filter_own _ isOwn, step, List.map_cons]
        exact congrArg _ (ih shorter (by omega) next matchingNext)
      · have fewer : ((rest.erase row).filter (own ·.commit)).length ≤ count' :=
          Nat.le_trans ((List.erase_sublist.filter _).length_le) length'
        rw [filter_other _ isOwn]
        exact ih shorter fewer next (matching.step_other (Bool.eq_false_iff.2 isOwn) closedRow)

/-! ## The start -/

/-- The own links are those of the own rows. -/
theorem filter_flatMap_parents (closed : ∀ r ∈ rows, ∀ p ∈ r.parents, own p = own r.commit) :
    (rows.flatMap (·.parents)).filter own =
      (rows.filter (own ·.commit)).flatMap (·.parents) := by
  induction rows with
  | nil => rfl
  | cons r rows ih =>
    have below := ih fun s hs => closed s (List.mem_cons_of_mem _ hs)
    have ownParents := closed r List.mem_cons_self
    rw [List.flatMap_cons, List.filter_append, below]
    by_cases isOwn : own r.commit = true
    · have all : r.parents.filter own = r.parents :=
        List.filter_eq_self.2 fun p hp => (ownParents p hp).trans isOwn
      rw [filter_own rows isOwn, List.flatMap_cons, all]
    · have none : r.parents.filter own = [] :=
        List.filter_eq_nil_iff.2 fun p hp => by rwa [ownParents p hp]
      rw [filter_other rows isOwn, none, List.nil_append]

section Start

variable (part : rows.filter (own ·.commit) = rows'.map (VisibleRow.raise k))

include part

/-- An own row is found under its number in the part. -/
theorem find?_part {j : CommitIndex} (hj : own (k + j) = true) :
    rows.reverse.find? (·.commit == k + j) =
      (rows'.reverse.find? (·.commit == j)).map (VisibleRow.raise k) := by
  calc rows.reverse.find? (·.commit == k + j)
      = (rows.filter (own ·.commit)).reverse.find? (·.commit == k + j) := by
        rw [← List.filter_reverse, List.find?_filter]
        congr 1
        funext r
        by_cases same : r.commit = k + j
        · simp [same, hj]
        · simp [same]
    _ = (rows'.reverse.find? (·.commit == j)).map (VisibleRow.raise k) := by
        rw [part, ← List.map_reverse, List.find?_map]
        have same (r : VisibleRow) : ((r.raise k).commit == k + j) = (r.commit == j) := by
          simp [VisibleRow.raise]
        simp only [Function.comp_def, same]

/-- The number of children of an own row is the same in the part. -/
theorem childCounts_part (closed : ∀ r ∈ rows, ∀ p ∈ r.parents, own p = own r.commit)
    {j : CommitIndex} (hj : own (k + j) = true) :
    (childCounts rows)[k + j]? = (childCounts rows')[j]? := by
  have links : (rows.flatMap (·.parents)).filter own =
      (rows'.flatMap (·.parents)).map (k + ·) := by
    rw [filter_flatMap_parents closed, part, List.flatMap_map, List.map_flatMap]
    rfl
  have mem : k + j ∈ rows.flatMap (·.parents) ↔ j ∈ rows'.flatMap (·.parents) := by
    have raised : k + j ∈ (rows'.flatMap (·.parents)).map (k + ·) ↔ _ := mem_map_add
    rw [← raised, ← links, List.mem_filter, and_iff_left hj]
  have count : (rows.flatMap (·.parents)).count (k + j) = (rows'.flatMap (·.parents)).count j := by
    rw [← List.count_filter hj, links, List.count_map_of_injective _ _ (add_injective k)]
  unfold childCounts
  rw [getElem?_occurrences, getElem?_occurrences, count]
  simp only [mem]

/-- The walks start with the same rows of the part. -/
theorem matches_start (closed : ∀ r ∈ rows, ∀ p ∈ r.parents, own p = own r.commit) :
    Matches own k (start rows) (start rows') := by
  refine ⟨?_, fun j hj => ?_, fun j hj => childCounts_part part closed hj⟩
  · have free : ∀ r ∈ rows', (childCounts rows).contains (k + r.commit) =
        (childCounts rows').contains r.commit := by
      intro r hr
      have mem : r.raise k ∈ rows.filter (own ·.commit) := part ▸ List.mem_map_of_mem hr
      have same := childCounts_part part closed (List.mem_filter.1 mem).2
      rw [Std.HashMap.contains_eq_isSome_getElem?, Std.HashMap.contains_eq_isSome_getElem?]
      exact congrArg Option.isSome same
    have swap : rows.filter (fun r => (own ∘ (·.commit)) r &&
        !(childCounts rows).contains r.commit) =
        (rows.filter (own ·.commit)).filter fun r => !(childCounts rows).contains r.commit := by
      rw [List.filter_filter]
      exact List.filter_congr fun r _ => Bool.and_comm _ _
    unfold start
    dsimp only
    rw [List.filter_map, List.filter_filter, swap, part, List.filter_map, List.map_map,
      List.map_map]
    refine congrArg₂ _ rfl (List.filter_congr fun r hr => ?_)
    exact congrArg _ (free r hr)
  · unfold start
    dsimp only
    rw [getElem?_foldl_insert_row, getElem?_foldl_insert_row, find?_part part hj]
    simp

end Start

end LineWalk

/-- Topological order of a part does not depend on the rest. -/
theorem topologicalOrder_filter {rows rows' : List VisibleRow} (distinct : DistinctRows rows)
    (later : ParentsLater rows) (closed : ∀ r ∈ rows, ∀ p ∈ r.parents, own p = own r.commit)
    (part : rows.filter (own ·.commit) = rows'.map (VisibleRow.raise k)) :
    (topologicalOrder rows).filter (own ·.commit) =
      (topologicalOrder rows').map (VisibleRow.raise k) := by
  refine LineWalk.run_filter distinct later.known closed rows.length le_rfl ?_
    (LineWalk.settled_start distinct) (LineWalk.matches_start part closed)
  rw [part, List.length_map]

namespace PermanentGraph

variable {whole part : PermanentGraph} {heads commits heads' commits' : Option CommitSet}

/-- **The own rows of a view are those of a view of the part alone**, if they are to show the same
commits. -/
theorem IsPart.visible (isPart : IsPart own k whole part) (wellFormed : whole.WellFormed)
    (wellFormed' : part.WellFormed) (ordered : GraphCommit.ChildrenFirst whole.rows)
    (ordered' : GraphCommit.ChildrenFirst part.rows)
    (shows : ∀ j, (∃ d ∈ part.rows, d.index = j) →
      (whole.Shows heads commits (k + j) ↔ part.Shows heads' commits' j)) (sort : SortOrder) :
    (whole.visible sort heads commits).rows.filter (own ·.commit) =
      (part.visible sort heads' commits').rows.map (VisibleRow.raise k) := by
  have rows := isPart.visibleRows wellFormed wellFormed' ordered ordered' shows
  cases sort with
  | date => exact rows
  | topological =>
    have view := isView_visible wellFormed ordered heads commits
    refine topologicalOrder_filter view.nodup view.parents_later (fun r hr p hp => ?_) rows
    exact isPart.own_of_bridge ((view.mem_parents r hr p).1 hp).2

end PermanentGraph

end CommitLog
