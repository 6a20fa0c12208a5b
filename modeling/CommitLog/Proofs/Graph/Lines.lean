import CommitLog.Proofs.Graph.Topological

/-!
# Lines of history in topological order

Topological order stays on a line of history as long as it can: after a row comes the first of its
parents for which no other child is left (`FollowsLines`).  When a row comes, these parents are put
on top of the stack in their order; the rows without children stay below them in theirs.

    Acyclic commits →
      IsLineOrder (visible … .date heads set).rows (visible … .topological heads set).rows
-/

namespace CommitLog

/-- All rows that have the commit as a parent have come. -/
def AllChildrenIn (rows come : List VisibleRow) (i : CommitIndex) : Prop :=
  ∀ child ∈ rows, i ∈ child.parents → child ∈ come

instance (rows come : List VisibleRow) (i : CommitIndex) : Decidable (AllChildrenIn rows come i) :=
  inferInstanceAs (Decidable (∀ child ∈ rows, i ∈ child.parents → child ∈ come))

def isChildless (rows : List VisibleRow) (i : CommitIndex) : Bool :=
  rows.all fun row => !row.parents.contains i

/-- What an order of rows along lines of history is. -/
structure IsLineOrder (rows order : List VisibleRow) : Prop where
  perm : order.Perm rows
  parents_later : ParentsLater order
  /-- The rows without children keep their order among themselves. -/
  tips : (order.map (·.commit)).filter (isChildless rows) =
    (rows.map (·.commit)).filter (isChildless rows)
  /-- After a row comes the first of its parents all of whose children have come. -/
  line : ∀ above row below, order = above ++ row :: below → ∀ p,
    row.parents.find? (fun q => AllChildrenIn rows (above ++ [row]) q) = some p →
      below.head?.map (·.commit) = some p

/-- After every row comes the first of its parents that is a parent of no row to come. -/
def FollowsLines : List VisibleRow → Prop
  | [] => True
  | row :: below =>
    (∀ p, row.parents.find? (isChildless below) = some p → below.head?.map (·.commit) = some p) ∧
      FollowsLines below

variable {rows rest above below : List VisibleRow} {row : VisibleRow} {walk : LineWalk}
  {i p : CommitIndex}

theorem isChildless_iff : isChildless rows i = true ↔ i ∉ rows.flatMap (·.parents) := by
  simp [isChildless]

theorem isChildless_perm {rows' : List VisibleRow} (perm : rows.Perm rows') :
    isChildless rows = isChildless rows' := by
  funext i
  exact perm.all_eq

theorem FollowsLines.line (follows : FollowsLines (above ++ row :: below))
    (found : row.parents.find? (isChildless below) = some p) :
    below.head?.map (·.commit) = some p := by
  induction above with
  | nil => exact follows.1 p found
  | cons _ above ih => exact ih follows.2

/-- The children of a commit have come when no row to come is one. -/
theorem allChildrenIn_iff (perm : (above ++ row :: below).Perm rows) (distinct : rows.Nodup) :
    AllChildrenIn rows (above ++ [row]) i ↔ isChildless below i = true := by
  have nodup : ((above ++ [row]) ++ below).Nodup := by
    rw [List.append_assoc]
    exact perm.nodup_iff.2 distinct
  have mem (s : VisibleRow) : s ∈ rows ↔ s ∈ above ++ [row] ∨ s ∈ below := by
    rw [← List.mem_append, List.append_assoc]
    exact perm.mem_iff.symm
  rw [isChildless_iff, List.mem_flatMap]
  constructor
  · rintro come ⟨child, hchild, parent⟩
    have early := come child ((mem child).2 (.inr hchild)) parent
    exact (List.disjoint_of_nodup_append nodup) early hchild
  · intro free child hchild parent
    exact ((mem child).1 hchild).resolve_right fun late => free ⟨child, late, parent⟩

namespace LineWalk

/-! ## The stack -/

theorem stack_release (walk : LineWalk) (p : CommitIndex) : (walk.release p).stack =
    if walk.waiting[p]? = some 1 then p :: walk.stack else walk.stack := by
  unfold release
  cases h : walk.waiting[p]? with
  | none => simp
  | some count => simp

theorem waiting_release {q : CommitIndex} (differ : q ≠ p) :
    (walk.release p).waiting[q]? = walk.waiting[q]? := by
  unfold release
  cases walk.waiting[p]? with
  | none => rfl
  | some count => simp [Std.HashMap.getElem?_insert, Ne.symm differ]

/-- Commits released from the last to the first stand on the stack in their order, as far as they
waited for one child only. -/
theorem stack_foldl_release {ps : List CommitIndex} (nodup : ps.Nodup) (walk : LineWalk) :
    (ps.reverse.foldl release walk).stack =
        (ps.filter fun p => walk.waiting[p]? = some 1) ++ walk.stack ∧
      ∀ q, q ∉ ps → (ps.reverse.foldl release walk).waiting[q]? = walk.waiting[q]? := by
  induction ps with
  | nil => exact ⟨rfl, fun _ _ => rfl⟩
  | cons p ps ih =>
    obtain ⟨absent, nodup⟩ := List.nodup_cons.1 nodup
    obtain ⟨stack, others⟩ := ih nodup
    rw [List.reverse_cons, List.foldl_append, List.foldl_cons, List.foldl_nil]
    refine ⟨?_, fun q hq => ?_⟩
    · rw [stack_release, others p absent, stack, List.filter_cons]
      by_cases last : walk.waiting[p]? = some 1 <;> simp [last]
    · obtain ⟨differ, hq⟩ := List.ne_and_not_mem_of_not_mem_cons hq
      rw [waiting_release differ, others q hq]

/-- After a row, those of its parents that no other child is left of are on top of the stack. -/
theorem Settled.stack_released (settled : Settled rows rest (rest.flatMap (·.parents)) walk)
    (mem : row ∈ rest) (nodup : row.parents.Nodup) (stack : List CommitIndex)
    (remaining : Std.HashMap CommitIndex VisibleRow) :
    (row.parents.reverse.foldl LineWalk.release ⟨stack, remaining, walk.waiting⟩).stack =
      row.parents.filter (isChildless (rest.erase row)) ++ stack := by
  rw [(stack_foldl_release nodup _).1]
  congr 1
  refine List.filter_congr fun p hp => ?_
  have isParent : p ∈ rows.flatMap (·.parents) :=
    List.mem_flatMap.2 ⟨row, settled.sub row mem, hp⟩
  have count : (rest.flatMap (·.parents)).count p =
      1 + ((rest.erase row).flatMap (·.parents)).count p := by
    rw [((List.perm_cons_erase mem).flatMap_right _).count_eq, List.flatMap_cons,
      List.count_append, List.count_eq_one_of_mem nodup hp]
  rw [Bool.eq_iff_iff, isChildless_iff, ← List.count_eq_zero, decide_eq_true_iff,
    settled.waiting, if_pos isParent, count, Option.some.injEq]
  omega

/-! ## The run -/

/-- A run brings the row on top of the stack first, and follows the lines of history from it. -/
theorem run_lines (distinct : DistinctRows rows) (later : ParentsLater rows)
    (nodup : ∀ r ∈ rows, r.parents.Nodup) (count : Nat) (length : rest.length ≤ count)
    (settled : Settled rows rest (rest.flatMap (·.parents)) walk) :
    (run count walk).head?.map (·.commit) = walk.stack.head? ∧ FollowsLines (run count walk) := by
  have all := run_induction (P := fun rest walk come => come.Perm rest ∧
      come.head?.map (·.commit) = walk.stack.head? ∧ FollowsLines come) distinct later.known
    (fun rest walk settled empty => ?stop)
    (fun rest row walk stack next below mem free settled top hnext _ ih => ?step)
    count length settled
  · exact all.2
  case stop =>
    obtain rfl := settled.eq_nil distinct later empty
    exact ⟨.refl _, by rw [empty]; rfl, trivial⟩
  case step =>
    obtain ⟨perm, head, follows⟩ := ih
    refine ⟨(perm.cons row).trans (List.perm_cons_erase mem).symm, by rw [top]; rfl, ?_, follows⟩
    intro p found
    rw [head, hnext, settled.stack_released mem (nodup row (settled.sub row mem)),
      ← isChildless_perm perm, List.head?_append, List.head?_filter, found, Option.some_or]

/-- The rows without children come as they stand on the stack. -/
theorem filter_run (distinct : DistinctRows rows) (later : ParentsLater rows)
    (nodup : ∀ r ∈ rows, r.parents.Nodup) (count : Nat) (length : rest.length ≤ count)
    (settled : Settled rows rest (rest.flatMap (·.parents)) walk) :
    ((run count walk).map (·.commit)).filter (isChildless rows) =
      walk.stack.filter (isChildless rows) := by
  refine run_induction (P := fun _ walk come => (come.map (·.commit)).filter (isChildless rows) =
      walk.stack.filter (isChildless rows)) distinct later.known
    (fun rest walk settled empty => by rw [empty]; rfl)
    (fun rest row walk stack next below mem free settled top hnext _ ih => ?_) count length settled
  have known := settled.sub row mem
  -- the parents that are put on the stack have a child
  have unchanged : next.stack.filter (isChildless rows) = stack.filter (isChildless rows) := by
    rw [hnext, settled.stack_released mem (nodup row known), List.filter_append,
      List.append_left_eq_self, List.filter_eq_nil_iff]
    intro p hp tip
    refine isChildless_iff.1 tip (List.mem_flatMap.2 ⟨row, known, List.mem_of_mem_filter hp⟩)
  rw [top, List.map_cons, List.filter_cons, List.filter_cons, ih, unchanged]

end LineWalk

/-- Rows in topological order follow the lines of history. -/
theorem isLineOrder_topologicalOrder (distinct : DistinctRows rows) (later : ParentsLater rows)
    (nodup : ∀ r ∈ rows, r.parents.Nodup) : IsLineOrder rows (topologicalOrder rows) := by
  obtain ⟨perm, parents_later⟩ := topologicalOrder_spec distinct later
  have settled := LineWalk.settled_start distinct
  refine ⟨perm, parents_later, ?_, fun above row below split p found => ?_⟩
  · have tips : (LineWalk.start rows).stack = (rows.map (·.commit)).filter (isChildless rows) := by
      rw [List.filter_map]
      refine congrArg (List.map VisibleRow.commit) (List.filter_congr fun row _ => ?_)
      rw [Function.comp_apply, Bool.eq_iff_iff, isChildless_iff, Bool.not_eq_true',
        Bool.eq_false_iff, ne_eq]
      exact not_congr (contains_occurrences _ _)
    refine (LineWalk.filter_run distinct later nodup rows.length le_rfl settled).trans ?_
    rw [tips, List.filter_filter]
    simp only [Bool.and_self]
  · have follows := (LineWalk.run_lines distinct later nodup rows.length le_rfl settled).2
    change FollowsLines (topologicalOrder rows) at follows
    rw [split] at follows perm
    refine follows.line ?_
    rw [← found]
    congr 1
    funext q
    rw [Bool.eq_iff_iff, decide_eq_true_iff, allChildrenIn_iff perm (.of_map _ distinct)]

namespace PermanentGraph

open GraphCommit

/-- **A view of acyclic commits in topological order has the rows of the view by date**, each before
its parents, those without children in the same order, and after every row the first of its parents
all of whose children have come. -/
theorem isLineOrder_ofCommits {commits : List GraphCommit} (tips : List CommitIndex)
    (acyclic : Acyclic commits) (heads set : Option CommitSet) :
    IsLineOrder ((ofCommits commits tips).visible .date heads set).rows
      ((ofCommits commits tips).visible .topological heads set).rows := by
  have view := isView_visible (wellFormed_ofCommits commits tips)
    (childrenFirst_ofCommits tips acyclic) heads set
  exact isLineOrder_topologicalOrder view.nodup view.parents_later view.nodup_parents

/-- A merge of two branches and a tip beside it, with one of the branches hidden. -/
theorem isLineOrder_merge :
    Acyclic [⟨0, [1, 2], 60⟩, ⟨1, [3], 20⟩, ⟨2, [3, 5], 30⟩, ⟨3, [], 10⟩, ⟨4, [3], 50⟩] ∧
    IsLineOrder
      ((ofCommits [⟨0, [1, 2], 60⟩, ⟨1, [3], 20⟩, ⟨2, [3, 5], 30⟩, ⟨3, [], 10⟩, ⟨4, [3], 50⟩]
        [0, 4]).visible .date (some (.ofList [0, 4])) (some (.ofList [0, 1, 3, 4]))).rows
      ((ofCommits [⟨0, [1, 2], 60⟩, ⟨1, [3], 20⟩, ⟨2, [3, 5], 30⟩, ⟨3, [], 10⟩, ⟨4, [3], 50⟩]
        [0, 4]).visible .topological (some (.ofList [0, 4])) (some (.ofList [0, 1, 3, 4]))).rows :=
  have acyclic := acyclic_of_rank (fun i => if i = 3 then 5 else if i = 5 then 6 else i) (by decide)
  ⟨acyclic, isLineOrder_ofCommits [0, 4] acyclic _ _⟩

end PermanentGraph

end CommitLog
