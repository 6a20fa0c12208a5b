import CommitLog.Graph.Permanent

/-!
# Visible graphs

A visible graph shows some of the commits of a permanent graph, each with the nearest visible
commits below it as its parents.  `VisibleGraph.nothing` is the definite answer that no commit can
be shown; it differs from a graph that happens to have no rows.
-/

namespace CommitLog

structure VisibleRow where
  commit : CommitIndex
  /-- The nearest visible commits below, in the order of the parents that lead to them. -/
  parents : List CommitIndex
  deriving DecidableEq, Repr

inductive SortOrder where
  /-- Children before parents, otherwise newest first. -/
  | date
  /-- Children before parents, keeping lines of history together. -/
  | topological
  deriving DecidableEq, Repr

/-- The commits that are shown. -/
inductive VisibleGraph where
  /-- Nothing can be shown. -/
  | nothing
  /-- These rows are shown. -/
  | ofRows (rows : List VisibleRow)
  deriving DecidableEq, Repr

namespace VisibleGraph

def rows : VisibleGraph → List VisibleRow
  | .nothing => []
  | .ofRows rows => rows

/-- The visible commits in the order of their rows. -/
def commits (graph : VisibleGraph) : List CommitIndex := graph.rows.map (·.commit)

/-- The row of a commit; of several rows the last. -/
def rowOf? (graph : VisibleGraph) (index : CommitIndex) : Option Nat :=
  (graph.commits.zipIdx.reverse.find? fun (c, _) => c == index).map (·.2)

def commitAt? (graph : VisibleGraph) (row : Nat) : Option CommitIndex := graph.commits[row]?

def parentsOf? (graph : VisibleGraph) (index : CommitIndex) : Option (List CommitIndex) :=
  (graph.rowOf? index).bind fun row => graph.rows[row]?.map (·.parents)

end VisibleGraph

/-! ## Topological order -/

/-- A stack of commits that may come next, the rows that are still to come, and the numbers of
children that they wait for. -/
structure LineWalk where
  stack : List CommitIndex
  remaining : Std.HashMap CommitIndex VisibleRow
  waiting : Std.HashMap CommitIndex Nat

namespace LineWalk

/-- How often each commit is the parent of a row. -/
def childCounts (rows : List VisibleRow) : Std.HashMap CommitIndex Nat :=
  occurrences (rows.flatMap (·.parents))

/-- One child of a commit has come; after the last one the commit goes on top of the stack. -/
def release (walk : LineWalk) (parent : CommitIndex) : LineWalk :=
  match walk.waiting[parent]? with
  | none => walk
  | some count =>
    { walk with
      stack := if count = 1 then parent :: walk.stack else walk.stack
      waiting := walk.waiting.insert parent (count - 1) }

/-- The next rows, at most so many.  The first parent of a row ends up on top. -/
def run : Nat → LineWalk → List VisibleRow
  | 0, _ => []
  | count + 1, walk =>
    match walk.stack with
    | [] => []
    | top :: rest =>
      match walk.remaining[top]? with
      | none => run count { walk with stack := rest }
      | some row =>
        row :: run count (row.parents.reverse.foldl release
          ⟨rest, walk.remaining.erase top, walk.waiting⟩)

/-- The rows without children, the first of them on top. -/
def start (rows : List VisibleRow) : LineWalk :=
  let waiting := childCounts rows
  ⟨(rows.filter fun row => !waiting.contains row.commit).map (·.commit),
    rows.foldl (fun table row => table.insert row.commit row) ∅, waiting⟩

end LineWalk

/-- The rows in topological order: a line of history is followed until it meets a merge. -/
def topologicalOrder (rows : List VisibleRow) : List VisibleRow :=
  (LineWalk.start rows).run rows.length

/-! ## Views of a permanent graph -/

namespace PermanentGraph

/-- The commits reached so far, after at most so many more steps from those that are pending. -/
def reachFrom (table : Std.HashMap CommitIndex GraphCommit) :
    Nat → List CommitIndex → Std.HashMap CommitIndex Unit → Std.HashMap CommitIndex Unit
  | 0, _, reached => reached
  | _ + 1, [], reached => reached
  | steps + 1, next :: pending, reached =>
    if reached.contains next then reachFrom table steps pending reached
    else
      match table[next]? with
      | none => reachFrom table steps pending reached
      | some c => reachFrom table steps (c.parents ++ pending) (reached.insert next ())

/-- The commits that the heads lead to, the heads included. -/
def reachable (graph : PermanentGraph) (heads : CommitSet) : Std.HashMap CommitIndex Unit :=
  reachFrom (GraphCommit.table graph.rows)
    (graph.rows.foldr (fun row count => row.parents.length + count) (heads.size + 1))
    heads.members ∅

/-- Adds the candidates that are not in the list yet. -/
def addNew (parents candidates : List CommitIndex) : List CommitIndex :=
  candidates.foldl (fun ps c => if ps.contains c then ps else ps ++ [c]) parents

/-- What the rows from some row on have given: the visible ones, and for every commit the nearest
visible commits at it or below it. -/
structure Sweep where
  rows : List VisibleRow
  nearest : Std.HashMap CommitIndex (List CommitIndex)

/-- Takes in the row above. -/
def Sweep.add (isReached isVisible : CommitIndex → Bool) (row : GraphCommit) (sweep : Sweep) :
    Sweep :=
  if !isReached row.index then sweep
  else
    let parents := row.parents.foldl (fun ps p =>
      addNew ps (if isVisible p then [p] else sweep.nearest.getD p [])) []
    if isVisible row.index then
      ⟨⟨row.index, parents⟩ :: sweep.rows, sweep.nearest.insert row.index [row.index]⟩
    else ⟨sweep.rows, sweep.nearest.insert row.index parents⟩

/-- The rows of the commits that the heads lead to and that belong to the set, in permanent order.
A missing set of heads or commits is no constraint. -/
def visibleRows (graph : PermanentGraph) (heads commits : Option CommitSet) : List VisibleRow :=
  let isReached : CommitIndex → Bool := match heads with
    | none => fun _ => true
    | some heads => (graph.reachable heads).contains
  let isVisible (index : CommitIndex) : Bool :=
    isReached index && commits.all (·.contains index)
  (graph.rows.foldr (Sweep.add isReached isVisible) ⟨[], ∅⟩).rows

/-- The view of the commits that the heads lead to and that belong to the set. -/
def visible (graph : PermanentGraph) (sort : SortOrder) (heads commits : Option CommitSet) :
    VisibleGraph :=
  let rows := graph.visibleRows heads commits
  match sort with
  | .date => .ofRows rows
  | .topological => .ofRows (topologicalOrder rows)

end PermanentGraph

end CommitLog
