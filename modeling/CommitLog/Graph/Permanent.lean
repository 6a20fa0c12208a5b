import CommitLog.Graph.CommitSet
import Std.Data.HashMap

/-!
# The permanent graph

The graph of all commits of a session.  Its rows stand in *permanent order*: a commit comes when all
its children have come, and of the commits that may come next the newest does, or of equally new
ones the one with the smallest number.  Commits on a cycle never get their turn; they follow at the
end, newest first.

`permanentOrder` keeps the commits that may come next in a queue and counts for every other commit
the children that are still to come.
-/

namespace CommitLog

/-- A commit as a node of a graph. -/
structure GraphCommit where
  index : CommitIndex
  parents : List CommitIndex
  /-- Seconds since the start of 1970. -/
  time : Int
  deriving DecidableEq, Repr

/-- How often each number occurs in a list. -/
def occurrences (ns : List CommitIndex) : Std.HashMap CommitIndex Nat :=
  ns.foldl (fun counts n => counts.insert n (counts.getD n 0 + 1)) ∅

namespace GraphCommit

/-- Whether a commit goes before another when both may come next. -/
def goesBefore (a b : GraphCommit) : Bool :=
  b.time < a.time || (a.time == b.time && a.index ≤ b.index)

/-- The commits by their numbers; the first commit of a number counts. -/
def table (commits : List GraphCommit) : Std.HashMap CommitIndex GraphCommit :=
  commits.foldl (fun table c => table.insertIfNew c.index c) ∅

/-- Keeps a commit unless its number has been seen; the last commit kept comes first. -/
def keep (state : List GraphCommit × Std.HashMap CommitIndex GraphCommit) (c : GraphCommit) :
    List GraphCommit × Std.HashMap CommitIndex GraphCommit :=
  if state.2.contains c.index then state else (c :: state.1, state.2.insert c.index c)

/-- The commits without those whose number an earlier one has. -/
def distinct (commits : List GraphCommit) : List GraphCommit :=
  (commits.foldl keep ([], ∅)).1.reverse

/-- The commits with the parents that are commits themselves. -/
def closeParents (commits : List GraphCommit) : List GraphCommit :=
  let known := table commits
  commits.map fun c => { c with parents := c.parents.filter known.contains }

/-- How often each number is the parent of a commit. -/
def childCounts (commits : List GraphCommit) : Std.HashMap CommitIndex Nat :=
  occurrences (commits.flatMap (·.parents))

/-- Puts a commit into a queue, behind those that go before it. -/
def enqueue (c : GraphCommit) : List GraphCommit → List GraphCommit
  | [] => [c]
  | d :: rest => if d.goesBefore c then d :: enqueue c rest else c :: d :: rest

/-- The commits in queue order. -/
def sorted (commits : List GraphCommit) : List GraphCommit :=
  commits.foldl (fun queue c => enqueue c queue) []

end GraphCommit

/-! ## Permanent order -/

/-- The commits that may come next, and the numbers of children that others wait for. -/
structure Frontier where
  ready : List GraphCommit
  waiting : Std.HashMap CommitIndex Nat

namespace Frontier

/-- One child of a commit has come.  A commit whose last child has come joins the queue. -/
def release (table : Std.HashMap CommitIndex GraphCommit) (frontier : Frontier)
    (parent : CommitIndex) : Frontier :=
  match frontier.waiting[parent]? with
  | none => frontier
  | some count =>
    let waiting := frontier.waiting.insert parent (count - 1)
    match (if count = 1 then table[parent]? else none) with
    | some c => ⟨c.enqueue frontier.ready, waiting⟩
    | none => ⟨frontier.ready, waiting⟩

/-- The next commits, at most so many. -/
def run (table : Std.HashMap CommitIndex GraphCommit) : Nat → Frontier → List GraphCommit
  | 0, _ => []
  | count + 1, frontier =>
    match frontier.ready with
    | [] => []
    | c :: rest => c :: run table count (c.parents.foldl (release table) ⟨rest, frontier.waiting⟩)

/-- The commits without children are the first that may come. -/
def start (commits : List GraphCommit) : Frontier :=
  let waiting := GraphCommit.childCounts commits
  ⟨GraphCommit.sorted (commits.filter fun c => !waiting.contains c.index), waiting⟩

end Frontier

/-- The commits in permanent order; their numbers differ and their parents are among them. -/
def permanentOrder (commits : List GraphCommit) : List GraphCommit :=
  let ordered := (Frontier.start commits).run (GraphCommit.table commits) commits.length
  let emitted := GraphCommit.table ordered
  ordered ++ GraphCommit.sorted (commits.filter fun c => !emitted.contains c.index)

/-! ## The graph -/

/-- All commits of a session, in permanent order, and the heads of its branches. -/
structure PermanentGraph where
  rows : List GraphCommit
  heads : CommitSet

namespace PermanentGraph

/-- The graph of the given commits.  Of several commits with one number the first counts; links to
unknown parents and unknown heads are dropped. -/
def ofCommits (commits : List GraphCommit) (heads : List CommitIndex) : PermanentGraph :=
  let rows := permanentOrder (GraphCommit.closeParents (GraphCommit.distinct commits))
  let known := GraphCommit.table rows
  ⟨rows, CommitSet.ofList (heads.filter known.contains)⟩

def commit? (graph : PermanentGraph) (index : CommitIndex) : Option GraphCommit :=
  graph.rows.find? (·.index == index)

def contains (graph : PermanentGraph) (index : CommitIndex) : Bool :=
  (graph.commit? index).isSome

def parents (graph : PermanentGraph) (index : CommitIndex) : List CommitIndex :=
  ((graph.commit? index).map (·.parents)).getD []

def size (graph : PermanentGraph) : Nat := graph.rows.length

/-! ## Containing branches -/

/-- Passes the heads that contain a commit on to its parents. -/
def passHeads (heads : CommitSet) (table : Std.HashMap CommitIndex CommitSet)
    (row : GraphCommit) : Std.HashMap CommitIndex CommitSet :=
  let inherited := table.getD row.index .empty
  let own := if heads.contains row.index then inherited.insert row.index else inherited
  row.parents.foldl (fun table p => table.insert p ((table.getD p .empty).union own))
    (table.insert row.index own)

/-- The heads that contain each commit.  Children come first, so one pass through the rows takes
every head to all commits that it leads to. -/
def headTable (graph : PermanentGraph) : Std.HashMap CommitIndex CommitSet :=
  graph.rows.foldl (passHeads graph.heads) ∅

/-- The heads of branches from which a commit is reached. -/
def containingHeads? (graph : PermanentGraph) (index : CommitIndex) : Option CommitSet :=
  graph.headTable[index]?

/-- Whether a commit is reached from one of the given heads. -/
def isReachableFromAny (graph : PermanentGraph) (index : CommitIndex) (heads : CommitSet) : Bool :=
  (graph.containingHeads? index).any (·.meets heads)

end PermanentGraph

end CommitLog
