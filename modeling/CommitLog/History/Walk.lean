import CommitLog.Object.Commit
import CommitLog.Object.Tree
import Std.Data.HashMap

/-!
# Walks through a history

A walk starts at some commits and goes from commits to their parents.  It visits every commit once,
of those that it knows and has not visited the newest first, of equally new ones the one with the
smallest id.  Commits that cannot be read come before all others, and nothing is known of what lies
behind them.
-/

namespace CommitLog

/-- How the objects of a history are read. -/
structure ObjectReader where
  commit : ObjectId → Except Fault Commit
  tree : ObjectId → Except Fault Tree

/-- A commit that can be read. -/
structure ReadCommit where
  id : ObjectId
  commit : Commit

namespace ReadCommit

def time (read : ReadCommit) : Int := read.commit.committer.time

/-- Whether a commit is visited before another. -/
def goesBefore (a b : ReadCommit) : Bool :=
  b.time < a.time || (a.time == b.time && (a.id.order b.id).isLE)

def enqueue (c : ReadCommit) : List ReadCommit → List ReadCommit
  | [] => [c]
  | d :: rest => if d.goesBefore c then d :: enqueue c rest else c :: d :: rest

end ReadCommit

/-- A commit that cannot be read. -/
structure LostCommit where
  id : ObjectId
  cause : Fault

namespace LostCommit

/-- Puts a commit into a list in ascending order of ids. -/
def insert (c : LostCommit) : List LostCommit → List LostCommit
  | [] => [c]
  | d :: rest => if (d.id.order c.id).isLE then d :: insert c rest else c :: d :: rest

/-- The fault that a walk reports. -/
def fault (lost : LostCommit) : Fault := .readCommit lost.id lost.cause

end LostCommit

/-- The commits that a walk knows. -/
structure Walk where
  /-- All of them. -/
  seen : Std.HashMap ObjectId Unit
  /-- Those to be visited, in order. -/
  ready : List ReadCommit
  /-- Those to be reported, in order. -/
  lost : List LostCommit

namespace Walk

/-- Gets to know a commit. -/
def discover (reader : ObjectReader) (walk : Walk) (id : ObjectId) : Walk :=
  if walk.seen.contains id then walk
  else
    let seen := walk.seen.insert id ()
    match reader.commit id with
    | .ok commit => ⟨seen, ReadCommit.enqueue ⟨id, commit⟩ walk.ready, walk.lost⟩
    | .error cause => ⟨seen, walk.ready, LostCommit.insert ⟨id, cause⟩ walk.lost⟩

/-- Gets to know the first commits. -/
def start (reader : ObjectReader) (tips : List ObjectId) : Walk :=
  tips.foldl (discover reader) ⟨∅, [], []⟩

/-- The next visits: what is lost, then one commit, and so on, up to so many commits. -/
def run (reader : ObjectReader) : Nat → Walk → List (Except Fault ReadCommit)
  | count, walk =>
    walk.lost.map (fun lost => .error lost.fault) ++
      match count, walk.ready with
      | 0, _ => []
      | _, [] => []
      | count + 1, c :: rest =>
        .ok c :: run reader count (c.commit.parents.foldl (discover reader) ⟨walk.seen, rest, []⟩)

end Walk

/-- All visits of a walk from the given commits; no commit is visited twice, so there are no more
than ids. -/
def ObjectReader.history (reader : ObjectReader) (tips : List ObjectId) :
    List (Except Fault ReadCommit) :=
  Walk.run reader ObjectId.count (Walk.start reader tips)

end CommitLog
