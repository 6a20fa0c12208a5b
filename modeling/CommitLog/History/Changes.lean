import CommitLog.History.Walk
import CommitLog.Path.Selection

/-!
# Changes between trees

Two trees differ at a path when one of them has a file there that the other has not, or not the
same.  Only the directories that a selection leads to are read.
-/

namespace CommitLog

/-- The file of an entry, if it is one. -/
def TreeEntry.file? (entry : Option TreeEntry) : Option TreeEntry := entry.filter (!·.isTree)

/-- The directory of an entry, if it is one. -/
def TreeEntry.directory? (entry : Option TreeEntry) : Option ObjectId :=
  (entry.filter (·.isTree)).map (·.id)

namespace PathSelection

/-- The names of two trees that a selection allows, in ascending order. -/
def namesIn (selection : PathSelection) (old new : Tree) : List String :=
  (((old.entries ++ new.entries).filter fun (name, _) => selection.allows name).foldl
    (fun names (name, entry) => Tree.insertEntry name entry names) []).map (·.1)

end PathSelection

namespace ObjectReader

/-- The tree of an id; no id stands for the empty tree. -/
def treeOf (reader : ObjectReader) : Option ObjectId → Except Fault Tree
  | none => .ok .empty
  | some id => reader.tree id

/-- The changed files below two directories, through at most so many levels, in no particular
order. -/
def changesBelow (reader : ObjectReader) :
    Nat → Option ObjectId → Option ObjectId → PathSelection → Except Fault (List Path)
  | 0, _, _, _ => .ok []
  | levels + 1, old, new, selection =>
    if old = new then .ok []
    else do
      let oldTree ← reader.treeOf old
      let newTree ← reader.treeOf new
      let changes ← (selection.namesIn oldTree newTree).mapM fun name => do
        let oldEntry := oldTree.get? name
        let newEntry := newTree.get? name
        if oldEntry = newEntry then return []
        let narrowed := selection.below name
        let below ← reader.changesBelow levels (TreeEntry.directory? oldEntry)
          (TreeEntry.directory? newEntry) narrowed
        let isChanged := TreeEntry.file? oldEntry ≠ TreeEntry.file? newEntry
        return if isChanged && narrowed.isMatching then below ++ [narrowed.level] else below
      return changes.flatten

/-- The changed files of two trees that a selection wants, in ascending order.  No tree is below
itself, so there are no more levels than ids. -/
def changes (reader : ObjectReader) (old new : Option ObjectId) (selection : PathSelection) :
    Except Fault (List Path) := do
  let paths ← reader.changesBelow (ObjectId.count + 1) old new selection
  return paths.foldl (fun set p => insertPath p set) []

/-- The files that a commit changes against its first parent. -/
def changesOf (reader : ObjectReader) (commit : Commit) (selection : PathSelection) :
    Except Fault (List Path) := do
  let parent ← commit.parents.head?.mapM reader.commit
  reader.changes (parent.map (·.tree)) (some commit.tree) selection

end ObjectReader

end CommitLog
