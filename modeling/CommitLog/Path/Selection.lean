import CommitLog.Path.Basic
import CommitLog.Path.Trie

/-!
# Selections of paths

A selection says which files of a tree are wanted: those at or below one of its paths.  A walk down
the tree narrows the selection by each name on its way, so it never enters what no path leads to.
-/

namespace CommitLog

/-- The wanted files at one level of a tree. -/
structure PathSelection where
  trie : Trie
  /-- The names on the way to this level. -/
  level : Path

namespace PathSelection

def everything : PathSelection := ⟨.full, ⟨""⟩⟩

def namesOf (path : Path) : List String := path.components.map Component.text

/-- The files at or below the paths are wanted. -/
def ofPaths (paths : List Path) : PathSelection := ⟨.ofPaths (paths.map namesOf), ⟨""⟩⟩

/-- Whether everything at this level and below is wanted. -/
def isMatching (selection : PathSelection) : Bool := selection.trie.isMatching

/-- Whether a name is wanted or leads to something that is. -/
def allows (selection : PathSelection) (name : String) : Bool := selection.trie.containsSingle name

/-- The selection one level down. -/
def below (selection : PathSelection) (name : String) : PathSelection :=
  ⟨selection.trie.narrow name, selection.level.child name⟩

end PathSelection

end CommitLog
