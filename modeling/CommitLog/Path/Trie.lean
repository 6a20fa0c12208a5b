/-!
# Tries of paths

A trie holds a set of paths such that, with a path, it holds everything below it.  A node that
matches has no children: what lies below is held anyway.  Children stand in ascending order of their
names.
-/

namespace CommitLog

/-- A set of paths by their first names. -/
inductive Trie where
  | node (isMatching : Bool) (children : List (String × Trie))
  deriving Repr

namespace Trie

def empty : Trie := .node false []

def full : Trie := .node true []

def isMatching : Trie → Bool
  | .node m _ => m

/-- The tries below, by name. -/
def children : Trie → List (String × Trie)
  | .node _ cs => cs

/-- Puts a child into an ascending list, in place of the child of the same name. -/
def setChild (name : String) (child : Trie) : List (String × Trie) → List (String × Trie)
  | [] => [(name, child)]
  | (n, t) :: rest =>
    match compare name n with
    | .lt => (name, child) :: (n, t) :: rest
    | .eq => (name, child) :: rest
    | .gt => (n, t) :: setChild name child rest

/-- The trie with a path and everything below it.  What is held already stays as it is. -/
def insert : List String → Trie → Trie
  | [], _ => full
  | name :: rest, .node m cs =>
    if m then .node m cs
    else .node m (setChild name (insert rest ((cs.lookup name).getD empty)) cs)

def ofPaths (paths : List (List String)) : Trie := paths.foldl (fun trie p => trie.insert p) empty

def contains : List String → Trie → Bool
  | [], .node m _ => m
  | name :: rest, .node m cs =>
    m || match cs.lookup name with
      | some child => contains rest child
      | none => false

/-- Whether the trie holds a name or something below it. -/
def containsSingle (trie : Trie) (name : String) : Bool :=
  trie.isMatching || (trie.children.lookup name).isSome

/-- What the trie holds below a name. -/
def narrow (trie : Trie) (name : String) : Trie :=
  if trie.isMatching then trie else (trie.children.lookup name).getD empty

mutual

def same : Trie → Trie → Bool
  | .node m cs, .node n ds => m == n && sameChildren cs ds

def sameChildren : List (String × Trie) → List (String × Trie) → Bool
  | [], [] => true
  | (n, t) :: cs, (m, u) :: ds => n == m && same t u && sameChildren cs ds
  | _, _ => false

end

end Trie

end CommitLog
