/-!
# Prefix codes

A prefix code is a tree: each bit leads to one of two subtrees, and a leaf is a symbol.  A code is
given by the lengths of its words alone: words of one length are consecutive numbers in the order of
their symbols, and shorter words come before longer ones.
-/

namespace CommitLog.Compression

inductive CodeTree where
  /-- No word leads here. -/
  | unused
  | symbol (value : Nat)
  | branch (zero one : CodeTree)
  deriving Repr

namespace CodeTree

/-- The tree with one more word. -/
def insert (value : Nat) : List Bool → CodeTree → CodeTree
  | [], _ => .symbol value
  | b :: word, tree =>
    let (zero, one) := match tree with
      | .branch zero one => (zero, one)
      | _ => (.unused, .unused)
    if b then .branch zero (insert value word one) else .branch (insert value word zero) one

/-- The symbol whose word begins the bits, and the rest of the bits. -/
def read? : CodeTree → List Bool → Option (Nat × List Bool)
  | .symbol value, bits => some (value, bits)
  | .branch zero one, b :: bits => if b then one.read? bits else zero.read? bits
  | _, _ => none

/-- The `length` lowest bits of a word, highest first. -/
def wordBits (length word : Nat) : List Bool :=
  (List.range length).map fun i => word.testBit (length - 1 - i)

def greatestLength : Nat := 15

def symbolsOf (lengths : List Nat) (length : Nat) : List Nat :=
  (lengths.zipIdx.filter fun (l, _) => l == length).map (·.2)

/-- The words of the lengths from `length` on, the first of them `word`, added to a tree. -/
def addWords (lengths : List Nat) : Nat → Nat → Nat → CodeTree → CodeTree
  | 0, _, _, tree => tree
  | count + 1, length, word, tree =>
    let symbols := symbolsOf lengths length
    let tree := symbols.zipIdx.foldl (fun tree (s, i) => tree.insert s (wordBits length (word + i)))
      tree
    addWords lengths count (length + 1) ((word + symbols.length) * 2) tree

/-- The number of words of the greatest length that begin with a word of the given length. -/
def extensions (length : Nat) : Nat := Nat.pow 2 (greatestLength - length)

/-- How many words of the greatest length the words take up. -/
def coverage (lengths : List Nat) : Nat :=
  (lengths.filter (· ≠ 0)).foldr (fun length count => extensions length + count) 0

/-- Whether every sequence of bits begins with exactly one word. -/
def isComplete (lengths : List Nat) : Bool := coverage lengths == extensions 0

/-- The code with words of the given lengths; zero stands for no word. -/
def ofLengths (lengths : List Nat) : CodeTree := addWords lengths greatestLength 1 0 .unused

/-- The code with words of the given lengths if it is complete or has at most one word. -/
def ofLengths? (lengths : List Nat) : Option CodeTree :=
  if isComplete lengths || (lengths.filter (· ≠ 0)).length ≤ 1 then some (ofLengths lengths)
  else none

end CodeTree

end CommitLog.Compression
