/-!
# Kinds of details

The filters that look at the details of a commit come in four kinds.  Sets of kinds are written as
numbers, one bit for each.
-/

namespace CommitLog

/-- What a filter of details looks at. -/
inductive DetailKind where
  | user
  | date
  | text
  | paths
  deriving DecidableEq, Repr

namespace DetailKind

def all : List DetailKind := [.user, .date, .text, .paths]

def bit : DetailKind → Nat
  | .user => 1
  | .date => 2
  | .text => 4
  | .paths => 8

/-- The number of a set of kinds. -/
def bits (kinds : List DetailKind) : Nat :=
  (all.filter fun kind => kinds.contains kind).foldr (fun kind n => kind.bit + n) 0

/-- The set of kinds of a number. -/
def ofBits (n : Nat) : List DetailKind := all.filter fun kind => n / kind.bit % 2 == 1

end DetailKind

end CommitLog
