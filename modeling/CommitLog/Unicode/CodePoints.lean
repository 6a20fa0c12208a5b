/-!
# Sets of code points

A set of code points is a list of ranges, first and last number of each.  `ofRanges` brings any
list of ranges into its normal form: ascending, neither overlapping nor touching.  The set
operations take and give normal forms.
-/

namespace CommitLog.Unicode

/-- A set of code points as inclusive ranges. -/
abbrev CodePoints := List (Nat × Nat)

namespace CodePoints

def greatest : Nat := 0x10FFFF

def contains (set : CodePoints) (n : Nat) : Bool := set.any fun (low, high) => low ≤ n && n ≤ high

def holds (set : CodePoints) (c : Char) : Bool := set.contains c.toNat

/-- Merges ranges that are sorted by their first number; `low` and `high` bound the range that is
being built. -/
def mergeFrom (low high : Nat) : List (Nat × Nat) → CodePoints
  | [] => [(low, high)]
  | (l, h) :: rest =>
    if l ≤ high + 1 then mergeFrom low (max high h) rest else (low, high) :: mergeFrom l h rest

def ofRanges (ranges : List (Nat × Nat)) : CodePoints :=
  match (ranges.filter fun (low, high) => low ≤ high).mergeSort fun a b => a.1 ≤ b.1 with
  | [] => []
  | (low, high) :: rest => mergeFrom low high rest

def singleton (n : Nat) : CodePoints := [(n, n)]

def everything : CodePoints := [(0, greatest)]

def union (a b : CodePoints) : CodePoints :=
  if a.isEmpty then b else if b.isEmpty then a else ofRanges (a ++ b)

/-- The gaps of a normal form, from `start` on. -/
def gapsFrom (start : Nat) : CodePoints → CodePoints
  | [] => if start ≤ greatest then [(start, greatest)] else []
  | (low, high) :: rest =>
    if start < low then (start, low - 1) :: gapsFrom (high + 1) rest else gapsFrom (high + 1) rest

def complement (set : CodePoints) : CodePoints := gapsFrom 0 set

def intersection (a b : CodePoints) : CodePoints := (a.complement.union b.complement).complement

def difference (a b : CodePoints) : CodePoints := (a.complement.union b).complement

def symmetricDifference (a b : CodePoints) : CodePoints :=
  (a.difference b).union (b.difference a)

def isAscii (set : CodePoints) : Bool := set.all fun (_, high) => high < 0x80

/-! ## Tables -/

/-- The state of reading a table: the ranges read so far in reverse, and the numbers of the range
at hand. -/
structure TableReader where
  ranges : List (Nat × Nat)
  low : Option Nat
  current : Option Nat

/-- The ranges with the one at hand, if any. -/
def TableReader.finish (r : TableReader) : List (Nat × Nat) :=
  match r.low, r.current with
  | some low, some high => (low, high) :: r.ranges
  | none, some n => (n, n) :: r.ranges
  | _, none => r.ranges

def digitValue (c : Char) : Nat :=
  if c.toNat < 'a'.toNat then c.toNat - '0'.toNat else c.toNat - 'a'.toNat + 10

/-- Takes in one character: a digit, the hyphen inside a range, or a blank between ranges. -/
def TableReader.step (r : TableReader) (c : Char) : TableReader :=
  if c = '-' then ⟨r.ranges, r.current, none⟩
  else if c = ' ' ∨ c = '\n' then ⟨r.finish, none, none⟩
  else ⟨r.ranges, r.low, some (r.current.getD 0 * 16 + digitValue c)⟩

/-- The set written as hexadecimal ranges, such as `30-39 5f`, in normal form. -/
def ofTable (table : String) : CodePoints :=
  (table.toList.foldl TableReader.step ⟨[], none, none⟩).finish.reverse

end CodePoints

end CommitLog.Unicode
