import CommitLog.Metadata

/-!
# Sets of commits

A set of commits is an ascending list of their numbers, so equal sets are equal lists.
-/

namespace CommitLog

structure CommitSet where
  members : List CommitIndex
  ascending : members.Pairwise (· < ·)
  deriving DecidableEq

namespace CommitSet

/-- Puts a number into an ascending list, unless it is there. -/
def insertMember (n : CommitIndex) : List CommitIndex → List CommitIndex
  | [] => [n]
  | m :: rest =>
    if n < m then n :: m :: rest
    else if n = m then m :: rest
    else m :: insertMember n rest

theorem mem_insertMember {n k : CommitIndex} {ms : List CommitIndex} :
    k ∈ insertMember n ms ↔ k = n ∨ k ∈ ms := by
  induction ms with
  | nil => simp [insertMember]
  | cons m rest ih =>
    unfold insertMember
    split
    · simp
    · split
      · next h => subst h; simp
      · simp [ih, or_left_comm]

theorem pairwise_insertMember {n : CommitIndex} {ms : List CommitIndex}
    (h : ms.Pairwise (· < ·)) : (insertMember n ms).Pairwise (· < ·) := by
  induction ms with
  | nil => simp [insertMember]
  | cons m rest ih =>
    obtain ⟨least, pairwise⟩ := List.pairwise_cons.1 h
    unfold insertMember
    split
    · next lt =>
      refine List.pairwise_cons.2 ⟨fun k hk => ?_, h⟩
      rcases List.mem_cons.1 hk with rfl | hk
      · exact lt
      · exact Nat.lt_trans lt (least k hk)
    · split
      · exact h
      · next notLt notEq =>
        refine List.pairwise_cons.2 ⟨fun k hk => ?_, ih pairwise⟩
        rcases mem_insertMember.1 hk with rfl | hk
        · exact Nat.lt_of_le_of_ne (Nat.le_of_not_lt notLt) (Ne.symm notEq)
        · exact least k hk

def empty : CommitSet := ⟨[], .nil⟩

def insert (set : CommitSet) (n : CommitIndex) : CommitSet :=
  ⟨insertMember n set.members, pairwise_insertMember set.ascending⟩

def ofList (ns : List CommitIndex) : CommitSet := ns.foldl insert empty

def contains (set : CommitSet) (n : CommitIndex) : Bool := set.members.contains n

def union (a b : CommitSet) : CommitSet := b.members.foldl insert a

def size (set : CommitSet) : Nat := set.members.length

def isEmpty (set : CommitSet) : Bool := set.members.isEmpty

def filter (set : CommitSet) (p : CommitIndex → Bool) : CommitSet :=
  ⟨set.members.filter p, set.ascending.filter p⟩

/-- Whether two sets have a member in common. -/
def meets (a b : CommitSet) : Bool := a.members.any b.contains

end CommitSet

end CommitLog
