import CommitLog.Pattern.Expr
import Std.Data.HashMap

/-!
# The size of patterns

A pattern is searched by an automaton over the bytes of UTF-8, and a pattern whose automaton is too
large is refused.  `Expr.cost` is the size of the automaton that reads forward and
`Expr.reverseCost` the size of the one that reads backward; `fits` asks both to stay within the
limit.

A set of characters becomes a set of byte sequences (`sequences`).  The forward automaton shares
equal remainders of these sequences, the backward automaton equal beginnings.
-/

namespace CommitLog.Pattern

open CommitLog.Unicode

/-- The size of one state of an automaton. -/
def stateSize : Nat := 32

def transitionSize : Nat := 8

/-- The size of a transition without label. -/
def linkSize : Nat := 4

/-- The greatest size of an automaton. -/
def sizeLimit : Nat := 10 * 1024 * 1024

/-! ## Byte sequences -/

/-- The greatest code points of one to three bytes. -/
def lengthLimits : List Nat := [0x7F, 0x7FF, 0xFFFF]

def codePointBytes (n : Nat) : List Nat := (String.utf8EncodeChar (Char.ofNat n)).map UInt8.toNat

/-- The places at which a range of code points of equal length has to be cut, so that in each piece
every byte runs through a range of its own: the first code point of the second piece. -/
def alignmentCut? (low high : Nat) : Option Nat :=
  [64, 64 * 64, 64 * 64 * 64].findSome? fun block =>
    if low / block = high / block then none
    else if low % block ≠ 0 then some ((low / block + 1) * block)
    else if high % block ≠ block - 1 then some (high / block * block)
    else none

/-- The place at which a range of code points has to be cut first, if there is one. -/
def cut? (low high : Nat) : Option Nat :=
  match lengthLimits.find? fun limit => low ≤ limit && limit < high with
  | some limit => some (limit + 1)
  | none => if high ≤ 0x7F then none else alignmentCut? low high

/-- The byte ranges of a range of code points, cut at most so many times in a row. -/
def sequencesOf : Nat → Nat → Nat → List (List (Nat × Nat))
  | 0, _, _ => []
  | fuel + 1, low, high =>
    if high < low then []
    else if low < 0xE000 ∧ 0xD7FF < high then
      sequencesOf fuel low 0xD7FF ++ sequencesOf fuel 0xE000 high
    else match cut? low high with
      | some place => sequencesOf fuel low (place - 1) ++ sequencesOf fuel place high
      | none => [(codePointBytes low).zip (codePointBytes high)]

/-- The byte ranges of a set of code points, in ascending order. -/
def sequences (set : CodePoints) : List (List (Nat × Nat)) :=
  set.flatMap fun (low, high) => sequencesOf 64 low high

/-- Sequences grouped by their first range. -/
def groupByFirst : List (List (Nat × Nat)) → List ((Nat × Nat) × List (List (Nat × Nat)))
  | [] => []
  | [] :: rest => groupByFirst rest
  | (first :: more) :: rest =>
    match groupByFirst rest with
    | (range, tails) :: groups =>
      if range = first then (range, more :: tails) :: groups
      else (first, [more]) :: (range, tails) :: groups
    | [] => [(first, [more])]

/-- The states of an automaton, by their transitions. -/
abbrev States := Std.HashMap (List (Nat × Nat × Nat)) Nat

/-- Adds the states for sequences of at most so many bytes; equal states are shared.  State 0 is the
one in which a sequence is complete. -/
def addStates : Nat → List (List (Nat × Nat)) → States → Nat × States
  | 0, _, states => (0, states)
  | length + 1, sequences, states =>
    if sequences.all List.isEmpty then (0, states)
    else
      let (transitions, states) := (groupByFirst sequences).foldl
        (fun (transitions, states) (range, tails) =>
          let (target, states) := addStates length tails states
          (transitions ++ [(range.1, range.2, target)], states)) ([], states)
      match states[transitions]? with
      | some state => (state, states)
      | none =>
        let state := states.size + 1
        (state, states.insert transitions state)

/-- The number of different beginnings of sequences of at most so many bytes. -/
def countBeginnings : Nat → List (List (Nat × Nat)) → Nat
  | 0, _ => 0
  | length + 1, sequences =>
    (groupByFirst sequences).foldr
      (fun (_, tails) count => 1 + countBeginnings length tails + count) 0

/-! ## Sets -/

/-- The size of a set whose automaton is the same in both directions, if it is one: nothing, a
single character, or ASCII characters. -/
def plainSetCost? (set : CodePoints) : Option Nat :=
  match set with
  | [] => some stateSize
  | [(low, high)] =>
    if low = high then some ((codePointBytes low).length * stateSize)
    else if high < 0x80 then some (2 * stateSize + transitionSize) else none
  | set =>
    if set.isAscii then some (2 * stateSize + set.length * transitionSize) else none

/-- The size of the forward automaton of a set. -/
def setCost (set : CodePoints) : Nat :=
  (plainSetCost? set).getD
    ((addStates 4 (sequences set) ∅).2.fold (fun size transitions _ =>
      size + stateSize + transitions.length * transitionSize) stateSize)

/-- The size of the backward automaton of a set. -/
def reverseSetCost (set : CodePoints) : Nat :=
  (plainSetCost? set).getD
    (let all := sequences set
     2 * stateSize + all.length * linkSize + countBeginnings 4 all * stateSize)

/-! ## Expressions -/

/-- The size of the automaton of an expression, given the sizes for sets and for the marks of a
remembered group. -/
def Expr.costWith (ofSet : CodePoints → Nat) (ofCapture : Nat) : Expr → Nat
  | .empty => 0
  | .chars set => ofSet set
  | .look _ => stateSize
  | .concat a b => a.costWith ofSet ofCapture + b.costWith ofSet ofCapture
  | .either a b =>
    let rest := b.costWith ofSet ofCapture
    a.costWith ofSet ofCapture + linkSize + match b with
      | .either _ _ => rest
      | _ => rest + linkSize + 2 * stateSize
  | .repeat least none body =>
    max 1 least * body.costWith ofSet ofCapture + stateSize + 2 * linkSize
  | .repeat least (some most) body =>
    most * body.costWith ofSet ofCapture +
      if least < most then stateSize + (most - least) * (stateSize + 2 * linkSize) else 0
  | .capture body => body.costWith ofSet ofCapture + ofCapture

/-- The size of the part that every forward automaton has: it skips to the start of a match and
remembers its ends. -/
def frameSize : Nat := 6 * stateSize + transitionSize + 2 * linkSize

/-- The size of the forward automaton. -/
def Expr.cost (e : Expr) : Nat := frameSize + e.costWith setCost (2 * stateSize)

/-- The size of the backward automaton. -/
def Expr.reverseCost (e : Expr) : Nat := stateSize + e.costWith reverseSetCost 0

/-- Whether both automata stay within the limit. -/
def Expr.fits (e : Expr) : Bool := e.cost ≤ sizeLimit && e.reverseCost ≤ sizeLimit

end CommitLog.Pattern
