import CommitLog.Unicode.BinaryProperty

/-!
# Pattern expressions

A pattern expression says which stretches of a text it spans.  The stretches are given by positions:
`Spans text e i j` reads "`e` spans the characters from `i` up to `j`".  `ends` computes, for a set
of start positions, all positions at which a spanned stretch may end; a text matches when some
stretch of it is spanned.  Position sets are ascending lists, and every set of ends is found in as
many rounds as there are positions, so matching always ends.
-/

namespace CommitLog.Pattern

open CommitLog.Unicode

/-- A condition on a position. -/
inductive Look where
  /-- The start of the text. -/
  | start
  /-- The end of the text. -/
  | stop
  /-- The start of a line. -/
  | lineStart
  /-- The end of a line. -/
  | lineStop
  /-- The start of a line that may end in a carriage return. -/
  | wideLineStart
  /-- The end of a line that may end in a carriage return. -/
  | wideLineStop
  /-- The edge of a word. -/
  | edge (ascii : Bool)
  /-- No edge of a word. -/
  | noEdge (ascii : Bool)
  /-- The start of a word. -/
  | wordStart (ascii : Bool)
  /-- The end of a word. -/
  | wordStop (ascii : Bool)
  /-- No word character before. -/
  | wordStartHalf (ascii : Bool)
  /-- No word character after. -/
  | wordStopHalf (ascii : Bool)
  deriving DecidableEq, Repr

/-- A pattern expression. -/
inductive Expr where
  /-- The empty stretch. -/
  | empty
  /-- One character of a set. -/
  | chars (set : CodePoints)
  /-- The empty stretch, where a condition holds. -/
  | look (condition : Look)
  /-- One stretch after the other. -/
  | concat (first second : Expr)
  /-- Either stretch. -/
  | either (first second : Expr)
  /-- Several stretches in a row, at least `least` and at most `most`. -/
  | repeat (least : Nat) (most : Option Nat) (body : Expr)
  /-- A stretch that is remembered. -/
  | capture (body : Expr)
  deriving Repr

/-! ## Conditions -/

/-- The ASCII letters, digits and the underscore. -/
def asciiWord : CodePoints := [(0x30, 0x39), (0x41, 0x5A), (0x5F, 0x5F), (0x61, 0x7A)]

/-- Letters, marks, digits, connectors and joiners. -/
def wordSet : CodePoints :=
  ((BinaryProperty.codePoints .alphabetic).union
    (Category.union (Category.marks ++ [.decimalNumber, .connectorPunctuation]))).union
      (BinaryProperty.codePoints .joinControl)

/-- Whether a character, if there is one, belongs to words. -/
def isWord (ascii : Bool) (c : Option Char) : Bool :=
  match c with
  | some c => if ascii then asciiWord.holds c else wordSet.holds c
  | none => false

/-- The character before a position. -/
def before (text : Array Char) (i : Nat) : Option Char := if i = 0 then none else text[i - 1]?

/-- Whether a condition holds at a position. -/
def Look.holds (text : Array Char) (i : Nat) : Look → Bool
  | .start => i == 0
  | .stop => i == text.size
  | .lineStart => i == 0 || before text i == some '\n'
  | .lineStop => i == text.size || text[i]? == some '\n'
  | .wideLineStart =>
    i == 0 || before text i == some '\n' ||
      (before text i == some '\r' && text[i]? != some '\n')
  | .wideLineStop =>
    i == text.size || text[i]? == some '\r' ||
      (text[i]? == some '\n' && before text i != some '\r')
  | .edge ascii => isWord ascii (before text i) != isWord ascii text[i]?
  | .noEdge ascii => isWord ascii (before text i) == isWord ascii text[i]?
  | .wordStart ascii => !isWord ascii (before text i) && isWord ascii text[i]?
  | .wordStop ascii => isWord ascii (before text i) && !isWord ascii text[i]?
  | .wordStartHalf ascii => !isWord ascii (before text i)
  | .wordStopHalf ascii => !isWord ascii text[i]?

/-! ## Spans -/

mutual

/-- The expression spans the characters from the first position up to the second. -/
inductive Spans (text : Array Char) : Expr → Nat → Nat → Prop where
  | empty (i : Nat) : Spans text .empty i i
  | chars {set : CodePoints} {i : Nat} {c : Char} :
      text[i]? = some c → set.holds c = true → Spans text (.chars set) i (i + 1)
  | look {condition : Look} {i : Nat} :
      condition.holds text i = true → Spans text (.look condition) i i
  | concat {a b : Expr} {i j k : Nat} :
      Spans text a i j → Spans text b j k → Spans text (.concat a b) i k
  | left {a b : Expr} {i j : Nat} : Spans text a i j → Spans text (.either a b) i j
  | right {a b : Expr} {i j : Nat} : Spans text b i j → Spans text (.either a b) i j
  | repeat {least : Nat} {most : Option Nat} {body : Expr} {n i j : Nat} :
      least ≤ n → (∀ m, most = some m → n ≤ m) → SpansTimes text body n i j →
        Spans text (.repeat least most body) i j
  | capture {body : Expr} {i j : Nat} : Spans text body i j → Spans text (.capture body) i j

/-- So many stretches in a row, each spanned by the expression. -/
inductive SpansTimes (text : Array Char) : Expr → Nat → Nat → Nat → Prop where
  | zero {body : Expr} (i : Nat) : SpansTimes text body 0 i i
  | succ {body : Expr} {n i j k : Nat} :
      Spans text body i j → SpansTimes text body n j k → SpansTimes text body (n + 1) i k

end

/-! ## Sets of positions -/

/-- The members of two ascending lists, in ascending order. -/
def merge : List Nat → List Nat → List Nat
  | [], bs => bs
  | a :: as, bs =>
    let rec insertFirst : List Nat → List Nat
      | [] => a :: merge as []
      | b :: rest =>
        if a < b then a :: merge as (b :: rest)
        else if a = b then a :: merge as rest
        else b :: insertFirst rest
    insertFirst bs

/-- The members of the first list that are not in the second. -/
def without (as bs : List Nat) : List Nat := as.filter fun a => !bs.contains a

/-- The images after so many steps.  When a step changes nothing, no further one does. -/
def iterate (step : List Nat → List Nat) : Nat → List Nat → List Nat
  | 0, starts => starts
  | n + 1, starts =>
    let next := step starts
    if next == starts then starts else iterate step n next

/-- Everything reached from `fresh` in at most so many steps, added to what is known. -/
def reach (step : List Nat → List Nat) : Nat → List Nat → List Nat → List Nat
  | 0, known, _ => known
  | n + 1, known, fresh =>
    let next := without (step fresh) known
    if next.isEmpty then known else reach step n (merge known next) next

/-- The positions at which stretches from the start positions end. -/
def Expr.ends (text : Array Char) : Expr → List Nat → List Nat
  | .empty, starts => starts
  | .chars set, starts =>
    starts.filterMap fun i =>
      match text[i]? with
      | some c => if set.holds c then some (i + 1) else none
      | none => none
  | .look condition, starts => starts.filter (condition.holds text)
  | .concat a b, starts => b.ends text (a.ends text starts)
  | .either a b, starts => merge (a.ends text starts) (b.ends text starts)
  | .repeat least most body, starts =>
    let first := iterate (body.ends text) least starts
    let more := match most with
      | some most => most - least
      | none => text.size + 1
    reach (body.ends text) more first first
  | .capture body, starts => body.ends text starts

/-- Whether the expression spans some stretch of the text. -/
def Expr.occursIn (e : Expr) (text : List Char) : Bool :=
  !(e.ends text.toArray (List.range (text.length + 1))).isEmpty

end CommitLog.Pattern
