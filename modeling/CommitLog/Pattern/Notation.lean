/-!
# The written form of patterns

A `Node` is a pattern as it is written, before flags are applied and names of properties are looked
up.  Flags may change inside a group; `FlagChange` keeps them in the order in which they are
written.  `Node.depth` counts how deeply a pattern is nested.
-/

namespace CommitLog.Pattern

inductive Flag where
  /-- Letters match in either case. -/
  | ignoreCase
  /-- The anchors match at line ends as well. -/
  | multiLine
  /-- The dot matches line feeds as well. -/
  | dotAll
  /-- Repetitions prefer fewer rounds. -/
  | swapGreed
  /-- Characters are Unicode characters. -/
  | unicode
  /-- Lines may end in a carriage return. -/
  | wideLines
  /-- Blanks and comments in the pattern do not count. -/
  | ignoreBlanks
  deriving DecidableEq, Repr

/-- Flags to switch on and to switch off. -/
structure FlagChange where
  on : List Flag
  off : List Flag
  deriving Repr

/-- The new state of a flag, if the change names it. -/
def FlagChange.state? (change : FlagChange) (flag : Flag) : Option Bool :=
  if flag ∈ change.on then some true else if flag ∈ change.off then some false else none

/-- A character as it is written; `byte` marks the two-digit form that can stand for a byte. -/
structure Literal where
  char : Char
  byte : Bool
  deriving Repr

/-- The classes with a letter of their own. -/
inductive Shorthand where
  | digit
  | space
  | word
  deriving DecidableEq, Repr

/-- How a Unicode property is written. -/
inductive PropertyName where
  /-- A name alone. -/
  | plain (name : String)
  /-- A name and a value. -/
  | valued (name value : String)
  deriving Repr

/-- The operations on classes. -/
inductive ClassOperation where
  | intersection
  | difference
  | symmetricDifference
  deriving DecidableEq, Repr

/-- The inside of a bracketed class. -/
inductive ClassNode where
  /-- Nothing. -/
  | empty
  /-- The characters from one to another. -/
  | range (first last : Literal)
  /-- A class of ASCII characters by name. -/
  | ascii (name : String) (negated : Bool)
  /-- A Unicode property. -/
  | property (name : PropertyName) (negated : Bool)
  /-- A class with a letter of its own. -/
  | shorthand (kind : Shorthand) (negated : Bool)
  /-- A class in brackets of its own. -/
  | bracketed (inside : ClassNode) (negated : Bool)
  /-- Several classes together. -/
  | union (members : List ClassNode)
  /-- Two classes combined. -/
  | combined (operation : ClassOperation) (left right : ClassNode)
  deriving Repr

/-- How an anchor is written. -/
inductive Anchor where
  | caret
  | dollar
  | textStart
  | textEnd
  | edge
  | noEdge
  | wordStart
  | wordEnd
  | wordStartHalf
  | wordEndHalf
  deriving DecidableEq, Repr

/-- A pattern as it is written. -/
inductive Node where
  /-- Nothing. -/
  | empty
  /-- A change of flags up to the end of the group. -/
  | flags (change : FlagChange)
  /-- A character. -/
  | literal (literal : Literal)
  /-- Any character. -/
  | dot
  /-- A condition. -/
  | anchor (anchor : Anchor)
  /-- A Unicode property. -/
  | property (name : PropertyName) (negated : Bool)
  /-- A class with a letter of its own. -/
  | shorthand (kind : Shorthand) (negated : Bool)
  /-- A class in brackets. -/
  | bracketed (inside : ClassNode) (negated : Bool)
  /-- A repetition. -/
  | repeat (least : Nat) (most : Option Nat) (body : Node)
  /-- A group that is remembered. -/
  | capture (body : Node)
  /-- A group with flags of its own. -/
  | group (change : FlagChange) (body : Node)
  /-- One pattern after the other. -/
  | concat (parts : List Node)
  /-- Any one of several patterns. -/
  | either (parts : List Node)
  deriving Repr

/-! ## Depth -/

mutual

def ClassNode.depth : ClassNode → Nat
  | .bracketed inside _ => inside.depth + 1
  | .union members => ClassNode.depths members + 1
  | .combined _ left right => max left.depth right.depth + 1
  | _ => 0

/-- How deeply the deepest of several classes is nested. -/
def ClassNode.depths : List ClassNode → Nat
  | [] => 0
  | c :: rest => max c.depth (ClassNode.depths rest)

end

mutual

def Node.depth : Node → Nat
  | .bracketed inside _ => inside.depth + 1
  | .repeat _ _ body => body.depth + 1
  | .capture body => body.depth + 1
  | .group _ body => body.depth + 1
  | .concat parts => Node.depths parts + 1
  | .either parts => Node.depths parts + 1
  | _ => 0

/-- How deeply the deepest of several patterns is nested. -/
def Node.depths : List Node → Nat
  | [] => 0
  | n :: rest => max n.depth (Node.depths rest)

end

/-- The greatest depth that is accepted. -/
def greatestDepth : Nat := 250

/-- One pattern after the other; a single one stands for itself. -/
def Node.ofParts : List Node → Node
  | [] => .empty
  | [node] => node
  | parts => .concat parts

/-- Any one of several patterns; a single one stands for itself. -/
def Node.ofAlternatives : List Node → Node
  | [] => .empty
  | [node] => node
  | parts => .either parts

/-- Several classes together; a single one stands for itself. -/
def ClassNode.ofMembers : List ClassNode → ClassNode
  | [] => .empty
  | [member] => member
  | members => .union members

end CommitLog.Pattern
