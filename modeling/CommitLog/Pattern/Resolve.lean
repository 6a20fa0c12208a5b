import CommitLog.Pattern.Expr
import CommitLog.Pattern.Property
import CommitLog.Unicode.Case

/-!
# From the written form to expressions

`resolve?` applies flags to the written form of a pattern.  A change of flags counts up to the end
of the group it stands in, also across alternatives.  Where Unicode is switched off only ASCII
characters can be matched, so a negated class, a dot or a byte above `7F` is refused there.
-/

namespace CommitLog.Pattern

open CommitLog.Unicode

structure Flags where
  ignoreCase : Bool
  multiLine : Bool
  dotAll : Bool
  unicode : Bool
  wideLines : Bool
  deriving Repr

def Flags.start (ignoreCase : Bool) : Flags := ⟨ignoreCase, false, false, true, false⟩

def Flags.apply (flags : Flags) (change : FlagChange) : Flags where
  ignoreCase := (change.state? .ignoreCase).getD flags.ignoreCase
  multiLine := (change.state? .multiLine).getD flags.multiLine
  dotAll := (change.state? .dotAll).getD flags.dotAll
  unicode := (change.state? .unicode).getD flags.unicode
  wideLines := (change.state? .wideLines).getD flags.wideLines

/-! ## Classes -/

def asciiClass : String → CodePoints
  | "alnum" => [(0x30, 0x39), (0x41, 0x5A), (0x61, 0x7A)]
  | "alpha" => [(0x41, 0x5A), (0x61, 0x7A)]
  | "ascii" => [(0, 0x7F)]
  | "blank" => [(0x09, 0x09), (0x20, 0x20)]
  | "cntrl" => [(0, 0x1F), (0x7F, 0x7F)]
  | "digit" => [(0x30, 0x39)]
  | "graph" => [(0x21, 0x7E)]
  | "lower" => [(0x61, 0x7A)]
  | "print" => [(0x20, 0x7E)]
  | "punct" => [(0x21, 0x2F), (0x3A, 0x40), (0x5B, 0x60), (0x7B, 0x7E)]
  | "space" => [(0x09, 0x0D), (0x20, 0x20)]
  | "upper" => [(0x41, 0x5A)]
  | "word" => asciiWord
  | "xdigit" => [(0x30, 0x39), (0x41, 0x46), (0x61, 0x66)]
  | _ => []

def shorthandSet (unicode : Bool) : Shorthand → CodePoints
  | .digit => if unicode then Category.codePoints .decimalNumber else asciiClass "digit"
  | .space => if unicode then BinaryProperty.codePoints .whiteSpace else asciiClass "space"
  | .word => if unicode then wordSet else asciiWord

/-- A set with the other case of its ASCII letters. -/
def asciiClosure (set : CodePoints) : CodePoints :=
  set.union (((set.intersection [(0, 0x7F)]).caseClosure).intersection [(0, 0x7F)])

/-- The set with what differs from its members in case only, if case does not count. -/
def Flags.close (flags : Flags) (set : CodePoints) : CodePoints :=
  if !flags.ignoreCase then set
  else if flags.unicode then set.caseClosure
  else asciiClosure set

/-- The complement, if a class is negated; without Unicode there is none. -/
def Flags.negate? (flags : Flags) (negated : Bool) (set : CodePoints) : Option CodePoints :=
  if !negated then some set else if flags.unicode then some set.complement else none

/-- The code point of a literal.  Without Unicode a byte above `7F` is no character. -/
def Flags.literal? (flags : Flags) (l : Literal) : Option Nat :=
  if !flags.unicode && l.byte && 0x80 ≤ l.char.toNat then none else some l.char.toNat

/-- The code point of a literal in a class, where without Unicode it has to be ASCII. -/
def Flags.member? (flags : Flags) (l : Literal) : Option Nat :=
  if !flags.unicode && 0x80 ≤ l.char.toNat then none else some l.char.toNat

def Flags.property? (flags : Flags) (name : PropertyName) (negated : Bool) :
    Option CodePoints := do
  guard flags.unicode
  let set ← name.codePoints?
  flags.negate? negated (flags.close set)

def Flags.shorthand? (flags : Flags) (kind : Shorthand) (negated : Bool) : Option CodePoints :=
  flags.negate? negated (shorthandSet flags.unicode kind)

def ClassOperation.apply : ClassOperation → CodePoints → CodePoints → CodePoints
  | .intersection, a, b => a.intersection b
  | .difference, a, b => a.difference b
  | .symmetricDifference, a, b => a.symmetricDifference b

mutual

def ClassNode.members? (flags : Flags) : ClassNode → Option CodePoints
  | .empty => some []
  | .range first last => do
    let low ← flags.member? first
    let high ← flags.member? last
    return [(low, high)]
  | .ascii name negated => flags.negate? negated (flags.close (asciiClass name))
  | .property name negated => flags.property? name negated
  | .shorthand kind negated => flags.shorthand? kind negated
  | .bracketed inside negated => do
    let set ← inside.members? flags
    flags.negate? negated (flags.close set)
  | .union members => ClassNode.union? flags members
  | .combined operation left right => do
    let a ← left.members? flags
    let b ← right.members? flags
    return operation.apply (flags.close a) (flags.close b)

def ClassNode.union? (flags : Flags) : List ClassNode → Option CodePoints
  | [] => some []
  | c :: rest => do
    let a ← c.members? flags
    let b ← ClassNode.union? flags rest
    return a.union b

end

/-! ## Patterns -/

/-- The characters that the dot stands for. -/
def Flags.dot? (flags : Flags) : Option CodePoints :=
  if !flags.unicode then none
  else if flags.dotAll then some .everything
  else if flags.wideLines then some (CodePoints.complement [(0x0A, 0x0A), (0x0D, 0x0D)])
  else some (CodePoints.complement [(0x0A, 0x0A)])

def Flags.look (flags : Flags) : Anchor → Look
  | .caret =>
    if !flags.multiLine then .start else if flags.wideLines then .wideLineStart else .lineStart
  | .dollar =>
    if !flags.multiLine then .stop else if flags.wideLines then .wideLineStop else .lineStop
  | .textStart => .start
  | .textEnd => .stop
  | .edge => .edge (!flags.unicode)
  | .noEdge => .noEdge (!flags.unicode)
  | .wordStart => .wordStart (!flags.unicode)
  | .wordEnd => .wordStop (!flags.unicode)
  | .wordStartHalf => .wordStartHalf (!flags.unicode)
  | .wordEndHalf => .wordStopHalf (!flags.unicode)

mutual

/-- The expression of a pattern under the given flags, and the flags after it. -/
def Node.resolve? (flags : Flags) : Node → Option (Expr × Flags)
  | .empty => some (.empty, flags)
  | .flags change => some (.empty, flags.apply change)
  | .literal l => do
    let n ← flags.literal? l
    return (.chars (flags.close (.singleton n)), flags)
  | .dot => do return (.chars (← flags.dot?), flags)
  | .anchor place => some (.look (flags.look place), flags)
  | .property name negated => do return (.chars (← flags.property? name negated), flags)
  | .shorthand kind negated => do return (.chars (← flags.shorthand? kind negated), flags)
  | .bracketed inside negated => do
    let set ← inside.members? flags
    return (.chars (← flags.negate? negated (flags.close set)), flags)
  | .repeat least most body => do
    let (e, flags) ← body.resolve? flags
    return (.repeat least most e, flags)
  | .capture body => do
    let (e, _) ← body.resolve? flags
    return (.capture e, flags)
  | .group change body => do
    let (e, _) ← body.resolve? (flags.apply change)
    return (e, flags)
  | .concat parts => Node.resolveConcat? flags parts
  | .either parts => Node.resolveEither? flags parts

/-- The expression of patterns that follow each other. -/
def Node.resolveConcat? (flags : Flags) : List Node → Option (Expr × Flags)
  | [] => some (.empty, flags)
  | [node] => node.resolve? flags
  | node :: rest => do
    let (a, flags) ← node.resolve? flags
    let (b, flags) ← Node.resolveConcat? flags rest
    return (.concat a b, flags)

def Node.resolveEither? (flags : Flags) : List Node → Option (Expr × Flags)
  | [] => some (.empty, flags)
  | [node] => node.resolve? flags
  | node :: rest => do
    let (a, flags) ← node.resolve? flags
    let (b, flags) ← Node.resolveEither? flags rest
    return (.either a b, flags)

end

end CommitLog.Pattern
