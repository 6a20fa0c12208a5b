import CommitLog.Pattern.Notation
import CommitLog.Text.Blank
import CommitLog.Text.Number
import CommitLog.Unicode.BinaryProperty

/-!
# Reading patterns

`readPattern?` reads the written form of a pattern from a text, or refuses the text.  A reader
carries what is left of the text, whether blanks count at the moment, and the group names that are
taken.  Every step of a loop takes at least one character, so the number of characters bounds the
number of steps.
-/

namespace CommitLog.Pattern

open CommitLog.Text (isBlank digit? hexDigit?)
open CommitLog.Unicode (BinaryProperty Category CodePoints)

/-- Where the reading of a pattern stands. -/
structure Reader where
  rest : List Char
  /-- Blanks and comments are skipped. -/
  loose : Bool
  /-- The group names in use. -/
  names : List String

namespace Reader

def peek? (r : Reader) : Option Char := r.rest.head?

/-- The character after the next one. -/
def peekSecond? (r : Reader) : Option Char := r.rest.tail.head?

def bump (r : Reader) : Reader := { r with rest := r.rest.tail }

/-- The text after its leading blanks and comments; `comment` says whether one is open. -/
def skipLoose (comment : Bool) : List Char → List Char
  | [] => []
  | c :: rest =>
    if comment then skipLoose (c != '\n') rest
    else if isBlank c then skipLoose false rest
    else if c = '#' then skipLoose true rest
    else c :: rest

/-- The reader after blanks and comments, where those do not count. -/
def skip (r : Reader) : Reader :=
  if r.loose then { r with rest := skipLoose false r.rest } else r

/-- The reader after the next character and what does not count after it. -/
def bumpSkip (r : Reader) : Reader := r.bump.skip

/-- The character after the next one, blanks and a comment sign aside where those do not count. -/
def peekLoose? (r : Reader) : Option Char :=
  if r.loose then
    match r.rest.tail.dropWhile isBlank with
    | '#' :: rest => (rest.dropWhile isBlank).head?
    | rest => rest.head?
  else r.peekSecond?

/-- The reader after a given text, if that comes next. -/
def take? (r : Reader) (text : List Char) : Option Reader :=
  if text.isPrefixOf r.rest then some { r with rest := r.rest.drop text.length } else none

/-- The reader after blanks, whether or not those count. -/
def skipBlanks (r : Reader) : Reader := { r with rest := r.rest.dropWhile isBlank }

/-- The next characters of a kind with the reader after them; what does not count is skipped after
each. -/
def takeWhile (kind : Char → Bool) : Nat → Reader → List Char × Reader
  | 0, r => ([], r)
  | steps + 1, r =>
    match r.peek? with
    | some c =>
      if kind c then
        let (more, after) := takeWhile kind steps r.bumpSkip
        (c :: more, after)
      else ([], r)
    | none => ([], r)

end Reader

/-! ## Escapes -/

/-- The characters with a meaning of their own. -/
def isMeta (c : Char) : Bool := c ∈ "\\.+*?()|[]\x7b\x7d^$#&-~".toList

/-- The characters that stand for themselves after a backslash. -/
def isEscapable (c : Char) : Bool :=
  isMeta c || (c.toNat < 0x80 && !c.isAlphanum && c != '<' && c != '>')

def charOfNumber? (n : Nat) : Option Char :=
  if n.isValidChar then some (Char.ofNat n) else none

def charOfHex? (digits : List Char) : Option Char := (Text.hexNumber? digits).bind charOfNumber?

/-- Reads exactly so many hexadecimal digits. -/
def readHexDigits? : Nat → Reader → Option (List Char × Reader)
  | 0, r => some ([], r)
  | count + 1, r => do
    let c ← r.peek?
    let _ ← hexDigit? c
    let (more, after) ← readHexDigits? count r.bumpSkip
    return (c :: more, after)

/-- Reads the number of a character after the letter that announces it: so many digits, or any
number of digits in braces. -/
def readHex? (digits : Nat) (r : Reader) : Option (Literal × Reader) := do
  let c ← r.peek?
  if c = '\x7b' then
    let inside := r.bumpSkip
    let (found, after) := inside.takeWhile (fun c => (hexDigit? c).isSome) inside.rest.length
    guard (after.peek? = some '\x7d')
    let char ← charOfHex? found
    return (⟨char, false⟩, after.bumpSkip)
  else
    let (found, after) ← readHexDigits? digits r
    let char ← charOfHex? found
    return (⟨char, digits == 2⟩, after)

/-- The place of the first occurrence of a text in another. -/
def splitAtText? (separator : List Char) : List Char → Option (List Char × List Char)
  | [] => none
  | c :: rest =>
    if separator.isPrefixOf (c :: rest) then some ([], (c :: rest).drop separator.length)
    else (splitAtText? separator rest).map fun (before, after) => (c :: before, after)

/-- The name of a property, perhaps with a value after a colon or an equals sign. -/
def propertyOfText (text : List Char) : PropertyName :=
  match splitAtText? ['!', '='] text, splitAtText? [':'] text, splitAtText? ['='] text with
  | some (name, value), _, _ | none, some (name, value), _ | none, none, some (name, value) =>
    .valued (String.ofList name) (String.ofList value)
  | none, none, none => .plain (String.ofList text)

/-- Reads the name of a property: one character, or a text in braces. -/
def readProperty? (r : Reader) : Option (PropertyName × Reader) := do
  let c ← r.peek?
  if c = '\x7b' then
    let inside := r.bumpSkip
    let (found, after) := inside.takeWhile (· != '\x7d') inside.rest.length
    guard (after.peek? = some '\x7d')
    return (propertyOfText found, after.bump)
  else
    guard (c ≠ '\\')
    return (.plain (String.singleton c), r.bump)

/-- Whether a character can belong to the name of a word edge. -/
def isEdgeNameChar (c : Char) : Bool := c.isAlpha || c == '-'

def edgeNamed? : String → Option Anchor
  | "start" => some .wordStart
  | "end" => some .wordEnd
  | "start-half" => some .wordStartHalf
  | "end-half" => some .wordEndHalf
  | _ => none

/-- Reads what may follow the letter of a word edge: the name of a special one in braces.  Braces
around something else are left alone. -/
def readEdge? (r : Reader) : Option (Anchor × Reader) :=
  if r.peek? = some '\x7b' then
    let inside := r.bumpSkip
    match inside.peek? with
    | none => none
    | some c =>
      if !isEdgeNameChar c then some (.edge, r)
      else do
        let (name, after) := inside.takeWhile isEdgeNameChar inside.rest.length
        guard (after.peek? = some '\x7d')
        let anchor ← edgeNamed? (String.ofList name)
        return (anchor, after.bump)
  else some (.edge, r)

/-- Reads what follows a backslash. -/
def readEscape? (r : Reader) : Option (Node × Reader) := do
  let c ← r.peek?
  let after := r.bump
  let plain (c : Char) : Option (Node × Reader) := some (.literal ⟨c, false⟩, after)
  match c with
  | 'x' => (readHex? 2 r.bumpSkip).map fun (l, after) => (.literal l, after)
  | 'u' => (readHex? 4 r.bumpSkip).map fun (l, after) => (.literal l, after)
  | 'U' => (readHex? 8 r.bumpSkip).map fun (l, after) => (.literal l, after)
  | 'p' => (readProperty? r.bumpSkip).map fun (name, after) => (.property name false, after)
  | 'P' => (readProperty? r.bumpSkip).map fun (name, after) => (.property name true, after)
  | 'd' => some (.shorthand .digit false, after)
  | 'D' => some (.shorthand .digit true, after)
  | 's' => some (.shorthand .space false, after)
  | 'S' => some (.shorthand .space true, after)
  | 'w' => some (.shorthand .word false, after)
  | 'W' => some (.shorthand .word true, after)
  | 'a' => plain '\x07'
  | 'f' => plain '\x0c'
  | 't' => plain '\t'
  | 'n' => plain '\n'
  | 'r' => plain '\r'
  | 'v' => plain '\x0b'
  | 'A' => some (.anchor .textStart, after)
  | 'z' => some (.anchor .textEnd, after)
  | 'b' => (readEdge? after).map fun (anchor, after) => (.anchor anchor, after)
  | 'B' => some (.anchor .noEdge, after)
  | '<' => some (.anchor .wordStart, after)
  | '>' => some (.anchor .wordEnd, after)
  | c => if isEscapable c then plain c else none

/-! ## Classes -/

def asciiClassNames : List String :=
  ["alnum", "alpha", "ascii", "blank", "cntrl", "digit", "graph", "lower", "print", "punct",
    "space", "upper", "word", "xdigit"]

/-- Reads a named ASCII class such as `[:alpha:]`; anything else is left alone. -/
def readAsciiClass? (r : Reader) : Option (ClassNode × Reader) := do
  let inside ← r.take? ['[', ':']
  let negated := inside.peek? == some '^'
  let inside := if negated then inside.bump else inside
  let name := inside.rest.takeWhile (· != ':')
  let after ← Reader.take? { inside with rest := inside.rest.drop name.length } [':', ']']
  let name := String.ofList name
  guard (asciiClassNames.contains name)
  return (.ascii name negated, after)

/-- Reads a character or an escape inside a class. -/
def readClassItem? (r : Reader) : Option (Node × Reader) := do
  let c ← r.peek?
  if c = '\\' then readEscape? r.bump else return (.literal ⟨c, false⟩, r.bump)

/-- What can stand in a class by itself. -/
def classMember? : Node → Option ClassNode
  | .literal l => some (.range l l)
  | .property name negated => some (.property name negated)
  | .shorthand kind negated => some (.shorthand kind negated)
  | _ => none

/-- What can begin or end a range. -/
def rangeEnd? : Node → Option Literal
  | .literal l => some l
  | _ => none

/-- Reads a member of a class: one item, or a range of two. -/
def readRange? (r : Reader) : Option (ClassNode × Reader) := do
  let (first, after) ← readClassItem? r
  let after := after.skip
  let c ← after.peek?
  if c ≠ '-' ∨ after.peekLoose? = some ']' ∨ after.peekLoose? = some '-' then
    return (← classMember? first, after)
  let (last, after) ← readClassItem? after.bumpSkip
  let first ← rangeEnd? first
  let last ← rangeEnd? last
  guard (first.char ≤ last.char)
  return (.range first last, after)

/-- The hyphens at the start of a class, which stand for themselves. -/
def readHyphens : Nat → Reader → List ClassNode × Reader
  | 0, r => ([], r)
  | steps + 1, r =>
    if r.peek? = some '-' then
      let (more, after) := readHyphens steps r.bumpSkip
      (.range ⟨'-', false⟩ ⟨'-', false⟩ :: more, after)
    else ([], r)

/-- Reads what follows the opening bracket of a class: whether the class is negated, and the
hyphens or the closing bracket that stand for themselves there. -/
def readOpening (r : Reader) : Bool × List ClassNode × Reader :=
  let negated := r.peek? == some '^'
  let r := if negated then r.bumpSkip else r
  let (hyphens, r) := readHyphens r.rest.length r
  if hyphens.isEmpty && r.peek? == some ']' then
    (negated, [.range ⟨']', false⟩ ⟨']', false⟩], r.bumpSkip)
  else (negated, hyphens, r)

/-- The operation that comes next in a class. -/
def classOperation? (r : Reader) : Option ClassOperation :=
  match r.peek?, r.peekSecond? with
  | some '&', some '&' => some .intersection
  | some '-', some '-' => some .difference
  | some '~', some '~' => some .symmetricDifference
  | _, _ => none

/-- A class with the operation that waits for it. -/
def completeClass (pending : Option (ClassOperation × ClassNode)) (right : ClassNode) :
    ClassNode :=
  match pending with
  | some (operation, left) => .combined operation left right
  | none => right

/-- Reads the inside of a class up to its closing bracket, in at most so many steps.  `members` are
those read since the last operation, in reverse. -/
def readClassInside? : Nat → Option (ClassOperation × ClassNode) → List ClassNode → Reader →
    Option (ClassNode × Reader)
  | 0, _, _, _ => none
  | steps + 1, pending, members, r => do
    let r := r.skip
    let c ← r.peek?
    let whole := completeClass pending (.ofMembers members.reverse)
    if c = '[' then
      match readAsciiClass? r with
      | some (member, after) => readClassInside? steps pending (member :: members) after
      | none =>
        let (negated, opening, after) := readOpening r.bumpSkip
        let (inside, after) ← readClassInside? steps none opening.reverse after
        readClassInside? steps pending (.bracketed inside negated :: members) after
    else if c = ']' then return (whole, r.bump)
    else match classOperation? r with
      | some operation => readClassInside? steps (some (operation, whole)) [] r.bump.bump
      | none =>
        let (member, after) ← readRange? r
        readClassInside? steps pending (member :: members) after

/-- Reads a class from its opening bracket. -/
def readClass? (r : Reader) : Option (Node × Reader) := do
  let (negated, opening, after) := readOpening r.bumpSkip
  let (inside, after) ← readClassInside? (r.rest.length + 1) none opening.reverse after
  return (.bracketed inside negated, after)

/-! ## Repetitions -/

/-- What can be repeated. -/
def isRepeatable : Node → Bool
  | .empty | .flags _ => false
  | _ => true

/-- Reads a number, blanks around it aside. -/
def readCount? (r : Reader) : Option Nat × Reader :=
  let r := r.skipBlanks
  let (digits, after) := r.takeWhile (fun c => (digit? c).isSome) r.rest.length
  ((Text.number? digits).filter (· < 4294967296), after.skipBlanks.skip)

/-- Skips the question mark that makes a repetition prefer fewer rounds. -/
def skipLazy (r : Reader) : Reader := if r.peek? = some '?' then r.bump else r

/-- Reads the bounds of a repetition in braces. -/
def readBounds? (r : Reader) : Option (Nat × Option Nat × Reader) := do
  let r := r.bumpSkip
  let _ ← r.peek?
  let (least, r) := readCount? r
  let c ← r.peek?
  let (most, r) ← if c = ',' then do
      let r := r.bumpSkip
      let c ← r.peek?
      if c = '\x7d' then pure (none, r)
      else do
        let (most, r) := readCount? r
        pure (some (← most), r)
    else pure (some (← least), r)
  let least ← least
  guard (r.peek? = some '\x7d')
  guard (most.all (least ≤ ·))
  return (least, most, skipLazy r.bumpSkip)

/-! ## Groups -/

def flagOf? : Char → Option Flag
  | 'i' => some .ignoreCase
  | 'm' => some .multiLine
  | 's' => some .dotAll
  | 'U' => some .swapGreed
  | 'u' => some .unicode
  | 'R' => some .wideLines
  | 'x' => some .ignoreBlanks
  | _ => none

/-- Reads flags up to a colon or a closing parenthesis: those before a hyphen are switched on, those
after it off.  No flag and no hyphen may come twice, and a hyphen may not come last. -/
def readFlags? : FlagChange → Option Bool → Reader → List Char → Option (FlagChange × Reader)
  | _, _, _, [] => none
  | change, hyphen, r, c :: rest =>
    let after := { r with rest := rest }
    if c = ':' ∨ c = ')' then
      if hyphen = some true then none else some (change, { r with rest := c :: rest })
    else if c = '-' then
      if hyphen.isSome then none else readFlags? change (some true) after rest
    else match flagOf? c with
      | none => none
      | some flag =>
        if flag ∈ change.on ∨ flag ∈ change.off then none
        else if hyphen.isSome then
          readFlags? { change with off := change.off ++ [flag] } (some false) after rest
        else readFlags? { change with on := change.on ++ [flag] } none after rest

def alphabeticSet : CodePoints := BinaryProperty.codePoints .alphabetic

def numericSet : CodePoints := Category.union Category.numbers

/-- Whether a character can belong to the name of a group. -/
def isGroupNameChar (first : Bool) (c : Char) : Bool :=
  c == '_' || alphabeticSet.holds c ||
    (!first && (c == '.' || c == '[' || c == ']' || numericSet.holds c))

/-- Reads the name of a group up to its closing angle bracket. -/
def readGroupName? (r : Reader) : Option Reader := do
  let name := r.rest.takeWhile (· != '>')
  let after ← Reader.take? { r with rest := r.rest.drop name.length } ['>']
  guard (!name.isEmpty)
  guard (name.zipIdx.all fun (c, i) => isGroupNameChar (i == 0) c)
  let name := String.ofList name
  guard (!r.names.contains name)
  return { after with names := name :: r.names }

/-- What an opening parenthesis begins. -/
inductive Opening where
  /-- A change of flags without a group. -/
  | flags (change : FlagChange)
  /-- A remembered group. -/
  | capture
  /-- A group with flags. -/
  | group (change : FlagChange)

def readOpeningParenthesis? (r : Reader) : Option (Opening × Reader) := do
  let r := r.bumpSkip
  let startsWith (text : String) : Bool := text.toList.isPrefixOf r.rest
  guard (!startsWith "?=" && !startsWith "?!" && !startsWith "?<=" && !startsWith "?<!")
  match r.take? "?P<".toList <|> r.take? "?<".toList with
  | some inside => return (.capture, ← readGroupName? inside)
  | none =>
    match r.take? ['?'] with
    | none => return (.capture, r)
    | some inside =>
      let _ ← inside.peek?
      let (change, after) ← readFlags? ⟨[], []⟩ none inside inside.rest
      if after.peek? = some ')' then
        guard (!(change.on.isEmpty && change.off.isEmpty))
        return (.flags change, after.bump)
      else return (.group change, after.bump)

/-- Adds a part to the alternative that is being read. -/
def readPrimitive? (r : Reader) : Option (Node × Reader) := do
  let c ← r.peek?
  match c with
  | '\\' => readEscape? r.bump
  | '.' => return (.dot, r.bump)
  | '^' => return (.anchor .caret, r.bump)
  | '$' => return (.anchor .dollar, r.bump)
  | c => return (.literal ⟨c, false⟩, r.bump)

/-- Replaces the last part by its repetition; `parts` are in reverse. -/
def repeatLast? (least : Nat) (most : Option Nat) : List Node → Option (List Node)
  | [] => none
  | part :: parts => if isRepeatable part then some (.repeat least most part :: parts) else none

/-- The pattern of what has been read, in reverse. -/
def wholeOf (alternatives parts : List Node) : Node :=
  .ofAlternatives (.ofParts parts.reverse :: alternatives).reverse

/-- Reads alternatives up to a closing parenthesis or the end, in at most so many steps.
`alternatives` and `parts` are what has been read, in reverse. -/
def readAlternatives? : Nat → List Node → List Node → Reader → Option (Node × Reader)
  | 0, _, _, _ => none
  | steps + 1, alternatives, parts, r => do
    let r := r.skip
    match r.peek? with
    | none => return (wholeOf alternatives parts, r)
    | some ')' => return (wholeOf alternatives parts, r)
    | some '|' =>
      readAlternatives? steps (Node.ofParts parts.reverse :: alternatives) [] r.bump
    | some '(' =>
      let (opening, inside) ← readOpeningParenthesis? r
      match opening with
      | .flags change =>
        let loose := (change.state? .ignoreBlanks).getD r.loose
        readAlternatives? steps alternatives (.flags change :: parts) { inside with loose := loose }
      | .capture =>
        let (body, after) ← readAlternatives? steps [] [] inside
        guard (after.peek? = some ')')
        readAlternatives? steps alternatives (.capture body :: parts)
          { after.bump with loose := r.loose }
      | .group change =>
        let loose := (change.state? .ignoreBlanks).getD r.loose
        let (body, after) ← readAlternatives? steps [] [] { inside with loose := loose }
        guard (after.peek? = some ')')
        readAlternatives? steps alternatives (.group change body :: parts)
          { after.bump with loose := r.loose }
    | some '[' =>
      let (part, after) ← readClass? r
      readAlternatives? steps alternatives (part :: parts) after
    | some '?' =>
      readAlternatives? steps alternatives (← repeatLast? 0 (some 1) parts) (skipLazy r.bump)
    | some '*' =>
      readAlternatives? steps alternatives (← repeatLast? 0 none parts) (skipLazy r.bump)
    | some '+' =>
      readAlternatives? steps alternatives (← repeatLast? 1 none parts) (skipLazy r.bump)
    | some '\x7b' =>
      guard (parts.head?.any isRepeatable)
      let (least, most, after) ← readBounds? r
      readAlternatives? steps alternatives (← repeatLast? least most parts) after
    | some _ =>
      let (part, after) ← readPrimitive? r
      readAlternatives? steps alternatives (part :: parts) after

/-- The written form of a pattern, unless the text is malformed or nested too deeply. -/
def readPattern? (text : List Char) : Option Node := do
  let (node, after) ← readAlternatives? (text.length + 1) [] [] ⟨text, false, []⟩
  guard (after.rest.isEmpty ∧ node.depth ≤ greatestDepth)
  return node

end CommitLog.Pattern
