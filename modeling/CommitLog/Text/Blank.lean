/-!
# Blank characters, lines and words

Texts are taken apart as lists of characters.  `trim` removes the blank characters (Unicode
`White_Space`) at both ends, `lines` splits at line feeds, and `splitOnce` cuts a text at the first
occurrence of a separator.
-/

namespace CommitLog.Text

/-- The characters with the Unicode property `White_Space`. -/
def isBlank (c : Char) : Bool :=
  let n := c.toNat
  (9 ≤ n && n ≤ 13) || n == 0x20 || n == 0x85 || n == 0xA0 || n == 0x1680 ||
    (0x2000 ≤ n && n ≤ 0x200A) || n == 0x2028 || n == 0x2029 || n == 0x202F || n == 0x205F ||
    n == 0x3000

/-- The text after its leading blank characters. -/
def trimStart (text : List Char) : List Char := text.dropWhile isBlank

/-- The text before its trailing blank characters. -/
def trimEnd (text : List Char) : List Char := (text.reverse.dropWhile isBlank).reverse

/-- The text without blank characters at either end. -/
def trim (text : List Char) : List Char := trimEnd (trimStart text)

/-- The parts between the occurrences of one character; always one more than there are
occurrences. -/
def splitAll (separator : Char) : List Char → List (List Char)
  | [] => [[]]
  | c :: rest =>
    if c = separator then [] :: splitAll separator rest
    else match splitAll separator rest with
      | [] => [[c]]
      | part :: parts => (c :: part) :: parts

/-- What stands before and after the first occurrence of a character. -/
def splitOnce (separator : Char) : List Char → Option (List Char × List Char)
  | [] => none
  | c :: rest =>
    if c = separator then some ([], rest)
    else (splitOnce separator rest).map fun (before, after) => (c :: before, after)

/-- What stands before and after the last occurrence of a character. -/
def splitLast (separator : Char) (text : List Char) : Option (List Char × List Char) :=
  (splitOnce separator text.reverse).map fun (after, before) => (before.reverse, after.reverse)

/-- What stands before and after the first blank line, that is two line feeds in a row. -/
def splitParagraph : List Char → Option (List Char × List Char)
  | [] => none
  | '\n' :: '\n' :: rest => some ([], rest)
  | c :: rest => (splitParagraph rest).map fun (before, after) => (c :: before, after)

/-- A line without the carriage return that may end it. -/
def dropCarriageReturn (line : List Char) : List Char :=
  match line.reverse with
  | '\r' :: rest => rest.reverse
  | _ => line

/-- The lines of a text: the parts between line feeds, where a final line feed opens no further
line.  A carriage return right before a line feed belongs to the line end. -/
def lines : List Char → List (List Char)
  | text =>
    let parts := splitAll '\n' text
    match parts.reverse with
    | [] => []
    | last :: ended =>
      let complete := ended.reverse.map dropCarriageReturn
      if last.isEmpty then complete else complete ++ [last]

/-- The first line, empty for a text without lines. -/
def firstLine (text : String) : String :=
  String.ofList ((lines text.toList).headD [])

/-- `trim` on strings. -/
def trimmed (text : String) : String := String.ofList (trim text.toList)

end CommitLog.Text
