import CommitLog.Text.Number
import CommitLog.Unicode.BinaryProperty

/-!
# Quoted texts

A quoted text stands in quotation marks.  Quotation marks, backslashes and the common control
characters inside it are written with a backslash; other characters that do not print by themselves
are written as their number.
-/

namespace CommitLog.Text

open CommitLog.Unicode

/-- The characters that do not print by themselves. -/
def unprintable : CodePoints :=
  (Category.union [.control, .format, .privateUse, .unassigned, .lineSeparator,
    .paragraphSeparator, .spaceSeparator]).union (BinaryProperty.codePoints .graphemeExtend)

def hexText (n : Nat) : String := String.ofList (Nat.toDigits 16 n)

/-- A character as it is written between quotation marks. -/
def quotedChar (c : Char) : String :=
  match c with
  | '"' => "\\\""
  | '\\' => "\\\\"
  | '\n' => "\\n"
  | '\r' => "\\r"
  | '\t' => "\\t"
  | '\x00' => "\\0"
  | ' ' => " "
  | c =>
    if ' ' ≤ c ∧ c ≤ '~' then String.singleton c
    else if unprintable.holds c then "\\u\x7b" ++ hexText c.toNat ++ "\x7d"
    else String.singleton c

/-- A text in quotation marks. -/
def quoted (text : String) : String :=
  "\"" ++ String.join (text.toList.map quotedChar) ++ "\""

end CommitLog.Text
