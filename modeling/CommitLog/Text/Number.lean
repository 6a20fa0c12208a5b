/-!
# Decimal and hexadecimal numbers in texts

Readers for whole numbers with an optional sign, each with its bounds, and writers with a fixed
number of digits.
-/

namespace CommitLog.Text

def digit? (c : Char) : Option Nat :=
  if '0' ≤ c ∧ c ≤ '9' then some (c.toNat - '0'.toNat) else none

def hexDigit? (c : Char) : Option Nat :=
  if '0' ≤ c ∧ c ≤ '9' then some (c.toNat - '0'.toNat)
  else if 'a' ≤ c ∧ c ≤ 'f' then some (c.toNat - 'a'.toNat + 10)
  else if 'A' ≤ c ∧ c ≤ 'F' then some (c.toNat - 'A'.toNat + 10)
  else none

/-- The number written by hexadecimal digits, at least one. -/
def hexNumber? (text : List Char) : Option Nat :=
  if text.isEmpty then none
  else text.foldlM (fun n c => (hexDigit? c).map (n * 16 + ·)) 0

/-- The number written by decimal digits, at least one. -/
def number? (text : List Char) : Option Nat :=
  if text.isEmpty then none
  else text.foldlM (fun n c => (digit? c).map (n * 10 + ·)) 0

/-- The number after the last one that 63 bits hold. -/
def bound63 : Nat := 9223372036854775808

/-- A number below 2^64, with an optional plus sign. -/
def unsigned? (text : List Char) : Option Nat :=
  let digits := match text with
    | '+' :: rest => rest
    | _ => text
  (number? digits).filter (· < 2 * bound63)

/-- A number between -2^63 and 2^63 - 1, with an optional sign. -/
def signed? (text : List Char) : Option Int :=
  match text with
  | '-' :: rest => (number? rest).bind fun n => if n ≤ bound63 then some (-(n : Int)) else none
  | '+' :: rest => (number? rest).bind fun n => if n < bound63 then some (n : Int) else none
  | _ => (number? text).bind fun n => if n < bound63 then some (n : Int) else none

/-- The decimal digits of a number, filled up with zeros on the left. -/
def padded (width n : Nat) : String :=
  let digits := (toString n).toList
  String.ofList (List.replicate (width - digits.length) '0' ++ digits)

/-- The lowercase digit of a value below 16. -/
def hexChar (n : Nat) : Char := Nat.digitChar n

/-- Two lowercase hexadecimal digits per byte. -/
def hex (bytes : List UInt8) : List Char :=
  bytes.flatMap fun b => [hexChar (b.toNat / 16), hexChar (b.toNat % 16)]

/-- The bytes written by pairs of hexadecimal digits. -/
def unhex? : List Char → Option (List UInt8)
  | [] => some []
  | [_] => none
  | high :: low :: rest => do
    let h ← hexDigit? high
    let l ← hexDigit? low
    let bytes ← unhex? rest
    return UInt8.ofNat (h * 16 + l) :: bytes

end CommitLog.Text
