import CommitLog.Text.Blank
import CommitLog.Text.Number

/-!
# Object ids

An object id is twenty bytes, written as forty lowercase hexadecimal digits.  Users name objects by
the first digits of their ids; `normalPrefix?` says which texts serve for that.
-/

namespace CommitLog

/-- The name of an object: the hash of its content. -/
structure ObjectId where
  bytes : List UInt8
  length_bytes : bytes.length = 20
  deriving DecidableEq

namespace ObjectId

/-- The id with the given bytes, if they are twenty. -/
def ofBytes? (bytes : List UInt8) : Option ObjectId :=
  if h : bytes.length = 20 then some ⟨bytes, h⟩ else none

def count : Nat := Nat.pow 256 20

def zero : ObjectId := ⟨List.replicate 20 0, by decide⟩

instance : Inhabited ObjectId := ⟨zero⟩

instance : Hashable ObjectId := ⟨fun id => hash id.bytes⟩

def digits (id : ObjectId) : List Char := Text.hex id.bytes

def text (id : ObjectId) : String := String.ofList id.digits

instance : ToString ObjectId := ⟨text⟩

/-- The usual abbreviation. -/
def short (id : ObjectId) : String := String.ofList (id.digits.take 7)

/-- Ids are ordered by their bytes, which is the order of their digits. -/
def order (a b : ObjectId) : Ordering := compare a.bytes b.bytes

/-- The directory and the file of an object in a store of loose objects: the first two digits and
the others. -/
def fileName (id : ObjectId) : String :=
  String.ofList (id.digits.take 2) ++ "/" ++ String.ofList (id.digits.drop 2)

/-- Why a text is no object id. -/
inductive Flaw where
  /-- It does not have forty bytes. -/
  | length (size : Nat)
  /-- It has other characters than hexadecimal digits. -/
  | characters (text : String)
  deriving DecidableEq, Repr

def Flaw.message : Flaw → String
  | .length size => "Invalid object ID length: " ++ toString size
  | .characters text => "Invalid object ID characters: " ++ text

/-- Reads an id from forty hexadecimal digits of either case. -/
def parse (text : String) : Except Flaw ObjectId :=
  if text.utf8ByteSize ≠ 40 then .error (.length text.utf8ByteSize)
  else match (Text.unhex? text.toList).bind ofBytes? with
    | some id => .ok id
    | none => .error (.characters text)

/-- The fewest digits that name an object. -/
def leastPrefix : Nat := 4

/-- The lowercase digits of a beginning of an id: four to forty hexadecimal digits, blanks around
them aside. -/
def normalPrefix? (text : String) : Option (List Char) :=
  let digits := Text.trim text.toList
  if leastPrefix ≤ digits.length ∧ digits.length ≤ 40 ∧
      digits.all fun c => (Text.hexDigit? c).isSome then
    some (digits.map fun c => Text.hexChar ((Text.hexDigit? c).getD 0))
  else none

/-- Whether the digits of an id begin with the given ones. -/
def startsWith (id : ObjectId) (digits : List Char) : Bool := digits.isPrefixOf id.digits

end ObjectId

end CommitLog
