import CommitLog.Fault
import CommitLog.Object.Digest

/-!
# Framing of objects

A stored object is a header and a body.  `serialize` writes both, `parseHeader` reads the header and
leaves the rest of the bytes alone, and the id of an object is the digest of its serialized form.
-/

namespace CommitLog

/-- The bytes before the first occurrence of a byte and those after it; everything and nothing when
it does not occur.  The flag says whether it occurs. -/
def splitAtByte (separator : UInt8) : List UInt8 → List UInt8 × Bool × List UInt8
  | [] => ([], false, [])
  | b :: rest =>
    if b = separator then ([], true, rest)
    else
      let (before, found, after) := splitAtByte separator rest
      (b :: before, found, after)

def textOfBytes (bytes : List UInt8) : Except Fault String :=
  (Utf8.decodeString bytes).mapError .encoding

/-- An object without meaning: its kind and its body. -/
structure RawObject where
  kind : ObjectKind
  body : List UInt8

namespace RawObject

/-- Header and body. -/
def serialize (object : RawObject) : List UInt8 :=
  Utf8.ofString (object.kind.header object.body.length) ++ object.body

def id (object : RawObject) : ObjectId :=
  let digest := Digest.state object.serialize
  ⟨digest.bytes, digest.length_bytes⟩

end RawObject

def ObjectKind.parse (name : String) : Except Fault ObjectKind :=
  match named? name with
  | some kind => .ok kind
  | none => .error (.objectKind name)

/-- Reads the header of an object: its kind, the length it declares, and the bytes after it. -/
def parseHeader (bytes : List UInt8) : Except Fault (ObjectKind × Nat × List UInt8) := do
  let (kindBytes, spaced, afterKind) := splitAtByte 0x20 bytes
  let kindText ← textOfBytes (if spaced then kindBytes ++ [0x20] else kindBytes)
  let kind ← ObjectKind.parse (Text.trimmed kindText)
  let (sizeBytes, ended, body) := splitAtByte 0 afterKind
  if !ended then throw .headerEnd
  let sizeText ← textOfBytes sizeBytes
  let some size := Text.unsigned? sizeText.toList | throw .headerSize
  return (kind, size, body)

end CommitLog
