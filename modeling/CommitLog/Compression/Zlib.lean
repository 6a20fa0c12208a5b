import CommitLog.Compression.Inflate

/-!
# Compressed contents

A compressed content is a header of two bytes, a compressed stream, and a checksum of the bytes that
the stream stands for.  `compress` stores bytes as they are; `decompress?` reads what any writer of
the format writes.
-/

namespace CommitLog.Compression

/-- The checksum: the sum of the bytes and the sum of these sums. -/
def checksum (bytes : List UInt8) : Nat :=
  let (a, b) := bytes.foldl (fun (a, b) byte =>
    let a := (a + byte.toNat) % 65521
    (a, (b + a) % 65521)) (1, 0)
  b * 65536 + a

/-- The bytes of a number, most significant first. -/
def bigEndian : Nat → Nat → List UInt8
  | 0, _ => []
  | size + 1, n => bigEndian size (n / 256) ++ [UInt8.ofNat (n % 256)]

/-- Whether two bytes are a header: the method is the one known, the window has at most 32768 bytes,
no dictionary is needed, and the bytes are a multiple of 31. -/
def isHeader (method flags : UInt8) : Bool :=
  method.toNat % 16 == 8 && method.toNat / 16 ≤ 7 && flags.toNat / 32 % 2 == 0 &&
    (method.toNat * 256 + flags.toNat) % 31 == 0

/-- The bytes that a compressed content stands for.  What follows the checksum does not count. -/
def decompress? (content : List UInt8) : Option (List UInt8) :=
  match content with
  | method :: flags :: stream => do
    guard (isHeader method flags)
    let (bytes, rest) ← inflate? (bitsOf stream)
    let (sum, _) ← takeBytes? 4 (alignToByte rest)
    guard (sum = bigEndian 4 (checksum bytes))
    return bytes
  | _ => none

/-- The most bytes of a stored block. -/
def greatestBlock : Nat := 65535

def storedBlock (isLast : Bool) (bytes : List UInt8) : List UInt8 :=
  let size := bytes.length
  [if isLast then 1 else 0, UInt8.ofNat (size % 256), UInt8.ofNat (size / 256),
    UInt8.ofNat (255 - size % 256), UInt8.ofNat (255 - size / 256)] ++ bytes

/-- The bytes in stored blocks, `count` full ones and a last one. -/
def storedBlocks : Nat → List UInt8 → List UInt8
  | 0, bytes => storedBlock true bytes
  | count + 1, bytes =>
    storedBlock false (bytes.take greatestBlock) ++ storedBlocks count (bytes.drop greatestBlock)

/-- A compressed content that stands for the bytes. -/
def compress (bytes : List UInt8) : List UInt8 :=
  [0x78, 0x01] ++ storedBlocks (bytes.length / greatestBlock) bytes ++
    bigEndian 4 (checksum bytes)

end CommitLog.Compression
