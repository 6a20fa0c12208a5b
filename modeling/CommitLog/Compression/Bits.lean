/-!
# Streams of bits

A stream of bytes read bit by bit, the lowest bit of each byte first.  Numbers in the stream have
their lowest bit first too.
-/

namespace CommitLog.Compression

/-- The lowest `count` bits of a number, lowest first. -/
def bitsOfNumber : Nat → Nat → List Bool
  | 0, _ => []
  | count + 1, n => (n % 2 == 1) :: bitsOfNumber count (n / 2)

/-- The number with the given bits, lowest first. -/
def numberOfBits : List Bool → Nat
  | [] => 0
  | b :: rest => b.toNat + 2 * numberOfBits rest

def bitsOf (bytes : List UInt8) : List Bool := bytes.flatMap fun b => bitsOfNumber 8 b.toNat

/-- The first `count` bits and the rest. -/
def takeBits? (count : Nat) (bits : List Bool) : Option (List Bool × List Bool) :=
  let taken := bits.take count
  if taken.length = count then some (taken, bits.drop count) else none

/-- The number in the first `count` bits and the rest. -/
def takeNumber? (count : Nat) (bits : List Bool) : Option (Nat × List Bool) :=
  (takeBits? count bits).map fun (taken, rest) => (numberOfBits taken, rest)

def takeBytes? : Nat → List Bool → Option (List UInt8 × List Bool)
  | 0, bits => some ([], bits)
  | count + 1, bits => do
    let (n, bits) ← takeNumber? 8 bits
    let (bytes, bits) ← takeBytes? count bits
    return (UInt8.ofNat n :: bytes, bits)

/-- The stream from the next whole byte on. -/
def alignToByte (bits : List Bool) : List Bool := bits.drop (bits.length % 8)

end CommitLog.Compression
