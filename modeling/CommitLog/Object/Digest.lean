/-!
# SHA-1

The digest of a byte sequence: the message is filled up to whole blocks of sixteen words, each block
is stretched to eighty words, and each word turns five running words over once.
-/

namespace CommitLog.Digest

/-- The five running words. -/
structure State where
  a : UInt32
  b : UInt32
  c : UInt32
  d : UInt32
  e : UInt32

def start : State := ⟨0x67452301, 0xEFCDAB89, 0x98BADCFE, 0x10325476, 0xC3D2E1F0⟩

/-- The word with its bits moved to the left in a circle. -/
def rotate (w : UInt32) (n : UInt32) : UInt32 := (w <<< n) ||| (w >>> (32 - n))

/-- The bytes of a number, most significant first. -/
def bytesOf : Nat → Nat → List UInt8
  | 0, _ => []
  | size + 1, n => bytesOf size (n / 256) ++ [UInt8.ofNat (n % 256)]

/-- The message with a set bit, zeros up to a whole number of blocks, and its length in bits. -/
def pad (message : List UInt8) : List UInt8 :=
  let size := message.length
  message ++ 0x80 :: List.replicate ((119 - size % 64) % 64) 0 ++ bytesOf 8 (size * 8)

/-- Bytes taken together by fours. -/
def words : List UInt8 → List UInt32
  | a :: b :: c :: d :: rest =>
    (a.toUInt32 <<< 24 ||| b.toUInt32 <<< 16 ||| c.toUInt32 <<< 8 ||| d.toUInt32) :: words rest
  | _ => []

/-- The next word of a stretched block. -/
def nextWord (block : Array UInt32) : UInt32 :=
  let n := block.size
  rotate (block.getD (n - 3) 0 ^^^ block.getD (n - 8) 0 ^^^ block.getD (n - 14) 0 ^^^
    block.getD (n - 16) 0) 1

/-- A block of sixteen words stretched to eighty. -/
def stretch (block : List UInt32) : List UInt32 :=
  ((List.range 64).foldl (fun ws _ => ws.push (nextWord ws)) block.toArray).toList

/-- The function and the constant of a round. -/
def roundPart (round : Nat) (s : State) : UInt32 :=
  if round < 20 then ((s.b &&& s.c) ||| (~~~s.b &&& s.d)) + 0x5A827999
  else if round < 40 then (s.b ^^^ s.c ^^^ s.d) + 0x6ED9EBA1
  else if round < 60 then ((s.b &&& s.c) ||| (s.b &&& s.d) ||| (s.c &&& s.d)) + 0x8F1BBCDC
  else (s.b ^^^ s.c ^^^ s.d) + 0xCA62C1D6

/-- One round. -/
def turn (s : State) (round : Nat) (w : UInt32) : State :=
  ⟨rotate s.a 5 + roundPart round s + s.e + w, s.a, rotate s.b 30, s.c, s.d⟩

/-- The running words after a block. -/
def absorb (s : State) (block : List UInt32) : State :=
  let t := (stretch block).zipIdx.foldl (fun t (w, round) => turn t round w) s
  ⟨s.a + t.a, s.b + t.b, s.c + t.c, s.d + t.d, s.e + t.e⟩

/-- The running words after `count` blocks. -/
def absorbAll : Nat → State → List UInt32 → State
  | 0, s, _ => s
  | count + 1, s, ws => absorbAll count (absorb s (ws.take 16)) (ws.drop 16)

/-- The twenty bytes of the running words. -/
def State.bytes (s : State) : List UInt8 :=
  [s.a, s.b, s.c, s.d, s.e].flatMap fun (w : UInt32) =>
    [(w >>> 24).toUInt8, (w >>> 16).toUInt8, (w >>> 8).toUInt8, w.toUInt8]

theorem State.length_bytes (s : State) : s.bytes.length = 20 := rfl

/-- The digest of a message. -/
def state (message : List UInt8) : State :=
  let ws := words (pad message)
  absorbAll (ws.length / 16) start ws

end CommitLog.Digest
