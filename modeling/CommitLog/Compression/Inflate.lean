import CommitLog.Compression.Bits
import CommitLog.Compression.Code

/-!
# Inflating

A compressed stream is a sequence of blocks.  A stored block holds bytes as they are.  The other
blocks hold symbols: bytes, references to bytes that came before, and the end of the block.  Their
codes are either fixed or stand at the start of the block.
-/

namespace CommitLog.Compression

/-! ## Blocks of symbols -/

/-- The least lengths of the copies that the symbols from 257 on stand for, each with the number of
bits by which the length may exceed it. -/
def copyLengths : List (Nat × Nat) :=
  [(3, 0), (4, 0), (5, 0), (6, 0), (7, 0), (8, 0), (9, 0), (10, 0), (11, 1), (13, 1), (15, 1),
    (17, 1), (19, 2), (23, 2), (27, 2), (31, 2), (35, 3), (43, 3), (51, 3), (59, 3), (67, 4),
    (83, 4), (99, 4), (115, 4), (131, 5), (163, 5), (195, 5), (227, 5), (258, 0)]

/-- The least distances that the symbols of distances stand for, each with the number of bits by
which the distance may exceed it. -/
def copyDistances : List (Nat × Nat) :=
  [(1, 0), (2, 0), (3, 0), (4, 0), (5, 1), (7, 1), (9, 2), (13, 2), (17, 3), (25, 3), (33, 4),
    (49, 4), (65, 5), (97, 5), (129, 6), (193, 6), (257, 7), (385, 7), (513, 8), (769, 8),
    (1025, 9), (1537, 9), (2049, 10), (3073, 10), (4097, 11), (6145, 11), (8193, 12),
    (12289, 12), (16385, 13), (24577, 13)]

/-- The number of a symbol in one of the two tables. -/
def takeCopyNumber? (table : List (Nat × Nat)) (symbol : Nat) (bits : List Bool) :
    Option (Nat × List Bool) := do
  let (least, width) ← table[symbol]?
  let (more, bits) ← takeNumber? width bits
  return (least + more, bits)

/-- The output with `length` more bytes, each the same as the one `distance` before it.  Before the
start of the output there are zeros. -/
def copyBack (distance : Nat) : Nat → Array UInt8 → Array UInt8
  | 0, output => output
  | length + 1, output =>
    let next := if distance ≤ output.size then output.getD (output.size - distance) 0 else 0
    copyBack distance length (output.push next)

/-- Reads symbols up to the end of the block, at most so many. -/
def inflateSymbols? (literals distances : CodeTree) :
    Nat → List Bool → Array UInt8 → Option (Array UInt8 × List Bool)
  | 0, _, _ => none
  | count + 1, bits, output => do
    let (symbol, bits) ← literals.read? bits
    if symbol < 256 then
      inflateSymbols? literals distances count bits (output.push (UInt8.ofNat symbol))
    else if symbol = 256 then return (output, bits)
    else
      let (length, bits) ← takeCopyNumber? copyLengths (symbol - 257) bits
      let (symbol, bits) ← distances.read? bits
      let (distance, bits) ← takeCopyNumber? copyDistances symbol bits
      inflateSymbols? literals distances count bits (copyBack distance length output)

/-! ## Codes of a block -/

/-- The code of bytes, lengths and the end in blocks without codes of their own. -/
def fixedLiterals : CodeTree :=
  .ofLengths (List.replicate 144 8 ++ List.replicate 112 9 ++ List.replicate 24 7 ++
    List.replicate 8 8)

/-- The code of distances in blocks without codes of their own. -/
def fixedDistances : CodeTree := .ofLengths (List.replicate 32 5)

/-- The order in which the lengths of the words for lengths are listed. -/
def lengthOrder : List Nat :=
  [16, 17, 18, 0, 8, 7, 9, 6, 10, 5, 11, 4, 12, 3, 13, 2, 14, 1, 15]

/-- Reads `count` lengths of three bits. -/
def takeSmallLengths? : Nat → List Bool → Option (List Nat × List Bool)
  | 0, bits => some ([], bits)
  | count + 1, bits => do
    let (length, bits) ← takeNumber? 3 bits
    let (lengths, bits) ← takeSmallLengths? count bits
    return (length :: lengths, bits)

/-- A run of lengths: what the symbol repeats and how often. -/
def takeRun? (symbol : Nat) (previous : Option Nat) (bits : List Bool) :
    Option (Nat × Nat × List Bool) := do
  match symbol with
  | 16 =>
    let (more, bits) ← takeNumber? 2 bits
    return (← previous, 3 + more, bits)
  | 17 =>
    let (more, bits) ← takeNumber? 3 bits
    return (0, 3 + more, bits)
  | 18 =>
    let (more, bits) ← takeNumber? 7 bits
    return (0, 11 + more, bits)
  | length => return (length, 1, bits)

/-- Reads lengths until there are `total`, in at most so many runs; none may go beyond. -/
def takeLengths? (code : CodeTree) (total : Nat) :
    Nat → List Nat → List Bool → Option (List Nat × List Bool)
  | runs, lengths, bits =>
    if lengths.length = total then some (lengths, bits)
    else if total < lengths.length then none
    else match runs with
      | 0 => none
      | runs + 1 => do
        let (symbol, bits) ← code.read? bits
        let (length, count, bits) ← takeRun? symbol lengths.getLast? bits
        takeLengths? code total runs (lengths ++ List.replicate count length) bits

def takeCodes? (bits : List Bool) : Option (CodeTree × CodeTree × List Bool) := do
  let (literalCount, bits) ← takeNumber? 5 bits
  let (distanceCount, bits) ← takeNumber? 5 bits
  let (lengthCount, bits) ← takeNumber? 4 bits
  guard (literalCount ≤ 29 ∧ distanceCount ≤ 29)
  let (listed, bits) ← takeSmallLengths? (lengthCount + 4) bits
  let small := (List.range 19).map fun symbol => ((lengthOrder.zip listed).lookup symbol).getD 0
  guard (CodeTree.isComplete small)
  let total := literalCount + 257 + (distanceCount + 1)
  let (lengths, bits) ← takeLengths? (.ofLengths small) total total [] bits
  let literals ← CodeTree.ofLengths? (lengths.take (literalCount + 257))
  let distances ← CodeTree.ofLengths? (lengths.drop (literalCount + 257))
  return (literals, distances, bits)

/-! ## Blocks -/

/-- Reads a stored block: its length, the complement of its length, and its bytes. -/
def inflateStored? (bits : List Bool) (output : Array UInt8) :
    Option (Array UInt8 × List Bool) := do
  let (length, bits) ← takeNumber? 16 (alignToByte bits)
  let (complement, bits) ← takeNumber? 16 bits
  guard (length + complement = 65535)
  let (bytes, bits) ← takeBytes? length bits
  return (output ++ bytes, bits)

def inflateBlock? (kind : Nat) (bits : List Bool) (output : Array UInt8) :
    Option (Array UInt8 × List Bool) :=
  match kind with
  | 0 => inflateStored? bits output
  | 1 => inflateSymbols? fixedLiterals fixedDistances bits.length bits output
  | 2 => do
    let (literals, distances, bits) ← takeCodes? bits
    inflateSymbols? literals distances bits.length bits output
  | _ => none

/-- Reads blocks up to the one marked as the last, at most so many. -/
def inflateBlocks? : Nat → List Bool → Array UInt8 → Option (Array UInt8 × List Bool)
  | 0, _, _ => none
  | count + 1, bits, output => do
    let (last, bits) ← takeNumber? 1 bits
    let (kind, bits) ← takeNumber? 2 bits
    let (output, bits) ← inflateBlock? kind bits output
    if last = 1 then return (output, bits) else inflateBlocks? count bits output

/-- The bytes of a compressed stream and what follows it.  Every block and every symbol takes at
least a bit, so there are no more of them than bits. -/
def inflate? (bits : List Bool) : Option (List UInt8 × List Bool) :=
  (inflateBlocks? bits.length bits #[]).map fun (output, bits) => (output.toList, bits)

end CommitLog.Compression
