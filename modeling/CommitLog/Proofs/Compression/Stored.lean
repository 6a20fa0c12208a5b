import CommitLog.Compression.Zlib
import Mathlib.Algebra.Group.Nat.Defs

/-!
# Stored blocks

What is compressed comes back: `compress` writes stored blocks, and a stored block is read back with
what follows it left over.

    inflateBlocks? fuel (bitsOf (storedBlocks count bytes) ++ rest) output =
      some (output ++ bytes, rest)
    decompress? (compress bytes) = some bytes
-/

namespace CommitLog.Compression

variable {bytes : List UInt8} {bits rest : List Bool} {count n : Nat} {output : Array UInt8}

/-! ## Numbers and bytes in a stream -/

@[simp] theorem length_bitsOfNumber (count n : Nat) : (bitsOfNumber count n).length = count := by
  induction count generalizing n with
  | zero => rfl
  | succ count ih => rw [bitsOfNumber, List.length_cons, ih]

theorem numberOfBits_bitsOfNumber (h : n < 2 ^ count) :
    numberOfBits (bitsOfNumber count n) = n := by
  induction count generalizing n with
  | zero =>
    rw [Nat.pow_zero] at h
    rw [bitsOfNumber, numberOfBits]
    omega
  | succ count ih =>
    rw [Nat.pow_succ] at h
    have lowest : (n % 2 == 1).toNat = n % 2 := by
      rcases Nat.mod_two_eq_zero_or_one n with even | odd
      · rw [even]; rfl
      · rw [odd]; rfl
    rw [bitsOfNumber, numberOfBits, ih (by omega), lowest]
    omega

@[simp] theorem bitsOf_nil : bitsOf [] = [] := rfl

theorem bitsOf_cons (b : UInt8) (bytes : List UInt8) :
    bitsOf (b :: bytes) = bitsOfNumber 8 b.toNat ++ bitsOf bytes := by simp [bitsOf]

theorem bitsOf_append (a b : List UInt8) : bitsOf (a ++ b) = bitsOf a ++ bitsOf b := by
  simp [bitsOf]

theorem length_bitsOf (bytes : List UInt8) : (bitsOf bytes).length = 8 * bytes.length := by
  induction bytes with
  | nil => rfl
  | cons b bytes ih =>
    rw [bitsOf_cons, List.length_append, length_bitsOfNumber, ih, List.length_cons]
    omega

theorem takeNumber?_append (h : bits.length = count) :
    takeNumber? count (bits ++ rest) = some (numberOfBits bits, rest) := by
  subst h
  simp [takeNumber?, takeBits?]

theorem takeNumber?_byte (b : UInt8) (rest : List Bool) :
    takeNumber? 8 (bitsOfNumber 8 b.toNat ++ rest) = some (b.toNat, rest) := by
  rw [takeNumber?_append (length_bitsOfNumber 8 _), numberOfBits_bitsOfNumber b.toNat_lt]

theorem takeBytes?_bitsOf (bytes : List UInt8) (rest : List Bool) :
    takeBytes? bytes.length (bitsOf bytes ++ rest) = some (bytes, rest) := by
  induction bytes with
  | nil => rfl
  | cons b bytes ih =>
    rw [List.length_cons, bitsOf_cons, List.append_assoc, takeBytes?]
    simp only [takeNumber?_byte, ih, Option.bind_eq_bind, Option.bind_some, UInt8.ofNat_toNat,
      Option.pure_def]

theorem numberOfBits_append (a b : List Bool) :
    numberOfBits (a ++ b) = numberOfBits a + 2 ^ a.length * numberOfBits b := by
  induction a with
  | nil => simp [numberOfBits]
  | cons x a ih =>
    rw [List.cons_append, numberOfBits, ih, numberOfBits, List.length_cons, Nat.pow_succ,
      Nat.mul_add, Nat.mul_comm _ 2, Nat.mul_assoc, Nat.add_assoc]

/-- Two bytes as a number, the lower one first. -/
theorem takeNumber?_two (low high : UInt8) (rest : List Bool) :
    takeNumber? 16 (bitsOf [low, high] ++ rest) = some (low.toNat + 256 * high.toNat, rest) := by
  have length : (bitsOf [low, high]).length = 16 := length_bitsOf [low, high]
  rw [takeNumber?_append length, bitsOf_cons, bitsOf_cons, bitsOf_nil, List.append_nil,
    numberOfBits_append, length_bitsOfNumber, numberOfBits_bitsOfNumber low.toNat_lt,
    numberOfBits_bitsOfNumber high.toNat_lt, show 2 ^ 8 = 256 from rfl]

/-! ## Blocks -/

theorem alignToByte_append (h : bits.length < 8) (whole : rest.length % 8 = 0) :
    alignToByte (bits ++ rest) = rest := by
  have short : (bits ++ rest).length % 8 = bits.length := by
    rw [List.length_append]
    omega
  rw [alignToByte, short, List.drop_left]

/-- The length of a block, and its complement as a check. -/
theorem inflateStored?_append (padding : bits.length < 8) (fits : bytes.length < 65536)
    (whole : rest.length % 8 = 0) (output : Array UInt8) :
    inflateStored? (bits ++
      (bitsOf [UInt8.ofNat (bytes.length % 256), UInt8.ofNat (bytes.length / 256)] ++
        (bitsOf [UInt8.ofNat (255 - bytes.length % 256), UInt8.ofNat (255 - bytes.length / 256)] ++
          (bitsOf bytes ++ rest)))) output = some (output ++ bytes, rest) := by
  have byte {n : Nat} (h : n < 256) : (UInt8.ofNat n).toNat = n := UInt8.toNat_ofNat_of_lt' h
  have size : bytes.length % 256 + 256 * (bytes.length / 256) = bytes.length := by omega
  have check : bytes.length +
      (255 - bytes.length % 256 + 256 * (255 - bytes.length / 256)) = 65535 := by omega
  have length (bits : List Bool) : takeNumber? 16 (bitsOf [UInt8.ofNat (bytes.length % 256),
      UInt8.ofNat (bytes.length / 256)] ++ bits) = some (bytes.length, bits) := by
    rw [takeNumber?_two, byte (by omega), byte (by omega), size]
  have complement (bits : List Bool) : takeNumber? 16 (bitsOf [UInt8.ofNat
      (255 - bytes.length % 256), UInt8.ofNat (255 - bytes.length / 256)] ++ bits) =
        some (255 - bytes.length % 256 + 256 * (255 - bytes.length / 256), bits) := by
    rw [takeNumber?_two, byte (by omega), byte (by omega)]
  rw [inflateStored?, alignToByte_append padding]
  · refine Option.bind_eq_some_iff.mpr ⟨_, length _, ?_⟩
    refine Option.bind_eq_some_iff.mpr ⟨_, complement _, ?_⟩
    refine Option.bind_eq_some_iff.mpr ⟨(), if_pos check, ?_⟩
    exact Option.bind_eq_some_iff.mpr ⟨_, takeBytes?_bitsOf bytes rest, rfl⟩
  · simp only [List.length_append, length_bitsOf, List.length_cons, List.length_nil]
    omega

/-- A stored block is read, and the last one ends the stream. -/
theorem inflateBlocks?_storedBlock (isLast : Bool) (fits : bytes.length < 65536)
    (whole : rest.length % 8 = 0) (fuel : Nat) :
    inflateBlocks? (fuel + 1) (bitsOf (storedBlock isLast bytes) ++ rest) output =
      if isLast then some (output ++ bytes, rest)
      else inflateBlocks? fuel rest (output ++ bytes) := by
  have padding : (List.replicate 5 false).length < 8 := by decide
  have stored := inflateStored?_append padding fits whole output
  have flag : bitsOfNumber 8 (if isLast then 1 else 0 : UInt8).toNat =
      [isLast] ++ ([false, false] ++ List.replicate 5 false) := by cases isLast <;> rfl
  have last (bits : List Bool) : takeNumber? 1 ([isLast] ++ bits) = some (isLast.toNat, bits) :=
    takeNumber?_append rfl
  have kind (bits : List Bool) : takeNumber? 2 ([false, false] ++ bits) = some (0, bits) :=
    takeNumber?_append rfl
  have block : bitsOf (storedBlock isLast bytes) ++ rest = [isLast] ++ ([false, false] ++
      (List.replicate 5 false ++
        (bitsOf [UInt8.ofNat (bytes.length % 256), UInt8.ofNat (bytes.length / 256)] ++
          (bitsOf [UInt8.ofNat (255 - bytes.length % 256),
            UInt8.ofNat (255 - bytes.length / 256)] ++ (bitsOf bytes ++ rest))))) := by
    rw [storedBlock, bitsOf_append, bitsOf_cons, flag]
    simp only [bitsOf_cons, bitsOf_nil, List.append_assoc, List.nil_append]
  rw [block, inflateBlocks?]
  simp only [last, kind, inflateBlock?, stored, Option.bind_eq_bind, Option.bind_some]
  cases isLast <;> rfl

/-- A row of stored blocks is read up to the last one. -/
theorem inflateBlocks?_storedBlocks (full : bytes.length / greatestBlock = count)
    (whole : rest.length % 8 = 0) {fuel : Nat} (enough : count < fuel) :
    inflateBlocks? fuel (bitsOf (storedBlocks count bytes) ++ rest) output =
      some (output ++ bytes, rest) := by
  induction count generalizing bytes output fuel with
  | zero =>
    obtain ⟨fuel, rfl⟩ := Nat.exists_eq_succ_of_ne_zero (Nat.ne_of_gt enough)
    have fits : bytes.length < 65536 := by
      unfold greatestBlock at full
      omega
    rw [storedBlocks, inflateBlocks?_storedBlock true fits whole, if_pos rfl]
  | succ count ih =>
    obtain ⟨fuel, rfl⟩ := Nat.exists_eq_succ_of_ne_zero (Nat.ne_of_gt (Nat.zero_lt_of_lt enough))
    have fits : (bytes.take greatestBlock).length < 65536 := by
      rw [List.length_take]
      unfold greatestBlock
      omega
    have next : (bytes.drop greatestBlock).length / greatestBlock = count := by
      rw [List.length_drop]
      unfold greatestBlock at *
      omega
    have joined : output ++ bytes.take greatestBlock ++ bytes.drop greatestBlock =
        output ++ bytes := by
      apply Array.ext'
      rw [Array.toList_appendList, Array.toList_appendList, Array.toList_appendList,
        List.append_assoc, List.take_append_drop]
    rw [storedBlocks, bitsOf_append, List.append_assoc,
      inflateBlocks?_storedBlock false fits (by
        rw [List.length_append, length_bitsOf]
        omega),
      if_neg Bool.false_ne_true, ih next (Nat.lt_of_succ_lt_succ enough), joined]

/-! ## Contents -/

@[simp] theorem length_bigEndian (size n : Nat) : (bigEndian size n).length = size := by
  induction size generalizing n with
  | zero => rfl
  | succ size ih => rw [bigEndian, List.length_append, ih]; rfl

/-- A row of stored blocks has more bits than blocks. -/
theorem lt_length_storedBlocks (count : Nat) (bytes : List UInt8) :
    count < (bitsOf (storedBlocks count bytes)).length := by
  rw [length_bitsOf]
  induction count generalizing bytes with
  | zero =>
    rw [storedBlocks, storedBlock, List.length_append]
    simp only [List.length_cons]
    omega
  | succ count ih =>
    have := ih (bytes.drop greatestBlock)
    rw [storedBlocks, storedBlock, List.length_append, List.length_append]
    simp only [List.length_cons]
    omega

/-- What was compressed is found again. -/
theorem decompress?_compress (bytes : List UInt8) : decompress? (compress bytes) = some bytes := by
  have whole : (bitsOf (bigEndian 4 (checksum bytes))).length % 8 = 0 := by
    rw [length_bitsOf, Nat.mul_mod_right]
  have aligned : alignToByte (bitsOf (bigEndian 4 (checksum bytes))) =
      bitsOf (bigEndian 4 (checksum bytes)) := by
    rw [alignToByte, whole, List.drop_zero]
  have sum := takeBytes?_bitsOf (bigEndian 4 (checksum bytes)) []
  rw [length_bigEndian, List.append_nil] at sum
  have stream : inflate? (bitsOf (storedBlocks (bytes.length / greatestBlock) bytes ++
      bigEndian 4 (checksum bytes))) =
        some (bytes, bitsOf (bigEndian 4 (checksum bytes))) := by
    have enough := lt_length_storedBlocks (bytes.length / greatestBlock) bytes
    rw [bitsOf_append, inflate?, inflateBlocks?_storedBlocks rfl whole (by
      rw [List.length_append]
      omega)]
    simp
  have header : isHeader 0x78 0x01 = true := by decide
  have content : compress bytes = 0x78 :: 0x01 ::
      (storedBlocks (bytes.length / greatestBlock) bytes ++ bigEndian 4 (checksum bytes)) := by
    rw [compress, List.append_assoc]
    rfl
  rw [content, decompress?]
  refine Option.bind_eq_some_iff.mpr ⟨(), if_pos header, ?_⟩
  refine Option.bind_eq_some_iff.mpr ⟨_, stream, ?_⟩
  refine Option.bind_eq_some_iff.mpr ⟨_, (congrArg _ aligned).trans sum, ?_⟩
  exact Option.bind_eq_some_iff.mpr ⟨(), if_pos rfl, rfl⟩

end CommitLog.Compression
