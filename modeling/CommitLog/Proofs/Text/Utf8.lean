import CommitLog.Proofs.Steps
import CommitLog.Text.Utf8
import Mathlib.Algebra.Group.Nat.Defs

/-!
# Bytes and texts

Reading bytes gives a text exactly when the bytes are those of the text.  Inside a character the
reader accepts what the lead byte leaves open: the numbers that `Pending.Admits`, each as its last
sextets, and all of them are characters.

    decode bytes = .ok text ↔ bytes = encode text
-/

namespace CommitLog.Utf8

/-! ## Characters by their numbers -/

/-- The continuation bytes for the last `count + 1` sextets of a number. -/
def sextets : Nat → Nat → List UInt8
  | 0, n => [UInt8.ofNat (0x80 + n % 64)]
  | count + 1, n => UInt8.ofNat (0x80 + n / 64 ^ (count + 1) % 64) :: sextets count n

/-- The numbers whose characters may have begun in this way. -/
structure Pending.Admits (p : Pending) (n : Nat) : Prop where
  value : n / 64 ^ (p.owed + 1) = p.value
  low : p.low.toNat ≤ 0x80 + n / 64 ^ p.owed % 64
  high : 0x80 + n / 64 ^ p.owed % 64 ≤ p.high.toNat

/-- A pending character takes continuation bytes only, and whatever they make of it is a
character. -/
structure Pending.Good (p : Pending) : Prop where
  low : 0x80 ≤ p.low.toNat
  high : p.high.toNat ≤ 0xBF
  char : ∀ n, p.Admits n → n.isValidChar

variable {p : Pending} {b : UInt8} {c : Char} {bytes rest : List UInt8} {text : List Char}
  {position n : Nat}

theorem toNat_ofNat_valid (h : n.isValidChar) : (Char.ofNat n).toNat = n := by
  rw [Char.ofNat, dif_pos h]
  rfl

theorem isValidChar_toNat (c : Char) : c.toNat.isValidChar := c.valid

theorem toNat_lt (c : Char) : c.toNat < 0x110000 := by
  have := isValidChar_toNat c
  unfold Nat.isValidChar at this
  omega

/-! ### Encoded characters -/

theorem encodeChar_one {c : Char} (h : c.toNat < 0x80) :
    String.utf8EncodeChar c = [UInt8.ofNat c.toNat] :=
  if_pos (Nat.le_of_lt_succ h)

theorem encodeChar_two {c : Char} (low : 0x80 ≤ c.toNat) (high : c.toNat < 0x800) :
    String.utf8EncodeChar c = UInt8.ofNat (0xC0 + c.toNat / 64) :: sextets 0 c.toNat := by
  have lead : c.toNat / 64 % 0x20 + 0xC0 = 0xC0 + c.toNat / 64 := by omega
  unfold String.utf8EncodeChar
  rw [Char.toNat_val, if_neg (by omega), if_pos (by omega), lead, Nat.add_comm (_ % 0x40)]
  rfl

theorem encodeChar_three {c : Char} (low : 0x800 ≤ c.toNat) (high : c.toNat < 0x10000) :
    String.utf8EncodeChar c = UInt8.ofNat (0xE0 + c.toNat / 4096) :: sextets 1 c.toNat := by
  have lead : c.toNat / 4096 % 0x10 + 0xE0 = 0xE0 + c.toNat / 4096 := by omega
  unfold String.utf8EncodeChar
  rw [Char.toNat_val, if_neg (by omega), if_neg (by omega), if_pos (by omega), lead,
    Nat.add_comm (_ % 0x40), Nat.add_comm (_ % 0x40)]
  rfl

theorem encodeChar_four {c : Char} (low : 0x10000 ≤ c.toNat) :
    String.utf8EncodeChar c = UInt8.ofNat (0xF0 + c.toNat / 262144) :: sextets 2 c.toNat := by
  have := toNat_lt c
  have lead : c.toNat / 262144 % 0x08 + 0xF0 = 0xF0 + c.toNat / 262144 := by omega
  unfold String.utf8EncodeChar
  rw [Char.toNat_val, if_neg (by omega), if_neg (by omega), if_neg (by omega), lead,
    Nat.add_comm (_ % 0x40), Nat.add_comm (_ % 0x40), Nat.add_comm (_ % 0x40)]
  rfl

/-! ### Lead bytes -/

theorem Pending.le_lead (h : Pending.ofLead? position b = some p) : 0x80 ≤ b.toNat := by
  by_contra below
  rw [Pending.ofLead?, if_pos (by omega)] at h
  cases h

/-- What a lead byte announces are characters. -/
theorem Pending.good_of_lead (h : Pending.ofLead? position b = some p) : p.Good := by
  have := b.toNat_lt
  unfold Pending.ofLead? at h
  dsimp only at h
  repeat' split at h
  all_goals cases h
  all_goals
    refine ⟨by simp, by simp, fun n ⟨value, low, high⟩ => ?_⟩
    simp only [Nat.reduceAdd, Nat.reducePow, UInt8.reduceToNat, Nat.pow_zero, Nat.div_one]
      at value low high
    unfold Nat.isValidChar
    omega

/-- The lead byte and the last sextets are the bytes of a character it announces. -/
theorem Pending.encodeChar_of_lead (h : Pending.ofLead? position b = some p)
    (admits : p.Admits c.toNat) :
    String.utf8EncodeChar c = b :: sextets p.owed c.toNat := by
  obtain ⟨value, low, high⟩ := admits
  have := b.toNat_lt
  have lead {n : Nat} (h : n = b.toNat) : UInt8.ofNat n = b := by rw [h, UInt8.ofNat_toNat]
  unfold Pending.ofLead? at h
  dsimp only at h
  repeat' split at h
  all_goals cases h
  all_goals
    simp only [Nat.reduceAdd, Nat.reducePow, UInt8.reduceToNat, Nat.pow_zero, Nat.div_one]
      at value low high
    first
    | rw [encodeChar_two (by omega) (by omega), lead (by omega)]
    | rw [encodeChar_three (by omega) (by omega), lead (by omega)]
    | rw [encodeChar_four (by omega), lead (by omega)]

/-- The lead byte of a number of more than seven bits. -/
def leadNumber (n : Nat) : Nat :=
  if n < 0x800 then 0xC0 + n / 64
  else if n < 0x10000 then 0xE0 + n / 4096
  else 0xF0 + n / 262144

theorem toNat_ofNat_leadNumber (h : n < 0x110000) :
    (UInt8.ofNat (leadNumber n)).toNat = leadNumber n := by
  apply UInt8.toNat_ofNat_of_lt'
  have : UInt8.size = 256 := rfl
  unfold leadNumber
  repeat' split
  all_goals omega

/-- Every character of more than one byte is announced by a lead byte. -/
theorem Pending.exists_lead (position : Nat) (h : 0x80 ≤ c.toNat) :
    ∃ b p, Pending.ofLead? position b = some p ∧ p.Admits c.toNat := by
  have valid := isValidChar_toNat c
  refine ⟨UInt8.ofNat (leadNumber c.toNat), ?_⟩
  unfold Pending.ofLead?
  rw [toNat_ofNat_leadNumber (toNat_lt c)]
  unfold Nat.isValidChar at valid
  unfold leadNumber
  dsimp only
  repeat' split
  -- a lead byte out of range belongs to no character
  all_goals first
    | exfalso; omega
    | refine ⟨_, rfl, ?_, ?_, ?_⟩
  all_goals
    simp only [Nat.reduceAdd, Nat.reducePow, UInt8.reduceToNat, Nat.pow_zero, Nat.div_one]
    omega

/-! ### Continuation bytes -/

/-- A continuation byte adds a sextet to what is known of the character. -/
theorem Pending.Good.admits_iff (good : p.Good) (low : p.low ≤ b) (high : b ≤ p.high) :
    (p.Admits n ∧ b = UInt8.ofNat (0x80 + n / 64 ^ p.owed % 64)) ↔
      n / 64 ^ p.owed = p.value * 64 + (b.toNat - 0x80) := by
  have := good.low
  have := good.high
  rw [UInt8.le_iff_toNat_le] at low high
  have split : n / 64 ^ (p.owed + 1) = n / 64 ^ p.owed / 64 := by
    rw [Nat.pow_succ, Nat.div_div_eq_div_mul]
  constructor
  · rintro ⟨⟨value, -, -⟩, rfl⟩
    have below : 0x80 + n / 64 ^ p.owed % 64 < UInt8.size := by
      have : UInt8.size = 256 := rfl
      omega
    rw [UInt8.toNat_ofNat_of_lt' below]
    omega
  · intro h
    have sextet : 0x80 + n / 64 ^ p.owed % 64 = b.toNat := by omega
    exact ⟨⟨by omega, by omega, by omega⟩, by rw [sextet, UInt8.ofNat_toNat]⟩

/-- Between two continuation bytes. -/
theorem Pending.Good.next {owed : Nat} (good : p.Good) (low : p.low ≤ b) (high : b ≤ p.high)
    (more : p.owed = owed + 1) :
    Pending.Good
      ⟨p.start, p.size + 1, owed, 0x80, 0xBF, p.value * 64 + (b.toNat - 0x80)⟩ := by
  refine ⟨by simp, by simp, fun n ⟨value, _, _⟩ => good.char n ?_⟩
  rw [← more] at value
  exact ((good.admits_iff low high).mpr value).1

/-! ## Reading -/

/-- The bytes of a text that a reader in this state takes. -/
def Rest : Option Pending → List Char → List UInt8 → Prop
  | none, text, bytes => bytes = encode text
  | some p, text, bytes =>
    ∃ c rest, text = c :: rest ∧ p.Admits c.toNat ∧ bytes = sextets p.owed c.toNat ++ encode rest

@[simp] theorem encode_nil : encode [] = [] := rfl

theorem encode_cons : encode (c :: text) = String.utf8EncodeChar c ++ encode text := by
  simp [encode]

theorem nil_eq_encode_iff : [] = encode text ↔ text = [] := by
  cases text with
  | nil => simp
  | cons c text => simp [encode_cons, String.utf8EncodeChar_ne_nil]

theorem sextets_ne_nil (count n : Nat) : sextets count n ≠ [] := by
  cases count <;> simp [sextets]

theorem encode_ascii (small : b.toNat < 0x80) :
    String.utf8EncodeChar (Char.ofNat b.toNat) = [b] := by
  have toNat : (Char.ofNat b.toNat).toNat = b.toNat :=
    toNat_ofNat_valid (.inl (Nat.lt_trans small (by decide)))
  rw [encodeChar_one (by rw [toNat]; exact small), toNat, UInt8.ofNat_toNat]

/-- The first byte of a text is a character, or the lead byte of one. -/
theorem cons_eq_encode_iff (position : Nat) :
    b :: bytes = encode text ↔
      (b.toNat < 0x80 ∧ ∃ rest, bytes = encode rest ∧ Char.ofNat b.toNat :: rest = text) ∨
        ∃ p, Pending.ofLead? position b = some p ∧ Rest (some p) text bytes := by
  constructor
  · intro whole
    cases text with
    | nil => simp at whole
    | cons c rest =>
      rw [encode_cons] at whole
      rcases Nat.lt_or_ge c.toNat 0x80 with one | more
      · rw [encodeChar_one one] at whole
        obtain ⟨rfl, rfl⟩ := List.cons.inj whole
        rw [UInt8.toNat_ofNat_of_lt' (Nat.lt_trans one (by decide)), Char.ofNat_toNat]
        exact .inl ⟨one, rest, rfl, rfl⟩
      · obtain ⟨lead, p, announced, admits⟩ := Pending.exists_lead position more
        rw [Pending.encodeChar_of_lead announced admits] at whole
        obtain ⟨rfl, rfl⟩ := List.cons.inj whole
        exact .inr ⟨p, announced, c, rest, rfl, admits, rfl⟩
  · rintro (⟨small, rest, rfl, rfl⟩ | ⟨p, announced, c, rest, rfl, admits, rfl⟩)
    · rw [encode_cons, encode_ascii small, List.singleton_append]
    · rw [encode_cons, Pending.encodeChar_of_lead announced admits, List.cons_append]

theorem rest_cons_iff :
    Rest (some p) text (b :: bytes) ↔
      ∃ c rest, text = c :: rest ∧
        (p.Admits c.toNat ∧ b = UInt8.ofNat (0x80 + c.toNat / 64 ^ p.owed % 64)) ∧
        bytes = (match p.owed with
          | 0 => []
          | owed + 1 => sextets owed c.toNat) ++ encode rest := by
  have (n : Nat) : sextets p.owed n = UInt8.ofNat (0x80 + n / 64 ^ p.owed % 64) ::
      match p.owed with | 0 => [] | owed + 1 => sextets owed n := by
    cases p.owed with
    | zero => rw [sextets, Nat.pow_zero, Nat.div_one]
    | succ owed => rfl
  simp only [Rest, this, List.cons_append, List.cons.injEq, and_assoc]

/-- A byte out of bounds does not go on with the character. -/
theorem not_rest_cons (out : b < p.low ∨ p.high < b) : ¬ Rest (some p) text (b :: bytes) := by
  rw [rest_cons_iff]
  rintro ⟨c, rest, -, ⟨⟨-, low, high⟩, rfl⟩, -⟩
  have : UInt8.size = 256 := rfl
  rw [UInt8.lt_iff_toNat_lt, UInt8.lt_iff_toNat_lt, UInt8.toNat_ofNat_of_lt' (by omega)] at out
  omega

/-- The last byte of a character. -/
theorem rest_cons_last (good : p.Good) (low : p.low ≤ b) (high : b ≤ p.high) (last : p.owed = 0) :
    Rest (some p) text (b :: bytes) ↔
      ∃ rest, bytes = encode rest ∧
        Char.ofNat (p.value * 64 + (b.toNat - 0x80)) :: rest = text := by
  have value_iff (n : Nat) :
      (p.Admits n ∧ b = UInt8.ofNat (0x80 + n / 64 ^ p.owed % 64)) ↔
        n = p.value * 64 + (b.toNat - 0x80) := by
    rw [good.admits_iff low high, last, Nat.pow_zero, Nat.div_one]
  have valid := good.char _ ((value_iff _).mpr rfl).1
  simp only [rest_cons_iff, value_iff]
  simp only [last, List.nil_append]
  constructor
  · rintro ⟨c, rest, rfl, value, rfl⟩
    exact ⟨rest, rfl, by rw [← value, Char.ofNat_toNat]⟩
  · rintro ⟨rest, rfl, rfl⟩
    exact ⟨_, rest, rfl, toNat_ofNat_valid valid, rfl⟩

/-- A byte inside a character. -/
theorem rest_cons_more {owed : Nat} (good : p.Good) (low : p.low ≤ b) (high : b ≤ p.high)
    (more : p.owed = owed + 1) :
    Rest (some p) text (b :: bytes) ↔
      Rest (some ⟨p.start, p.size + 1, owed, 0x80, 0xBF, p.value * 64 + (b.toNat - 0x80)⟩)
        text bytes := by
  simp only [rest_cons_iff, good.admits_iff low high]
  have admits_iff (n : Nat) :
      n / 64 ^ (owed + 1) = p.value * 64 + (b.toNat - 0x80) ↔
        Pending.Admits
          ⟨p.start, p.size + 1, owed, 0x80, 0xBF, p.value * 64 + (b.toNat - 0x80)⟩ n :=
    ⟨fun value => ⟨value, by simp, by simp; omega⟩, fun admits => admits.value⟩
  simp only [more, admits_iff, Rest]

theorem scan_eq_ok_iff {state : Option Pending} (good : ∀ p ∈ state, p.Good) :
    scan position state bytes = .ok text ↔ Rest state text bytes := by
  induction bytes generalizing position state text with
  | nil =>
    cases state with
    | none => simp only [scan, Rest, nil_eq_encode_iff, Except.ok.injEq, eq_comm]
    | some p => simp [scan, Rest, sextets_ne_nil]
  | cons b bytes ih =>
    cases state with
    | none =>
      rw [scan, Rest, cons_eq_encode_iff position]
      have text_iff (position : Nat) (text : List Char) :
          scan position none bytes = .ok text ↔ bytes = encode text := ih (by simp)
      split
      next small =>
        have small : b.toNat < 0x80 := UInt8.lt_iff_toNat_lt.mp small
        have no_lead : ¬ ∃ p, Pending.ofLead? position b = some p ∧ Rest (some p) text bytes := by
          rintro ⟨p, announced, -⟩
          have := Pending.le_lead announced
          omega
        simp only [map_eq_ok, text_iff, small, no_lead, true_and, or_false]
      next large =>
        have large : ¬ b.toNat < 0x80 := large
        split
        next unknown => simp [large, unknown]
        next p announced =>
          have good : ∀ q ∈ some p, q.Good := by
            rintro q ⟨⟩
            exact Pending.good_of_lead announced
          simp [large, announced, ih good]
    | some p =>
      have good : p.Good := good p rfl
      rw [scan]
      split
      next out =>
        have out : b < p.low ∨ p.high < b := by simpa using out
        simp [not_rest_cons out]
      next inside =>
        have ⟨low, high⟩ : p.low ≤ b ∧ b ≤ p.high := by simpa using inside
        split
        next last =>
          rw [map_eq_ok, rest_cons_last good low high last]
          exact exists_congr fun rest => and_congr_left fun _ => ih (by simp)
        next owed more =>
          rw [rest_cons_more good low high more]
          apply ih
          rintro q ⟨⟩
          exact good.next low high more

/-- Bytes are read as a text exactly when they are the bytes of that text. -/
theorem decode_eq_ok_iff : decode bytes = .ok text ↔ bytes = encode text :=
  scan_eq_ok_iff (by simp)

theorem decode_encode (text : List Char) : decode (encode text) = .ok text :=
  decode_eq_ok_iff.mpr rfl

theorem decode_ofString (text : String) : decode (ofString text) = .ok text.toList :=
  decode_encode text.toList

theorem encode_append (a b : List Char) : encode (a ++ b) = encode a ++ encode b := by
  simp [encode]

theorem decodeString_eq_ok_iff {string : String} :
    decodeString bytes = .ok string ↔ bytes = ofString string := by
  rw [ofString, ← decode_eq_ok_iff, decodeString]
  cases decode bytes with
  | error flaw => simp [Except.map]
  | ok text => rw [Except.map, Except.ok.injEq, Except.ok.injEq, ← String.toList_inj,
      String.toList_ofList]

theorem ofString_append (a b : String) : ofString (a ++ b) = ofString a ++ ofString b := by
  simp [ofString, encode_append]

/-! ## Bytes below 128 -/

theorem le_of_mem_sextets {count : Nat} (h : b ∈ sextets count n) : 0x80 ≤ b.toNat := by
  have sextet (n : Nat) : 0x80 ≤ (UInt8.ofNat (0x80 + n % 64)).toNat := by
    have : UInt8.size = 256 := rfl
    rw [UInt8.toNat_ofNat_of_lt' (by omega)]
    omega
  induction count with
  | zero =>
    obtain rfl := List.mem_singleton.mp h
    exact sextet n
  | succ count ih =>
    rcases List.mem_cons.mp h with rfl | h
    · exact sextet _
    · exact ih h

/-- A byte below 128 stands for itself and nothing else. -/
theorem mem_encode_iff (small : b.toNat < 0x80) : b ∈ encode text ↔ Char.ofNat b.toNat ∈ text := by
  have mem_char (c : Char) : b ∈ String.utf8EncodeChar c ↔ Char.ofNat b.toNat = c := by
    constructor
    · intro h
      rcases Nat.lt_or_ge c.toNat 0x80 with one | more
      · rw [encodeChar_one one] at h
        obtain rfl := List.mem_singleton.mp h
        rw [UInt8.toNat_ofNat_of_lt' (Nat.lt_trans one (by decide)), Char.ofNat_toNat]
      · obtain ⟨lead, p, announced, admits⟩ := Pending.exists_lead 0 more
        rw [Pending.encodeChar_of_lead announced admits] at h
        rcases List.mem_cons.mp h with rfl | h
        · have := Pending.le_lead announced
          omega
        · have := le_of_mem_sextets h
          omega
    · rintro rfl
      simp [encode_ascii small]
  simp [encode, List.mem_flatMap, mem_char]

end CommitLog.Utf8
