import CommitLog.Object.Id

/-!
# Written numbers

What is written as a number is read as that number, as long as the reader's bounds allow it.

    number? (toString n).toList = some n
    unhex? (hex bytes) = some bytes
    ObjectId.parse id.text = .ok id
-/

namespace CommitLog

namespace Text

variable {text : List Char} {c : Char} {n : Nat} {bytes : List UInt8}

/-! ## Decimal digits -/

theorem digit?_of_isDigit (h : c.isDigit) : digit? c = some (c.toNat - '0'.toNat) := by
  refine if_pos ?_
  rw [Char.isDigit_iff_toNat] at h
  exact ⟨UInt32.le_iff_toNat_le.mpr h.1, UInt32.le_iff_toNat_le.mpr h.2⟩

theorem foldlM_digit? (digits : ∀ c ∈ text, c.isDigit) (n : Nat) :
    text.foldlM (fun n c => (digit? c).map (n * 10 + ·)) n =
      some (Nat.ofDigitChars 10 text n) := by
  induction text generalizing n with
  | nil => rfl
  | cons c rest ih =>
    rw [List.foldlM_cons, digit?_of_isDigit (digits c List.mem_cons_self), Nat.ofDigitChars_cons,
      Nat.mul_comm]
    exact ih (fun d mem => digits d (List.mem_cons_of_mem _ mem)) _

theorem number?_of_isDigit (ne : text ≠ []) (digits : ∀ c ∈ text, c.isDigit) :
    number? text = some (Nat.ofDigitChars 10 text 0) := by
  rw [number?, if_neg (by simp [ne]), foldlM_digit? digits]

theorem isDigit_of_mem_toString (h : c ∈ (toString n).toList) : c.isDigit := by
  rw [Nat.toString_eq_repr, Nat.toList_repr] at h
  exact Nat.isDigit_of_mem_toDigits (by decide) (by decide) h

theorem toString_ne_nil (n : Nat) : (toString n).toList ≠ [] := by
  rw [Nat.toString_eq_repr, Nat.toList_repr]
  exact Nat.toDigits_ne_nil

theorem number?_toString (n : Nat) : number? (toString n).toList = some n := by
  rw [number?_of_isDigit (toString_ne_nil n) fun c => isDigit_of_mem_toString,
    Nat.toString_eq_repr, Nat.toList_repr, Nat.ofDigitChars_ten_toDigits]

/-- A number is read back unless it does not fit 64 bits. -/
theorem unsigned?_toString (n : Nat) :
    unsigned? (toString n).toList = if n < 2 * bound63 then some n else none := by
  have noSign (rest : List Char) : (toString n).toList ≠ '+' :: rest := fun starts =>
    absurd (isDigit_of_mem_toString (n := n) (starts ▸ List.mem_cons_self)) (by decide)
  unfold unsigned?
  split
  next rest starts => exact absurd starts (noSign rest)
  next =>
    dsimp only
    rw [number?_toString, Option.filter_some]
    simp only [decide_eq_true_eq]

/-! ### With a sign -/

theorem toString_ofNat (n : Nat) : toString (n : Int) = toString n := by
  rw [Int.toString_eq_repr, Int.repr_eq_if, if_pos (by omega)]
  rfl

theorem toString_neg (h : 0 < n) : toString (-(n : Int)) = "-" ++ toString n := by
  rw [Int.toString_eq_repr, Int.repr_eq_if, if_neg (by omega), Int.neg_neg]
  rfl

theorem signed?_of_isDigit (h : n < bound63) : signed? (toString n).toList = some (n : Int) := by
  unfold signed?
  split
  next rest starts =>
    have : ('-').isDigit := isDigit_of_mem_toString (n := n) (starts ▸ List.mem_cons_self)
    cases this
  next rest starts =>
    have : ('+').isDigit := isDigit_of_mem_toString (n := n) (starts ▸ List.mem_cons_self)
    cases this
  next => rw [number?_toString, Option.bind_some, if_pos h]

theorem signed?_toString {i : Int} (low : -(bound63 : Int) ≤ i) (high : i < bound63) :
    signed? (toString i).toList = some i := by
  obtain ⟨n, rfl⟩ | ⟨n, pos, rfl⟩ : (∃ n : Nat, i = n) ∨ ∃ n : Nat, 0 < n ∧ i = -n := by
    rcases Int.lt_or_le i 0 with neg | nonneg
    · exact .inr ⟨i.natAbs, by omega, by omega⟩
    · exact .inl ⟨i.natAbs, by omega⟩
  · rw [toString_ofNat, signed?_of_isDigit (by omega)]
  · rw [toString_neg pos, String.toList_append]
    have : "-".toList = ['-'] := rfl
    rw [this, List.singleton_append, signed?, number?_toString, Option.bind_some,
      if_pos (by omega)]

theorem isDigit_of_mem_toString_int {i : Int} (h : c ∈ (toString i).toList) :
    c = '-' ∨ c.isDigit := by
  rw [Int.toString_eq_repr, Int.repr_eq_if] at h
  split at h
  · exact .inr (isDigit_of_mem_toString h)
  · rw [String.toList_append] at h
    rcases List.mem_append.mp h with h | h
    · exact .inl (List.mem_singleton.mp h)
    · exact .inr (isDigit_of_mem_toString h)

/-! ## Hexadecimal digits -/

theorem hexDigit?_hexChar (h : n < 16) : hexDigit? (hexChar n) = some n := by
  have all : ∀ m : Fin 16, hexDigit? (hexChar m) = some m.1 := by decide
  exact all ⟨n, h⟩

/-- A hexadecimal digit is one of the sixteen when its case does not count. -/
theorem hexDigit?_eq_some_iff : hexDigit? c = some n ↔ n < 16 ∧ c.toLower = hexChar n := by
  have low : ∀ k : Fin 128, (hexDigit? (Char.ofNat k)).all (· < 16) ∧ ∀ m : Fin 16,
      hexDigit? (Char.ofNat k) = some m.1 ↔ (Char.ofNat k).toLower = hexChar m := by
    decide +kernel
  by_cases ascii : c.toNat < 128
  · have own := low ⟨c.toNat, ascii⟩
    rw [Char.ofNat_toNat] at own
    constructor
    · intro h
      have small : n < 16 := by simpa [h] using own.1
      exact ⟨small, (own.2 ⟨n, small⟩).1 h⟩
    · rintro ⟨small, h⟩
      exact (own.2 ⟨n, small⟩).2 h
  · have above {d : Char} (h : d.toNat < 128) : ¬ c ≤ d := by
      intro le
      have : c.toNat ≤ d.toNat := le
      omega
    have lower : c.toLower = c := by
      unfold Char.toLower
      exact dif_neg fun h => above (d := 'Z') (by decide) h.2
    have digits : ∀ m : Fin 16, (hexChar m).toNat < 128 := by decide
    constructor
    · intro h
      unfold hexDigit? at h
      rw [if_neg fun h => above (by decide) h.2, if_neg fun h => above (by decide) h.2,
        if_neg fun h => above (by decide) h.2] at h
      cases h
    · rintro ⟨small, h⟩
      have := digits ⟨n, small⟩
      rw [lower] at h
      exact absurd (h ▸ this) ascii

theorem unhex?_hex (bytes : List UInt8) : unhex? (hex bytes) = some bytes := by
  induction bytes with
  | nil => rfl
  | cons b bytes ih =>
    have := b.toNat_lt
    have whole : b.toNat / 16 * 16 + b.toNat % 16 = b.toNat := by omega
    change unhex? (hexChar (b.toNat / 16) :: hexChar (b.toNat % 16) :: hex bytes) = _
    rw [unhex?, hexDigit?_hexChar (by omega), hexDigit?_hexChar (by omega), ih]
    change some (UInt8.ofNat (b.toNat / 16 * 16 + b.toNat % 16) :: bytes) = _
    rw [whole, UInt8.ofNat_toNat]

/-- The sixteen digits are those that numbers are written with. -/
theorem mem_hexDigits : c ∈ "0123456789abcdef".toList ↔ ∃ n < 16, c = hexChar n := by
  have digits : "0123456789abcdef".toList = (List.range 16).map hexChar := by decide
  simp only [digits, List.mem_map, List.mem_range, eq_comm]

theorem isSome_hexDigit?_iff :
    (hexDigit? c).isSome = true ↔ c.toLower ∈ "0123456789abcdef".toList := by
  simp only [Option.isSome_iff_exists, hexDigit?_eq_some_iff, mem_hexDigits]

theorem length_hex (bytes : List UInt8) : (hex bytes).length = 2 * bytes.length := by
  induction bytes with
  | nil => rfl
  | cons b bytes ih =>
    change (hexChar (b.toNat / 16) :: hexChar (b.toNat % 16) :: hex bytes).length = _
    rw [List.length_cons, List.length_cons, ih, List.length_cons, Nat.mul_succ]

theorem mem_hex (h : c ∈ hex bytes) : ∃ n < 16, c = hexChar n := by
  obtain ⟨b, -, mem⟩ := List.mem_flatMap.mp h
  have := b.toNat_lt
  simp only [List.mem_cons, List.not_mem_nil, or_false] at mem
  rcases mem with rfl | rfl
  · exact ⟨_, by omega, rfl⟩
  · exact ⟨_, by omega, rfl⟩

/-- The digits of bytes are one byte each. -/
theorem utf8ByteSize_hex (h : ∀ c ∈ text, ∃ n < 16, c = hexChar n) :
    (String.ofList text).utf8ByteSize = text.length := by
  have size : ∀ n : Fin 16, (hexChar n).utf8Size = 1 := by decide
  induction text with
  | nil => rfl
  | cons c rest ih =>
    obtain ⟨n, small, rfl⟩ := h c List.mem_cons_self
    have head : String.ofList (hexChar n :: rest) =
        String.singleton (hexChar n) ++ String.ofList rest := by
      simp
    rw [head, String.utf8ByteSize_append, String.utf8ByteSize_singleton, size ⟨n, small⟩,
      ih fun c mem => h c (List.mem_cons_of_mem _ mem), List.length_cons, Nat.add_comm]

end Text

namespace ObjectId

variable {a b id : ObjectId}

theorem length_digits (id : ObjectId) : id.digits.length = 40 := by
  rw [digits, Text.length_hex, id.length_bytes]

theorem ofBytes?_eq_some_iff {bytes : List UInt8} :
    ofBytes? bytes = some id ↔ bytes = id.bytes := by
  unfold ofBytes?
  constructor
  · intro h
    split at h
    next => cases h; rfl
    next => cases h
  · rintro rfl
    exact dif_pos id.length_bytes

theorem unhex?_digits (id : ObjectId) : Text.unhex? id.digits = some id.bytes :=
  Text.unhex?_hex id.bytes

theorem parse_text (id : ObjectId) : parse id.text = .ok id := by
  have size : id.text.utf8ByteSize = 40 := by
    rw [text, digits, Text.utf8ByteSize_hex fun c => Text.mem_hex]
    exact id.length_digits
  have read : (Text.unhex? id.text.toList).bind ofBytes? = some id := by
    rw [text, String.toList_ofList, unhex?_digits, Option.bind_some, ofBytes?_eq_some_iff]
  rw [parse, if_neg (by rw [size]; decide), read]

theorem digits_inj : a.digits = b.digits ↔ a = b := by
  refine ⟨fun same => ?_, congrArg digits⟩
  have bytes : some a.bytes = some b.bytes := by rw [← unhex?_digits, ← unhex?_digits, same]
  cases a
  cases b
  cases bytes
  rfl

end ObjectId

end CommitLog
