import CommitLog.Object.Framing
import CommitLog.Proofs.Steps
import CommitLog.Proofs.Text.Number
import CommitLog.Proofs.Text.Utf8

/-!
# The header of an object

Bytes are cut at the first occurrence of a separator, and the header of a serialized object is read
back with its body left over, as long as a size of 64 bits can hold the length.  A header that is
cut off is not read (`parseHeader_of_prefix`).

    parseHeader object.serialize = .ok (object.kind, object.body.length, object.body)
-/

namespace CommitLog

variable {separator : UInt8} {bytes before after : List UInt8}

theorem splitAtByte_append (absent : separator ∉ before) :
    splitAtByte separator (before ++ separator :: after) = (before, true, after) := by
  induction before with
  | nil => simp [splitAtByte]
  | cons b before ih =>
    obtain ⟨differ, absent⟩ := List.ne_and_not_mem_of_not_mem_cons absent
    rw [List.cons_append, splitAtByte, if_neg (Ne.symm differ), ih absent]

theorem of_splitAtByte (h : splitAtByte separator bytes = (before, true, after)) :
    bytes = before ++ separator :: after ∧ separator ∉ before := by
  induction bytes generalizing before with
  | nil => cases h
  | cons b rest ih =>
    unfold splitAtByte at h
    split at h
    next same =>
      cases h
      exact ⟨by rw [same, List.nil_append], List.not_mem_nil⟩
    next differ =>
      rcases cut : splitAtByte separator rest with ⟨front, found, back⟩
      rw [cut] at h ih
      cases h
      obtain ⟨rfl, absent⟩ := ih rfl
      exact ⟨rfl, List.not_mem_cons_of_ne_of_not_mem (Ne.symm differ) absent⟩

/-- Cutting at a separator undoes putting it between. -/
theorem splitAtByte_eq_iff : splitAtByte separator bytes = (before, true, after) ↔
    bytes = before ++ separator :: after ∧ separator ∉ before := by
  refine ⟨of_splitAtByte, ?_⟩
  rintro ⟨rfl, absent⟩
  exact splitAtByte_append absent

theorem splitAtByte_of_not_mem (absent : separator ∉ bytes) :
    splitAtByte separator bytes = (bytes, false, []) := by
  induction bytes with
  | nil => rfl
  | cons b rest ih =>
    obtain ⟨differ, absent⟩ := List.ne_and_not_mem_of_not_mem_cons absent
    rw [splitAtByte, if_neg (Ne.symm differ), ih absent]

theorem textOfBytes_eq_ok_iff {text : String} :
    textOfBytes bytes = .ok text ↔ bytes = Utf8.ofString text := by
  rw [textOfBytes, mapError_eq_ok, Utf8.decodeString_eq_ok_iff]

/-! ## The header -/

/-- Characters below 128 stay apart from the others. -/
theorem not_mem_ofString {text : String} (small : separator.toNat < 0x80)
    (absent : Char.ofNat separator.toNat ∉ text.toList) : separator ∉ Utf8.ofString text :=
  mt (Utf8.mem_encode_iff small).mp absent

theorem ObjectKind.parse_name (kind : ObjectKind) : ObjectKind.parse kind.name = .ok kind := by
  cases kind <;> rfl

theorem not_mem_name (kind : ObjectKind) : (0x20 : UInt8) ∉ Utf8.ofString kind.name := by
  cases kind <;> decide

theorem not_mem_digits (size : Nat) : (0 : UInt8) ∉ Utf8.ofString (toString size) := by
  apply not_mem_ofString (by decide)
  intro mem
  cases Text.isDigit_of_mem_toString mem

theorem ofString_header (kind : ObjectKind) (size : Nat) : Utf8.ofString (kind.header size) =
    Utf8.ofString kind.name ++ 0x20 :: (Utf8.ofString (toString size) ++ [0]) := by
  rw [ObjectKind.header, Utf8.ofString_append, Utf8.ofString_append, Utf8.ofString_append]
  simp only [List.append_assoc]
  rfl

/-- Behind the name of a kind and a space, a header is read on as a length. -/
theorem parseHeader_name (kind : ObjectKind) (rest : List UInt8) :
    parseHeader (Utf8.ofString kind.name ++ 0x20 :: rest) = (do
      let (sizeBytes, ended, body) := splitAtByte 0 rest
      if !ended then throw .headerEnd
      let sizeText ← textOfBytes sizeBytes
      let some size := Text.unsigned? sizeText.toList | throw .headerSize
      return (kind, size, body)) := by
  have kindText : textOfBytes (Utf8.ofString kind.name ++ [0x20]) = .ok (kind.name ++ " ") := by
    rw [textOfBytes_eq_ok_iff, Utf8.ofString_append]
    rfl
  have trimmed : Text.trimmed (kind.name ++ " ") = kind.name := by cases kind <;> decide
  rw [parseHeader, splitAtByte_append (not_mem_name kind)]
  dsimp only
  rw [if_pos rfl, kindText]
  show (ObjectKind.parse (Text.trimmed (kind.name ++ " ")) >>= _) = _
  rw [trimmed, ObjectKind.parse_name]
  rfl

/-- The length of a whole header is read unless it does not fit 64 bits. -/
theorem parseHeader_append (kind : ObjectKind) (size : Nat) (body : List UInt8) :
    parseHeader (Utf8.ofString (kind.header size) ++ body) =
      if size < 2 * Text.bound63 then .ok (kind, size, body) else .error .headerSize := by
  have sizeText : textOfBytes (Utf8.ofString (toString size)) = .ok (toString size) :=
    textOfBytes_eq_ok_iff.mpr rfl
  rw [ofString_header, List.append_assoc, List.cons_append, List.append_assoc,
    List.singleton_append, parseHeader_name, splitAtByte_append (not_mem_digits size)]
  dsimp only [bind, Except.bind]
  rw [sizeText, if_neg (by decide)]
  dsimp only
  rw [Text.unsigned?_toString]
  by_cases fits : size < 2 * Text.bound63
  · rw [if_pos fits, if_pos fits]
    rfl
  · rw [if_neg fits, if_neg fits]
    rfl

/-- A header that breaks off in its length has no end. -/
theorem parseHeader_unended (kind : ObjectKind) {digits : List UInt8} (absent : 0 ∉ digits) :
    parseHeader (Utf8.ofString kind.name ++ 0x20 :: digits) = .error .headerEnd := by
  rw [parseHeader_name, splitAtByte_of_not_mem absent]
  rfl

/-- What is left of a name that is cut off is a text. -/
theorem exists_ofString_of_prefix_name {kind : ObjectKind}
    (front : bytes <+: Utf8.ofString kind.name) :
    ∃ text, bytes = Utf8.ofString text := by
  have cut : ∀ n : Fin 7, (Utf8.ofString kind.name).take n =
      Utf8.ofString (String.ofList (kind.name.toList.take n)) := by
    cases kind <;> decide
  have short : (Utf8.ofString kind.name).length < 7 := by cases kind <;> decide
  have length := front.length_le
  rw [List.prefix_iff_eq_take] at front
  rw [front]
  exact ⟨_, cut ⟨bytes.length, by omega⟩⟩

/-- The faults of a header that cannot be read. -/
inductive Fault.OfHeader : Fault → Prop
  | kind (name : String) : OfHeader (.objectKind name)
  | ending : OfHeader .headerEnd
  | size : OfHeader .headerSize

/-- A header that breaks off in the name of its kind names no kind, or has no end. -/
theorem parseHeader_of_prefix_name {kind : ObjectKind}
    (front : bytes <+: Utf8.ofString kind.name) :
    ∃ fault, parseHeader bytes = .error fault ∧ fault.OfHeader := by
  have noSpace : 0x20 ∉ bytes := fun mem => not_mem_name kind (front.subset mem)
  obtain ⟨text, rfl⟩ := exists_ofString_of_prefix_name front
  have decoded : textOfBytes (Utf8.ofString text) = .ok text := textOfBytes_eq_ok_iff.mpr rfl
  rw [parseHeader, splitAtByte_of_not_mem noSpace]
  dsimp only
  rw [if_neg Bool.false_ne_true, decoded]
  show ∃ fault, (ObjectKind.parse (Text.trimmed text) >>= _) = .error fault ∧ _
  unfold ObjectKind.parse
  split
  · exact ⟨.headerEnd, rfl, .ending⟩
  · exact ⟨.objectKind _, rfl, .kind _⟩

/-- A header that is cut off anywhere cannot be read. -/
theorem parseHeader_of_prefix {kind : ObjectKind} {size : Nat}
    (front : bytes <+: Utf8.ofString (kind.header size))
    (cut : bytes ≠ Utf8.ofString (kind.header size)) :
    ∃ fault, parseHeader bytes = .error fault ∧ fault.OfHeader := by
  rw [ofString_header] at front cut
  rcases List.prefix_or_prefix_of_prefix front (List.prefix_append _ _) with inName | ⟨rest, rfl⟩
  · exact parseHeader_of_prefix_name inName
  · rw [List.prefix_append_right_inj] at front
    cases rest with
    | nil =>
      rw [List.append_nil]
      exact parseHeader_of_prefix_name List.prefix_rfl
    | cons b digits =>
      rw [List.cons_prefix_cons, List.prefix_concat_iff] at front
      obtain ⟨rfl, rfl | inDigits⟩ := front
      · exact absurd rfl cut
      · have absent : 0 ∉ digits := fun mem => not_mem_digits size (inDigits.subset mem)
        exact ⟨.headerEnd, parseHeader_unended kind absent, .ending⟩

/-- A serialized object is read back, unless its length does not fit 64 bits. -/
theorem parseHeader_serialize {object : RawObject} (fits : object.body.length < 2 * Text.bound63) :
    parseHeader object.serialize = .ok (object.kind, object.body.length, object.body) := by
  rw [RawObject.serialize, parseHeader_append, if_pos fits]

end CommitLog
