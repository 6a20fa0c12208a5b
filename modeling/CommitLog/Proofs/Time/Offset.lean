import CommitLog.Proofs.Text.Number
import CommitLog.Time.Reading
import Mathlib.Data.Option.Basic

/-!
# Time zones

An offset of whole minutes that is shorter than a day is read from its text, and no other offset is
ever read.

    Offset o → offset? (offsetText o).toList = some o
    offset? text = some o → Offset o
-/

namespace CommitLog

namespace Text

variable {n : Nat}

theorem digit?_digitChar (h : n < 10) : digit? n.digitChar = some n := by
  have all : ∀ m : Fin 10, digit? (Nat.digitChar m) = some m.1 := by decide
  exact all ⟨n, h⟩

theorem toList_padded_two (h : n < 100) :
    (padded 2 n).toList = [(n / 10).digitChar, (n % 10).digitChar] := by
  rw [padded, Nat.toString_eq_repr, Nat.toList_repr]
  rcases Nat.lt_or_ge n 10 with one | two
  · rw [Nat.toDigits_of_lt_base one, Nat.div_eq_of_lt one, Nat.mod_eq_of_lt one]
    simp
  · rw [Nat.toDigits_of_base_le (by decide) two, Nat.toDigits_of_lt_base (by omega)]
    simp

end Text

namespace Time

open Text (isBlank)

variable {o : Int} {n : Nat} {text rest : List Char}

/-- The offsets that a time zone may have: whole minutes, shorter than a day. -/
structure Offset (o : Int) : Prop where
  minutes : 60 ∣ o
  short : o.natAbs < 86400

theorem takeDigits?_padded (h : n < 100) (rest : List Char) :
    takeDigits? 2 (some 2) ((Text.padded 2 n).toList ++ rest) = some (n, rest) := by
  have tens := Text.digit?_digitChar (n := n / 10) (by omega)
  have ones := Text.digit?_digitChar (n := n % 10) (by omega)
  have whole : n / 10 * 10 + n % 10 = n := by omega
  rw [Text.toList_padded_two h, takeDigits?]
  simp [tens, ones, whole]

/-- Digits are neither blank nor colons. -/
theorem dropWhile_padded (h : n < 100) (rest : List Char) :
    (((Text.padded 2 n).toList ++ rest).dropWhile fun c => c == ':' || isBlank c) =
      (Text.padded 2 n).toList ++ rest := by
  have all : ∀ m : Fin 10, ((Nat.digitChar m) == ':' || isBlank (Nat.digitChar m)) = false := by
    decide
  rw [Text.toList_padded_two h]
  exact List.dropWhile_cons_of_neg (by simp [all ⟨n / 10, by omega⟩])

theorem offset?_padded (sign : Char) (negative : Bool) {hours minutes : Nat}
    (signed : ∀ rest, takeSign? (sign :: rest) = some (negative, rest)) (visible : ¬ isBlank sign)
    (day : hours < 24) (hour : minutes < 60) :
    offset? (sign :: ((Text.padded 2 hours).toList ++ (Text.padded 2 minutes).toList)) =
      some (if negative then -(hours * 3600 + minutes * 60 : Int)
        else hours * 3600 + minutes * 60) := by
  have short : (if negative then -(hours * 3600 + minutes * 60 : Int)
      else hours * 3600 + minutes * 60).natAbs < 86400 := by split <;> omega
  have last := takeDigits?_padded (n := minutes) (by omega) []
  have between := dropWhile_padded (n := minutes) (by omega) []
  rw [List.append_nil] at last between
  rw [offset?, Text.trimStart, List.dropWhile_cons_of_neg visible]
  refine Option.bind_eq_some_iff.mpr ⟨(_, []), ?_,
    Option.bind_eq_some_iff.mpr ⟨(), if_pos ⟨rfl, short⟩, rfl⟩⟩
  refine Option.bind_eq_some_iff.mpr ⟨_, signed _, ?_⟩
  refine Option.bind_eq_some_iff.mpr ⟨_, takeDigits?_padded (by omega) _, ?_⟩
  refine Option.bind_eq_some_iff.mpr ⟨_, congrArg some between, ?_⟩
  refine Option.bind_eq_some_iff.mpr ⟨_, last, ?_⟩
  exact Option.bind_eq_some_iff.mpr ⟨(), if_pos hour, rfl⟩

theorem offset?_offsetText (h : Offset o) : offset? (offsetText o).toList = some o := by
  obtain ⟨⟨m, rfl⟩, short⟩ := h
  have minutes : ((60 * m).natAbs + 30) / 60 = m.natAbs := by omega
  have day : m.natAbs / 60 < 24 := by omega
  have hour : m.natAbs % 60 < 60 := by omega
  rw [offsetText, minutes, String.append_assoc, String.toList_append, String.toList_append]
  have hyphen : "-".toList = ['-'] := rfl
  have plus : "+".toList = ['+'] := rfl
  split
  next neg =>
    rw [hyphen, List.singleton_append,
      offset?_padded '-' true (fun _ => rfl) (by decide) day hour, if_pos rfl]
    congr 1
    omega
  next nonneg =>
    rw [plus, List.singleton_append,
      offset?_padded '+' false (fun _ => rfl) (by decide) day hour, if_neg (by decide)]
    congr 1
    omega

theorem dvd_of_takeOffset? {separator? : List Char → Option (List Char)}
    (h : takeOffset? separator? text = some (o, rest)) : 60 ∣ o := by
  simp only [takeOffset?, Option.bind_eq_bind, Option.bind_eq_some_iff, Option.pure_def,
    Option.some.injEq, Prod.exists, Prod.mk.injEq] at h
  obtain ⟨negative, _, -, hours, _, -, _, -, minutes, _, -, _, -, rfl, -⟩ := h
  split <;> omega

theorem Offset.of_offset? (h : offset? text = some o) : Offset o := by
  simp only [Time.offset?, Option.bind_eq_bind, Option.bind_eq_some_iff, Option.pure_def,
    Option.some.injEq, Prod.exists] at h
  obtain ⟨_, rest, taken, _, bounded, rfl⟩ := h
  exact ⟨dvd_of_takeOffset? taken, ((Option.guard_eq_some' _).mp bounded).2⟩

/-- Signs and digits. -/
theorem mem_offsetText {c : Char} (h : Offset o) (mem : c ∈ (offsetText o).toList) :
    c = '+' ∨ c = '-' ∨ c.isDigit := by
  have digit : ∀ m : Fin 10, (Nat.digitChar m).isDigit := by decide
  have pair {n : Nat} (small : n < 100) (mem : c ∈ (Text.padded 2 n).toList) : c.isDigit := by
    rw [Text.toList_padded_two small] at mem
    simp only [List.mem_cons, List.not_mem_nil, or_false] at mem
    rcases mem with rfl | rfl
    · exact digit ⟨n / 10, by omega⟩
    · exact digit ⟨n % 10, by omega⟩
  have := h.short
  rw [offsetText, String.toList_append, String.toList_append, List.append_assoc] at mem
  rcases List.mem_append.mp mem with mem | mem
  · split at mem
    · exact .inr (.inl (List.mem_singleton.mp mem))
    · exact .inl (List.mem_singleton.mp mem)
  · rcases List.mem_append.mp mem with mem | mem
    · exact .inr (.inr (pair (by omega) mem))
    · exact .inr (.inr (pair (by omega) mem))

end Time

end CommitLog
