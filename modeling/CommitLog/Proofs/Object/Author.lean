import CommitLog.Object.Author
import CommitLog.Proofs.Steps
import CommitLog.Proofs.Text.Parts
import CommitLog.Proofs.Time.Offset

/-!
# Lines of authors

An author that can be read from any line can be read from its own line, with nothing lost.  Which
authors these are is a condition on name, time and time zone; every address is kept.

    (∃ text, parse text = .ok author) ↔ Printable author
    Printable author ↔ parse author.display = .ok author
-/

namespace CommitLog.Author

variable {author : Author} {text : String} {c : Char}

/-- What a line of a header can hold: the name ends at the first angle bracket and has no blanks
around it, the calendar has the time, and the time zone is in whole minutes. -/
structure Printable (author : Author) : Prop where
  name : '<' ∉ author.name.toList
  trimmed : Text.trim author.name.toList = author.name.toList
  time : Time.inRange author.time
  offset : Time.Offset author.offset

/-! ## The parts of a line -/

theorem toList_display (author : Author) : author.display.toList =
    author.displayName.toList ++ ' ' ::
      ((toString author.time).toList ++ ' ' :: (Time.offsetText author.offset).toList) := by
  simp [display]

theorem toList_displayName (author : Author) : author.displayName.toList =
    author.name.toList ++ [' '] ++ '<' :: (author.email.toList ++ ['>']) := by
  simp [displayName]

theorem splitWords?_eq_some_iff {text identity time zone : List Char} :
    splitWords? text = some (identity, time, zone) ↔
      text = identity ++ ' ' :: (time ++ ' ' :: zone) ∧ ' ' ∉ time ∧ ' ' ∉ zone := by
  simp only [splitWords?, Option.bind_eq_bind, Option.bind_eq_some_iff, Prod.exists,
    Option.pure_def, Option.some.injEq, Prod.mk.injEq, Text.splitLast_eq_some_iff]
  constructor
  · rintro ⟨_, _, ⟨rfl, noZone⟩, _, _, ⟨rfl, noTime⟩, rfl, rfl, rfl⟩
    exact ⟨by simp, noTime, noZone⟩
  · rintro ⟨rfl, noTime, noZone⟩
    exact ⟨_, _, ⟨by simp, noZone⟩, _, _, ⟨rfl, noTime⟩, rfl, rfl, rfl⟩

theorem Printable.splitWords?_display (h : author.Printable) :
    splitWords? author.display.toList =
      some (author.displayName.toList, (toString author.time).toList,
        (Time.offsetText author.offset).toList) := by
  refine splitWords?_eq_some_iff.mpr ⟨toList_display author, fun mem => ?_, fun mem => ?_⟩
  · rcases Text.isDigit_of_mem_toString_int mem with h | h <;> cases h
  · rcases Time.mem_offsetText h.offset mem with h | h | h <;> cases h

/-- What a line must be for an author to be read from it. -/
theorem parse_eq_ok_iff : parse text = .ok author ↔
    ∃ identity time zone before after front back,
      splitWords? text.toList = some (identity, time, zone) ∧
      Text.signed? time = some author.time ∧ Time.offset? zone = some author.offset ∧
      Text.splitOnce '<' identity = some (before, after) ∧
      Text.splitLast '>' identity = some (front, back) ∧ before.length ≤ front.length ∧
      Time.inRange author.time ∧ author.name = String.ofList (Text.trim before) ∧
      author.email = String.ofList (after.take (front.length - before.length - 1)) := by
  constructor
  · intro h
    unfold parse at h
    split at h
    case h_2 => cases h
    next identity time zone words =>
    split at h
    case h_2 => cases h
    next seconds signed =>
    split at h
    case h_2 => cases h
    next offset zoned =>
    split at h
    case h_2 => cases h
    next before after opening =>
    split at h
    case h_2 => cases h
    next front back closing =>
    by_cases crossed : front.length < before.length
    · rw [if_pos crossed] at h
      cases h
    rw [if_neg crossed] at h
    split at h
    case isTrue => cases h
    next range =>
    cases h
    exact ⟨identity, time, zone, before, after, front, back, words, signed, zoned, opening, closing,
      Nat.le_of_not_lt crossed, by simpa using range, rfl, rfl⟩
  · rintro ⟨identity, time, zone, before, after, front, back, words, signed, zoned, opening,
      closing, ordered, range, name, email⟩
    unfold parse
    simp only [words, signed, zoned, opening, closing, range]
    rw [if_neg (Nat.not_lt_of_le ordered), if_neg (by decide), ← name, ← email]
    rfl

/-! ## Round trip -/

theorem Printable.parse_display (h : author.Printable) :
    parse author.display = .ok author := by
  rw [parse_eq_ok_iff]
  refine ⟨_, _, _, author.name.toList ++ [' '], author.email.toList ++ ['>'],
    author.name.toList ++ [' '] ++ '<' :: author.email.toList, [], h.splitWords?_display, ?_,
    Time.offset?_offsetText h.offset, ?_, ?_, by simp, h.time, ?_, ?_⟩
  · have range := h.time
    simp only [Time.inRange, Bool.and_eq_true, decide_eq_true_eq] at range
    unfold Time.earliest Time.latest at range
    apply Text.signed?_toString <;> (unfold Text.bound63; omega)
  · rw [Text.splitOnce_eq_some_iff]
    exact ⟨toList_displayName author, by simpa using h.name⟩
  · rw [Text.splitLast_eq_some_iff]
    exact ⟨by simp [toList_displayName], by simp⟩
  · rw [Text.trim_append_blank (by decide), h.trimmed, String.ofList_toList]
  · have between : (author.name.toList ++ [' '] ++ '<' :: author.email.toList).length -
        (author.name.toList ++ [' ']).length - 1 = author.email.toList.length := by
      rw [List.length_append, Nat.add_sub_cancel_left]
      rfl
    rw [between, List.take_left, String.ofList_toList]

theorem Printable.of_parse (h : parse text = .ok author) : author.Printable := by
  obtain ⟨identity, time, zone, before, after, front, back, -, -, zoned, opening, -, -, range, name,
    -⟩ := parse_eq_ok_iff.mp h
  have name : author.name.toList = Text.trim before := by rw [name, String.toList_ofList]
  refine ⟨?_, ?_, range, .of_offset? zoned⟩
  · rw [name]
    exact fun mem => (Text.splitOnce_eq_some_iff.mp opening).2 (Text.mem_of_mem_trim mem)
  · rw [name, Text.trim_trim]

/-- `Printable`, spelled out. -/
theorem printable_iff : author.Printable ↔ '<' ∉ author.name.toList ∧
    (∀ c ∈ author.name.toList.head?, Text.isBlank c = false) ∧
    (∀ c ∈ author.name.toList.getLast?, Text.isBlank c = false) ∧
    Time.inRange author.time ∧ 60 ∣ author.offset ∧ author.offset.natAbs < 86400 := by
  constructor
  · rintro ⟨name, trimmed, time, minutes, short⟩
    obtain ⟨first, last⟩ := Text.trim_eq_self_iff.mp trimmed
    exact ⟨name, first, last, time, minutes, short⟩
  · rintro ⟨name, first, last, time, minutes, short⟩
    exact ⟨name, Text.trim_eq_self_iff.mpr ⟨first, last⟩, time, minutes, short⟩

/-- **Authors survive their own lines.**  An author is read from its line just as it is if its name
holds no opening angle bracket and has no blanks at its ends, its time is in the calendar and its
time zone is in whole minutes and shorter than a day.  The address can be any text.  No other author
is read from any line, so that reading, writing and reading again change nothing. -/
theorem parse_display_iff (author : Author) :
    (parse author.display = .ok author ↔
      '<' ∉ author.name.toList ∧
        (∀ c ∈ author.name.toList.head?, Text.isBlank c = false) ∧
        (∀ c ∈ author.name.toList.getLast?, Text.isBlank c = false) ∧
        Time.inRange author.time ∧ 60 ∣ author.offset ∧ author.offset.natAbs < 86400) ∧
    ((∃ text, parse text = .ok author) ↔ parse author.display = .ok author) := by
  rw [← printable_iff]
  constructor
  · exact ⟨.of_parse, Printable.parse_display⟩
  · constructor
    · rintro ⟨text, h⟩
      exact (Printable.of_parse h).parse_display
    · intro h
      exact ⟨author.display, h⟩

/-- Without a name, and with an address that holds whatever separates the parts of a line. -/
example : (⟨"", " <a> b", -1, -5400⟩ : Author).display = " < <a> b> -1 -0130" ∧
    (parse " < <a> b> -1 -0130").toOption = some ⟨"", " <a> b", -1, -5400⟩ := by
  decide +kernel

/-- The characters of name and address are taken from the line. -/
theorem mem_of_parse (h : parse text = .ok author)
    (mem : c ∈ author.name.toList ∨ c ∈ author.email.toList) : c ∈ text.toList := by
  obtain ⟨identity, time, zone, before, after, front, back, words, -, -, opening, -, -, -, name,
    email⟩ := parse_eq_ok_iff.mp h
  rw [(splitWords?_eq_some_iff.mp words).1]
  apply List.mem_append_left
  rw [(Text.splitOnce_eq_some_iff.mp opening).1]
  rw [name, email, String.toList_ofList, String.toList_ofList] at mem
  rcases mem with mem | mem
  · exact List.mem_append_left _ (Text.mem_of_mem_trim mem)
  · exact List.mem_append_right _ (List.mem_cons_of_mem _ (List.mem_of_mem_take mem))

/-- What the line of an author is made of. -/
theorem Printable.mem_display (h : author.Printable) (mem : c ∈ author.display.toList) :
    c ∈ author.name.toList ∨ c ∈ author.email.toList ∨ c ∈ [' ', '<', '>', '+', '-'] ∨
      c.isDigit := by
  simp only [toList_display, toList_displayName, List.mem_append, List.mem_cons, List.not_mem_nil,
    or_false] at mem
  have time (mem : c ∈ (toString author.time).toList) := Text.isDigit_of_mem_toString_int mem
  have zone (mem : c ∈ (Time.offsetText author.offset).toList) := Time.mem_offsetText h.offset mem
  simp only [List.mem_cons, List.not_mem_nil]
  grind

end CommitLog.Author
