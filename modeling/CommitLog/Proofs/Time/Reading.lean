import CommitLog.Proofs.Text.Parts
import CommitLog.Proofs.Time.Calendar
import CommitLog.Proofs.Time.Offset
import Mathlib.Data.Option.Basic

/-!
# Reading dates

A text is not both a date and a time in internet format (`timestamp?_of_date?`), what is read as a
date is on the calendar (`InRange.of_date?`), and every date of the range is read from its text
(`date?_toText`).

    date? text = some d → timestamp? text = none
    d.InRange → date? d.toText.toList = some d
-/

namespace CommitLog.Time

open CommitLog.Text (digit? isBlank trimStart)

variable {text rest digits : List Char} {least least' n width : Nat} {most : Option Nat} {d : Date}
  {year : Int} {month day : Nat}

/-! ## Dates of the range -/

/-- The dates between the least and the greatest year. -/
structure Date.InRange (d : Date) : Prop extends d.OnCalendar where
  years : leastYear ≤ d.year ∧ d.year ≤ greatestYear

theorem Date.of?_eq_some : Date.of? year month day = some d ↔
    d.InRange ∧ d = ⟨year, month, day⟩ := by
  rw [Date.of?, Option.ite_none_right_eq_some, Option.some.injEq, eq_comm (b := d)]
  refine and_congr_left ?_
  rintro rfl
  constructor
  · rintro ⟨low, high, least, most, first, last⟩
    exact ⟨⟨⟨least, most⟩, ⟨first, last⟩⟩, ⟨low, high⟩⟩
  · rintro ⟨⟨⟨least, most⟩, ⟨first, last⟩⟩, ⟨low, high⟩⟩
    exact ⟨low, high, least, most, first, last⟩

theorem Date.InRange.of_date? (read : date? text = some d) : d.InRange := by
  simp only [date?, Option.bind_eq_bind, Option.bind_eq_some_iff, Prod.exists] at read
  obtain ⟨year, _, -, _, -, month, _, -, _, -, day, _, -, _, -, read⟩ := read
  exact (Date.of?_eq_some.1 read).1

/-! ## Runs of digits -/

/-- The digits at the start of a text, of a bounded number of characters. -/
def digitRun (most : Option Nat) (text : List Char) : List Char :=
  (match most with
    | some most => text.take most
    | none => text).takeWhile fun c => (digit? c).isSome

def value (digits : List Char) : Nat := digits.foldl (fun n c => n * 10 + (digit? c).getD 0) 0

theorem takeDigits?_eq_some : takeDigits? least most text = some (n, rest) ↔
    least ≤ (digitRun most text).length ∧ n = value (digitRun most text) ∧
      rest = text.drop (digitRun most text).length := by
  have own : takeDigits? least most text = if (digitRun most text).length < least then none else
      some (value (digitRun most text), text.drop (digitRun most text).length) := rfl
  rw [own, Option.ite_none_left_eq_some, Option.some.injEq, Prod.mk.injEq, Nat.not_lt]
  simp only [eq_comm]

/-- What asks for fewer digits takes the same. -/
theorem takeDigits?_mono (read : takeDigits? least most text = some (n, rest))
    (fewer : least' ≤ least) : takeDigits? least' most text = some (n, rest) := by
  rw [takeDigits?_eq_some] at *
  exact ⟨Nat.le_trans fewer read.1, read.2⟩

theorem digitRun_prefix (most : Option Nat) (text : List Char) : digitRun most text <+: text := by
  cases most with
  | none => exact List.takeWhile_prefix _
  | some most => exact (List.takeWhile_prefix _).trans (List.take_prefix most text)

theorem isSome_of_mem_digitRun {c : Char} (mem : c ∈ digitRun most text) :
    (digit? c).isSome = true := by
  exact List.all_eq_true.1 List.all_takeWhile c mem

/-- A text from which digits are taken starts with one. -/
theorem starts_of_takeDigits? (read : takeDigits? least most text = some (n, rest))
    (pos : 1 ≤ least) : ∃ c tail, text = c :: tail ∧ (digit? c).isSome = true := by
  have long := Nat.le_trans pos (takeDigits?_eq_some.1 read).1
  obtain ⟨c, digits, run⟩ := List.exists_cons_of_length_pos long
  obtain ⟨tail, whole⟩ := digitRun_prefix most text
  rw [run, List.cons_append] at whole
  exact ⟨c, _, whole.symm, isSome_of_mem_digitRun (run ▸ List.mem_cons_self)⟩

theorem not_isBlank_of_digit {c : Char} (digit : (digit? c).isSome = true) : isBlank c = false := by
  obtain ⟨low, high⟩ : '0' ≤ c ∧ c ≤ '9' := by
    by_contra plain
    rw [digit?, if_neg plain] at digit
    cases digit
  have low : 48 ≤ c.toNat := low
  have high : c.toNat ≤ 57 := high
  rw [Bool.eq_false_iff]
  simp only [isBlank, ne_eq, Bool.or_eq_true, Bool.and_eq_true, decide_eq_true_eq, beq_iff_eq]
  omega

/-- Digits have no blanks before them. -/
theorem trimStart_of_takeDigits? (read : takeDigits? least most text = some (n, rest))
    (pos : 1 ≤ least) : trimStart text = text := by
  obtain ⟨c, tail, rfl, digit⟩ := starts_of_takeDigits? read pos
  exact List.dropWhile_cons_of_neg (by rw [not_isBlank_of_digit digit]; exact Bool.false_ne_true)

/-- A year without a sign is up to four digits. -/
theorem takeYear?_of_takeDigits? (read : takeDigits? 1 (some 4) text = some (n, rest)) :
    takeYear? text = some ((n : Int), rest) := by
  obtain ⟨c, tail, rfl, digit⟩ := starts_of_takeDigits? read (Nat.le_refl 1)
  unfold takeYear?
  split
  · next starts =>
    cases starts
    cases digit
  · next starts =>
    cases starts
    cases digit
  · rw [read]
    rfl

/-- **No date is a time in internet format.** -/
theorem timestamp?_of_date? (read : date? text = some d) : timestamp? text = none := by
  rw [Option.eq_none_iff_forall_ne_some]
  intro instant whole
  obtain ⟨⟨year, afterYear⟩, years, whole⟩ := Option.bind_eq_some_iff.1 whole
  obtain ⟨beforeMonth, first, whole⟩ := Option.bind_eq_some_iff.1 whole
  obtain ⟨⟨month, afterMonth⟩, months, whole⟩ := Option.bind_eq_some_iff.1 whole
  obtain ⟨beforeDay, second, whole⟩ := Option.bind_eq_some_iff.1 whole
  obtain ⟨⟨day, afterDay⟩, days, whole⟩ := Option.bind_eq_some_iff.1 whole
  have years' := takeDigits?_mono years (show 1 ≤ _ by decide)
  have months' := takeDigits?_mono months (show 1 ≤ _ by decide)
  have days' := takeDigits?_mono days (show 1 ≤ _ by decide)
  simp only [date?, trimStart_of_takeDigits? years' (Nat.le_refl 1),
    takeYear?_of_takeDigits? years', first, trimStart_of_takeDigits? months' (Nat.le_refl 1),
    months', second, trimStart_of_takeDigits? days' (Nat.le_refl 1), days', Option.bind_eq_bind,
    Option.bind_some, Option.bind_eq_some_iff, Option.guard_eq_some'] at read
  -- nothing stands behind the day of a date, but the time of day does in the other form
  obtain ⟨-, empty, -⟩ := read
  obtain rfl : afterDay = [] := List.isEmpty_iff.1 empty
  have none : none = some instant := whole
  cases none

/-! ## The text of a date -/

theorem value_eq_ofDigitChars (all : ∀ c ∈ digits, c.isDigit) :
    value digits = Nat.ofDigitChars 10 digits 0 := by
  have from_ (n : Nat) : digits.foldl (fun n c => n * 10 + (digit? c).getD 0) n =
      Nat.ofDigitChars 10 digits n := by
    induction digits generalizing n with
    | nil => rw [List.foldl_nil, Nat.ofDigitChars_nil]
    | cons c rest ih =>
      rw [List.foldl_cons, Text.digit?_of_isDigit (all c List.mem_cons_self),
        ih fun d mem => all d (List.mem_cons_of_mem _ mem), Nat.ofDigitChars_cons, Nat.mul_comm]
      rfl
  exact from_ 0

theorem toList_padded (width n : Nat) : (Text.padded width n).toList =
    List.replicate (width - (Nat.toDigits 10 n).length) '0' ++ Nat.toDigits 10 n := by
  rw [Text.padded, Nat.toString_eq_repr, Nat.toList_repr, String.toList_ofList]

theorem isDigit_of_mem_padded {c : Char} (mem : c ∈ (Text.padded width n).toList) :
    c.isDigit := by
  rw [toList_padded, List.mem_append, List.mem_replicate] at mem
  obtain ⟨-, rfl⟩ | mem := mem
  · decide
  · exact Nat.isDigit_of_mem_toDigits (by decide) (by decide) mem

theorem value_padded (width n : Nat) : value (Text.padded width n).toList = n := by
  rw [value_eq_ofDigitChars fun c => isDigit_of_mem_padded, toList_padded, Nat.ofDigitChars_append,
    Nat.ofDigitChars_replicate_zero, Nat.mul_zero, Nat.ofDigitChars_ten_toDigits]

theorem length_padded (width n : Nat) : (Text.padded width n).toList.length =
    max width (Nat.toDigits 10 n).length := by
  rw [toList_padded, List.length_append, List.length_replicate]
  omega

/-- A number is taken off a text whose next character is no digit. -/
theorem takeDigits?_padded_append (enough : least ≤ width)
    (bounded : ∀ m, most = some m → (Text.padded width n).toList.length ≤ m)
    (ends : ∀ c, rest.head? = some c → (digit? c).isSome = false) :
    takeDigits? least most ((Text.padded width n).toList ++ rest) = some (n, rest) := by
  have run : digitRun most ((Text.padded width n).toList ++ rest) =
      (Text.padded width n).toList := by
    have own (tail : List Char) (ends : ∀ c, tail.head? = some c → (digit? c).isSome = false) :
        ((Text.padded width n).toList ++ tail).takeWhile (fun c => (digit? c).isSome) =
          (Text.padded width n).toList := by
      rw [List.takeWhile_append_of_pos fun c mem => by
        rw [Text.digit?_of_isDigit (isDigit_of_mem_padded mem), Option.isSome_some]]
      cases tail with
      | nil => rw [List.takeWhile_nil, List.append_nil]
      | cons c tail =>
        rw [List.takeWhile_cons_of_neg (by rw [ends c rfl]; exact Bool.false_ne_true),
          List.append_nil]
    unfold digitRun
    cases most with
    | none => exact own rest ends
    | some m =>
      dsimp only
      rw [List.take_append, List.take_of_length_le (bounded m rfl)]
      refine own _ fun c head => ends c ?_
      rw [List.head?_take] at head
      split at head
      · cases head
      · exact head
  rw [takeDigits?_eq_some, run, value_padded, List.drop_left, length_padded]
  exact ⟨Nat.le_trans enough (Nat.le_max_left _ _), rfl, rfl⟩

theorem takeYear?_yearText (year : Int) (rest : List Char) :
    takeYear? ((yearText year).toList ++ '-' :: rest) = some (year, '-' :: rest) := by
  have hyphen : ∀ c, ('-' :: rest).head? = some c → (digit? c).isSome = false := by
    rintro c ⟨⟩
    rfl
  rw [yearText]
  split
  · next plain =>
    have four : (Text.padded 4 year.toNat).toList.length ≤ 4 := by
      have digits := (Nat.length_toDigits_le_iff (b := 10) (n := year.toNat) (k := 4) (by decide)
        (by decide)).2 (by omega)
      rw [length_padded]
      omega
    rw [takeYear?_of_takeDigits? (takeDigits?_padded_append (by decide) ?_ hyphen)]
    · rw [Int.toNat_of_nonneg plain.1]
    · rintro m ⟨⟩
      exact four
  · next signed =>
    have digits := @takeDigits?_padded_append ('-' :: rest) 1 year.natAbs 4 none (by decide)
      nofun hyphen
    have minus : "-".toList = ['-'] := rfl
    have plus : "+".toList = ['+'] := rfl
    rw [String.toList_append, List.append_assoc]
    split
    · next negative =>
      rw [minus, List.singleton_append, takeYear?, digits, Option.map_some]
      dsimp only
      rw [Int.ofNat_natAbs_of_nonpos (Int.le_of_lt negative), Int.neg_neg]
    · next nonneg =>
      rw [plus, List.singleton_append, takeYear?, digits, Option.map_some]
      dsimp only
      rw [Int.natAbs_of_nonneg (Int.not_lt.1 nonneg)]

/-- The year, the month and the day with hyphens between them. -/
def Date.toText (d : Date) : String :=
  yearText d.year ++ "-" ++ Text.padded 2 d.month ++ "-" ++ Text.padded 2 d.day

theorem toList_toText (d : Date) : d.toText.toList = (yearText d.year).toList ++
    '-' :: ((Text.padded 2 d.month).toList ++ '-' :: (Text.padded 2 d.day).toList) := by
  simp [Date.toText]

theorem not_isBlank_of_mem_toText {c : Char} (mem : c ∈ d.toText.toList) : isBlank c = false := by
  have number {width n : Nat} (mem : c ∈ (Text.padded width n).toList) : isBlank c = false :=
    not_isBlank_of_digit (by
      rw [Text.digit?_of_isDigit (isDigit_of_mem_padded mem), Option.isSome_some])
  have year (mem : c ∈ (yearText d.year).toList) : isBlank c = false := by
    rw [yearText] at mem
    split at mem
    · exact number mem
    · rw [String.toList_append, List.mem_append] at mem
      rcases mem with sign | mem
      · obtain rfl | rfl : c = '-' ∨ c = '+' := by
          split at sign <;> simp at sign <;> simp [sign]
        · rfl
        · rfl
      · exact number mem
  simp only [toList_toText, List.mem_append, List.mem_cons] at mem
  obtain mem | rfl | mem | rfl | mem := mem
  · exact year mem
  · rfl
  · exact number mem
  · rfl
  · exact number mem

theorem trim_toText (d : Date) : Text.trim d.toText.toList = d.toText.toList :=
  Text.trim_eq_self_iff.2 ⟨fun _ head => not_isBlank_of_mem_toText (List.mem_of_mem_head? head),
    fun _ last => not_isBlank_of_mem_toText (List.mem_of_getLast? last)⟩

/-- **Every date of the range is read from its text.** -/
theorem date?_toText (own : d.InRange) : date? d.toText.toList = some d := by
  have months : d.month < 100 := by
    have := own.month
    omega
  have days : d.day < 100 := by
    obtain ⟨-, last⟩ := own.day
    unfold monthLength at last
    split at last <;> split at last <;> omega
  have front : trimStart d.toText.toList = d.toText.toList :=
    Text.trimStart_eq_self_iff.2 fun _ head =>
      not_isBlank_of_mem_toText (List.mem_of_mem_head? head)
  have month := takeDigits?_mono (takeDigits?_padded months
    ('-' :: (Text.padded 2 d.day).toList)) (show 1 ≤ _ by decide)
  have day := takeDigits?_mono (takeDigits?_padded days []) (show 1 ≤ _ by decide)
  rw [List.append_nil] at day
  rw [date?, front, toList_toText, takeYear?_yearText]
  simp only [Option.bind_eq_bind, Option.bind_some, takeChar?, if_true,
    trimStart_of_takeDigits? month (Nat.le_refl 1), month,
    trimStart_of_takeDigits? day (Nat.le_refl 1), day]
  exact Date.of?_eq_some.2 ⟨own, rfl⟩

end CommitLog.Time
