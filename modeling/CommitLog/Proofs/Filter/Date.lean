import CommitLog.Filter.Date
import CommitLog.Proofs.Steps
import CommitLog.Proofs.Time.Reading

/-!
# Windows of dates

A window between two dates lets through the commits whose author worked on these dates or between
them, where the day is that of UTC.  So the windows of consecutive spans of days share no commit and
leave none out.

    Writes since first → Writes upTo last → between since upTo = .ok filter →
      (filter.accepts metadata ↔ first ≤ utcDate metadata ∧ utcDate metadata ≤ last)
-/

namespace CommitLog.DateFilter

open Time (Date Instant)

variable {since upTo text : String} {first last d : Date} {filter : DateFilter} {a b clock : Int}
  {metadata : Metadata}

/-- Whether a text, without the blanks around it, is read as a date. -/
def Writes (text : String) (d : Date) : Prop := Time.date? (Text.trim text.toList) = some d

instance : Decidable (Writes text d) :=
  inferInstanceAs (Decidable (Time.date? (Text.trim text.toList) = some d))

/-- The date on which the author worked, in UTC. -/
def utcDate (metadata : Metadata) : Date := .ofDayNumber (metadata.author.time / Time.dayLength)

def between (since upTo : String) : Except Fault DateFilter := do
  let after ← parseSince since
  let before ← parseUntil upTo
  return ⟨some after, some before⟩

theorem notAfter_ofSeconds : (Instant.ofSeconds a).notAfter (.ofSeconds b) = true ↔ a ≤ b := by
  show (decide (a < b) || (a == b && decide (0 ≤ 0))) = true ↔ a ≤ b
  simp only [Nat.le_refl, decide_true, Bool.and_true, Bool.or_eq_true, decide_eq_true_eq,
    beq_iff_eq]
  omega

/-- Every date of the range is written by its text. -/
theorem writes_toText (own : d.InRange) : Writes d.toText d := by
  rw [Writes, Time.trim_toText, Time.date?_toText own]

theorem parseBound_of_writes (writes : Writes text d) :
    parseBound clock text = .ok (.ofSeconds (d.dayNumber * Time.dayLength + clock)) := by
  unfold parseBound
  dsimp only
  rw [Time.timestamp?_of_date? writes, writes]

/-- A window between two dates goes from the first second of the first to the last of the last. -/
theorem between_of_writes (lower : Writes since first) (upper : Writes upTo last) :
    between since upTo = .ok ⟨some (.ofSeconds (first.dayNumber * Time.dayLength)),
      some (.ofSeconds (last.dayNumber * Time.dayLength + 86399))⟩ := by
  unfold between parseSince parseUntil
  rw [parseBound_of_writes lower, parseBound_of_writes upper, Int.add_zero]
  rfl

theorem accepts_iff_day (lower : Writes since first) (upper : Writes upTo last)
    (made : between since upTo = .ok filter) : filter.accepts metadata = true ↔
      first.dayNumber ≤ metadata.author.time / Time.dayLength ∧
        metadata.author.time / Time.dayLength ≤ last.dayNumber := by
  obtain rfl := Except.ok.inj ((between_of_writes lower upper).symm.trans made)
  rw [accepts, acceptsInstant, Bool.and_eq_true, Option.all_some, Option.all_some, Author.instant,
    notAfter_ofSeconds, notAfter_ofSeconds, Time.dayLength]
  omega

/-- **A window of dates lets through what was done on its days, and windows of consecutive days
share and leave out nothing.** -/
theorem accepts_dates (lower : Writes since first) (upper : Writes upTo last) :
    ∃ filter, between since upTo = .ok filter ∧
      (∀ metadata, filter.accepts metadata = true ↔
        first ≤ utcDate metadata ∧ utcDate metadata ≤ last) ∧
      ∀ (since' upTo' : String) (later : Date), Writes since' last.next → Writes upTo' later →
        first ≤ last → last ≤ later → ∃ next whole, between since' upTo' = .ok next ∧
          between since upTo' = .ok whole ∧ ∀ metadata,
            ¬(filter.accepts metadata = true ∧ next.accepts metadata = true) ∧
            (whole.accepts metadata = true ↔
              filter.accepts metadata = true ∨ next.accepts metadata = true) := by
  have ofFirst := (Date.InRange.of_date? lower).toOnCalendar
  have ofLast := (Date.InRange.of_date? upper).toOnCalendar
  refine ⟨_, between_of_writes lower upper, fun metadata => ?_, ?_⟩
  · have ofDay := Time.onCalendar_ofDayNumber (metadata.author.time / Time.dayLength)
    rw [accepts_iff_day lower upper (between_of_writes lower upper), utcDate,
      ← Time.dayNumber_le_iff ofFirst ofDay, ← Time.dayNumber_le_iff ofDay ofLast,
      Time.dayNumber_ofDayNumber]
  · intro since' upTo' later lower' upper' inOrder ahead
    have ofLater := (Date.InRange.of_date? upper').toOnCalendar
    refine ⟨_, _, between_of_writes lower' upper', between_of_writes lower upper',
      fun metadata => ?_⟩
    rw [accepts_iff_day lower upper (between_of_writes lower upper),
      accepts_iff_day lower' upper' (between_of_writes lower' upper'),
      accepts_iff_day lower upper' (between_of_writes lower upper'), Time.dayNumber_next ofLast]
    have := (Time.dayNumber_le_iff ofFirst ofLast).2 inOrder
    have := (Time.dayNumber_le_iff ofLast ofLater).2 ahead
    omega

/-- The details of a commit whose author is two hours ahead of UTC. -/
def workedAt (seconds : Int) : Metadata :=
  ⟨0, .zero, ⟨"/work/app"⟩, [], ⟨"Ada", "ada@example.com", seconds, 7200⟩, 0, "First\n", none⟩

/-- The day goes on to midnight in UTC, when it is two o'clock where the author is. -/
theorem accepts_midnight : ∃ filter, between "2023-11-14" " 2023-11-14\n" = .ok filter ∧
    filter.accepts (workedAt 1700006399) = true ∧
    filter.accepts (workedAt 1700006400) = false := by
  obtain ⟨filter, made, day, -⟩ :=
    accepts_dates (show Writes "2023-11-14" ⟨2023, 11, 14⟩ by decide)
      (show Writes " 2023-11-14\n" ⟨2023, 11, 14⟩ by decide)
  refine ⟨filter, made, (day _).2 (by decide), ?_⟩
  rw [Bool.eq_false_iff, ne_eq, day]
  decide

end CommitLog.DateFilter
