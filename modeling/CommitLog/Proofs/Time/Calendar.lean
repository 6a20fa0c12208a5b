import CommitLog.Time.Calendar
import Mathlib.Tactic.IntervalCases

/-!
# The days of the calendar

Day numbers follow the calendar: 1 January 1970 is day 0, and the day after a date has the number
after that of the date (`dayNumber_next`).  So dates are in order as their numbers are
(`dayNumber_le_iff`), every number is that of one date (`exists_dayNumber`), and `Date.ofDayNumber`
gives it.

    d.OnCalendar → Date.ofDayNumber d.dayNumber = d
    (Date.ofDayNumber n).OnCalendar ∧ (Date.ofDayNumber n).dayNumber = n
-/

namespace CommitLog.Time

variable {d e : Date} {y y' : Int} {m m' k : Nat} {n : Int}

/-! ## Dates -/

/-- The month is one of the twelve, and the day one of the month. -/
structure Date.OnCalendar (d : Date) : Prop where
  month : 1 ≤ d.month ∧ d.month ≤ 12
  day : 1 ≤ d.day ∧ d.day ≤ monthLength d.year d.month

/-- Dates are compared by their years, then by their months, then by their days. -/
instance : LE Date where
  le d e := d.year < e.year ∨
    d.year = e.year ∧ (d.month < e.month ∨ d.month = e.month ∧ d.day ≤ e.day)

theorem Date.le_iff : d ≤ e ↔ d.year < e.year ∨
    d.year = e.year ∧ (d.month < e.month ∨ d.month = e.month ∧ d.day ≤ e.day) :=
  Iff.rfl

instance : Decidable (d ≤ e) :=
  inferInstanceAs (Decidable (d.year < e.year ∨
    d.year = e.year ∧ (d.month < e.month ∨ d.month = e.month ∧ d.day ≤ e.day)))

def Date.next (d : Date) : Date :=
  if d.day < monthLength d.year d.month then ⟨d.year, d.month, d.day + 1⟩
  else if d.month < 12 then ⟨d.year, d.month + 1, 1⟩
  else ⟨d.year + 1, 1, 1⟩

theorem isLeapYear_iff :
    isLeapYear y = true ↔ y % 4 = 0 ∧ (y % 100 ≠ 0 ∨ y % 400 = 0) := by
  simp [isLeapYear]

theorem one_le_monthLength (y : Int) (m : Nat) : 1 ≤ monthLength y m := by
  unfold monthLength
  split
  · split <;> omega
  · split <;> omega

theorem Date.OnCalendar.next (own : d.OnCalendar) : d.next.OnCalendar := by
  obtain ⟨month, day⟩ := own
  unfold Date.next
  split
  · next inside => exact ⟨month, Nat.le_add_left 1 _, inside⟩
  · split
    · next early => exact ⟨⟨Nat.le_add_left 1 _, early⟩, Nat.le_refl 1, one_le_monthLength _ _⟩
    · exact ⟨⟨Nat.le_refl 1, Nat.le_add_left 1 11⟩, Nat.le_refl 1, one_le_monthLength _ _⟩

/-! ## Day numbers along the calendar -/

theorem dayNumber_day : (Date.mk y m k).dayNumber = (Date.mk y m 1).dayNumber + (k - 1) := by
  unfold Date.dayNumber
  dsimp only
  omega

theorem dayNumber_month (least : 1 ≤ m) (most : m < 12) :
    (Date.mk y (m + 1) 1).dayNumber = (Date.mk y m 1).dayNumber + monthLength y m := by
  by_cases february : m = 2
  · subst february
    have leap := @isLeapYear_iff y
    unfold Date.dayNumber monthLength
    simp only [Nat.reduceAdd, Nat.reduceLeDiff, if_true, if_false, beq_self_eq_true]
    split
    · have := leap.1 ‹_›
      omega
    · have := leap.not.1 ‹_›
      omega
  · unfold Date.dayNumber
    interval_cases m
    all_goals first | exact absurd rfl february | skip
    all_goals
      simp [monthLength]
      try omega

theorem dayNumber_year :
    (Date.mk (y + 1) 1 1).dayNumber = (Date.mk y 12 1).dayNumber + monthLength y 12 := by
  unfold Date.dayNumber monthLength
  simp
  omega

/-- **The day after a date has the next number.** -/
theorem dayNumber_next (own : d.OnCalendar) : d.next.dayNumber = d.dayNumber + 1 := by
  obtain ⟨⟨least, most⟩, first, last⟩ := own
  obtain ⟨y, m, k⟩ := d
  dsimp only at least most first last
  rw [@dayNumber_day y m k]
  unfold Date.next
  dsimp only
  split
  · rw [@dayNumber_day y m (k + 1)]
    omega
  · split
    · next early =>
      rw [dayNumber_month least early]
      omega
    · obtain rfl : m = 12 := by omega
      rw [dayNumber_year]
      omega

/-! ## The order of dates -/

/-- A month is over before a later one of the year. -/
theorem dayNumber_months (least : 1 ≤ m) (later : m < m') (most : m' ≤ 12) :
    (Date.mk y m 1).dayNumber + monthLength y m ≤ (Date.mk y m' 1).dayNumber := by
  induction m', later using Nat.le_induction with
  | base => exact Int.le_of_eq (dayNumber_month least most).symm
  | succ m' later ih =>
    have before := ih (Nat.le_of_succ_le most)
    rw [dayNumber_month (Nat.le_trans least (Nat.le_of_succ_le later)) most]
    omega

/-- A year is over before a later one. -/
theorem dayNumber_years (later : y < y') :
    (Date.mk y 12 1).dayNumber + 31 ≤ (Date.mk y' 1 1).dayNumber := by
  unfold Date.dayNumber
  simp
  omega

theorem dayNumber_lt (own : d.OnCalendar) (other : e.OnCalendar) (lt : ¬e ≤ d) :
    d.dayNumber < e.dayNumber := by
  obtain ⟨⟨least, most⟩, first, last⟩ := own
  obtain ⟨⟨least', most'⟩, first', -⟩ := other
  obtain ⟨y, m, k⟩ := d
  obtain ⟨y', m', k'⟩ := e
  dsimp only at least most first last least' most' first'
  simp only [Date.le_iff, not_or, not_and] at lt
  rw [@dayNumber_day y m k, @dayNumber_day y' m' k']
  obtain rfl | years : y = y' ∨ y < y' := by omega
  · obtain rfl | months : m = m' ∨ m < m' := by omega
    · omega
    · have := @dayNumber_months y m m' least months most'
      omega
  · -- to the end of the month, of the year, and on to the later month
    have rest : (Date.mk y m 1).dayNumber + monthLength y m ≤ (Date.mk y 12 1).dayNumber + 31 := by
      obtain rfl | early : m = 12 ∨ m < 12 := by omega
      · exact Int.le_refl _
      · have := @dayNumber_months y m 12 least early (Nat.le_refl 12)
        omega
    have turn := dayNumber_years years
    have start : (Date.mk y' 1 1).dayNumber ≤ (Date.mk y' m' 1).dayNumber := by
      obtain rfl | late : m' = 1 ∨ 1 < m' := by omega
      · exact Int.le_refl _
      · have := @dayNumber_months y' 1 m' (Nat.le_refl 1) late most'
        omega
    omega

/-- **Dates are in order as their numbers are.** -/
theorem dayNumber_le_iff (own : d.OnCalendar) (other : e.OnCalendar) :
    d.dayNumber ≤ e.dayNumber ↔ d ≤ e := by
  constructor
  · intro le
    by_contra after
    exact Int.not_lt.2 le (dayNumber_lt other own after)
  · intro le
    by_cases same : e ≤ d
    · obtain rfl : d = e := by
        obtain ⟨y, m, k⟩ := d
        obtain ⟨y', m', k'⟩ := e
        simp only [Date.le_iff] at le same
        rw [Date.mk.injEq]
        omega
      exact Int.le_refl _
    · exact Int.le_of_lt (dayNumber_lt own other same)

/-- Every number is that of a date. -/
theorem exists_dayNumber (n : Int) : ∃ d : Date, d.OnCalendar ∧ d.dayNumber = n := by
  have upward (y : Int) (k : Nat) :
      ∃ d : Date, d.OnCalendar ∧ d.dayNumber = (Date.mk y 1 1).dayNumber + k := by
    induction k with
    | zero =>
      exact ⟨⟨y, 1, 1⟩, ⟨⟨Nat.le_refl 1, Nat.le_add_left 1 11⟩, Nat.le_refl 1,
        one_le_monthLength _ _⟩, (Int.add_zero _).symm⟩
    | succ k ih =>
      obtain ⟨d, own, number⟩ := ih
      refine ⟨d.next, own.next, ?_⟩
      rw [dayNumber_next own, number]
      omega
  -- a year that starts before the day
  obtain ⟨y, before⟩ : ∃ y : Int, (Date.mk y 1 1).dayNumber ≤ n := by
    refine ⟨min n 0, ?_⟩
    unfold Date.dayNumber
    simp
    omega
  obtain ⟨k, rfl⟩ := Int.le.dest before
  exact upward y k

/-! ## From numbers back to dates -/

/-- The year of an era from the days of the era that are over: a year has 365 days, and one more
when the year that it ends in is a leap year. -/
theorem yearOfEra_eq {year dayOfYear dayOfEra : Int} (inEra : 0 ≤ year ∧ year < 400)
    (inYear : 0 ≤ dayOfYear ∧ dayOfYear ≤ 365)
    (leap : dayOfYear = 365 → (year + 1) % 4 = 0 ∧ ((year + 1) % 100 ≠ 0 ∨ year = 399))
    (whole : dayOfEra = 365 * year + year / 4 - year / 100 + dayOfYear) :
    (dayOfEra - dayOfEra / 1460 + dayOfEra / 36524 - dayOfEra / 146096) / 365 = year := by
  obtain ⟨c, q, r, hc, hq, hr, rfl⟩ : ∃ c q r : Int, (0 ≤ c ∧ c < 4) ∧ (0 ≤ q ∧ q < 25) ∧
      (0 ≤ r ∧ r < 4) ∧ year = 100 * c + 4 * q + r :=
    ⟨year / 100, year % 100 / 4, year % 4, by omega, by omega, by omega, by omega⟩
  have fours : (100 * c + 4 * q + r) / 4 = 25 * c + q := by omega
  have centuries : (100 * c + 4 * q + r) / 100 = c := by omega
  rw [fours, centuries] at whole
  have leapDay : dayOfYear = 365 → r = 3 ∧ (q = 24 → c = 3) := by
    intro last
    have := leap last
    omega
  clear leap fours centuries inEra
  have byFours : (24 * c + q + 365 * r + dayOfYear < 1460 ∧ dayOfEra / 1460 = 25 * c + q) ∨
      (1460 ≤ 24 * c + q + 365 * r + dayOfYear ∧ dayOfEra / 1460 = 25 * c + q + 1) := by
    omega
  have byCenturies : (dayOfEra / 36524 = c ∧ dayOfEra / 146096 = 0) ∨
      (dayOfYear = 365 ∧ dayOfEra / 36524 = 4 ∧ c = 3 ∧ dayOfEra / 146096 = 1) := by
    omega
  omega

/-- The months from March on start where the formula says, and only a 29 February is the 366th day
of a year from March on. -/
theorem day_bounds (month : 1 ≤ m ∧ m ≤ 12) (day : 1 ≤ k ∧ k ≤ monthLength y m) :
    (153 * (((m : Int) + 9) % 12) + 2) / 5 + k ≤ (153 * (((m : Int) + 9) % 12 + 1) + 2) / 5 ∧
      (153 * (((m : Int) + 9) % 12) + 2) / 5 + k ≤ 366 ∧
      ((153 * (((m : Int) + 9) % 12) + 2) / 5 + k = 366 → m = 2 ∧ isLeapYear y = true) := by
  obtain ⟨least, most⟩ := month
  obtain ⟨-, last⟩ := day
  by_cases february : m = 2
  · subst february
    cases leap : isLeapYear y with
    | true =>
      have length : monthLength y 2 = 29 := by simp [monthLength, leap]
      refine ⟨?_, ?_, fun _ => ⟨rfl, rfl⟩⟩ <;> omega
    | false =>
      have length : monthLength y 2 = 28 := by simp [monthLength, leap]
      refine ⟨?_, ?_, fun _ => ?_⟩ <;> omega
  · interval_cases m
    all_goals
      simp [monthLength] at last february ⊢
      try omega

/-- **A date is had back from its number.** -/
theorem ofDayNumber_dayNumber (own : d.OnCalendar) : Date.ofDayNumber d.dayNumber = d := by
  obtain ⟨month, day⟩ := own
  obtain ⟨y, m, k⟩ := d
  dsimp only at month day
  obtain ⟨inMonth, inYear, leapDay⟩ := day_bounds month day
  -- the year from March on, and the days of the era and of the year that are over
  obtain ⟨year, shifted⟩ : ∃ year, year = if m ≤ 2 then y - 1 else y := ⟨_, rfl⟩
  obtain ⟨fromMarch, counted⟩ : ∃ fromMarch, fromMarch = ((m : Int) + 9) % 12 := ⟨_, rfl⟩
  obtain ⟨dayOfYear, elapsed⟩ : ∃ dayOfYear, dayOfYear =
      (153 * fromMarch + 2) / 5 + (k : Int) - 1 := ⟨_, rfl⟩
  obtain ⟨dayOfEra, sum⟩ : ∃ dayOfEra, dayOfEra =
      365 * (year % 400) + year % 400 / 4 - year % 400 / 100 + dayOfYear := ⟨_, rfl⟩
  rw [← counted] at inMonth inYear leapDay
  have leap : dayOfYear = 365 →
      (year % 400 + 1) % 4 = 0 ∧ ((year % 400 + 1) % 100 ≠ 0 ∨ year % 400 = 399) := by
    intro last
    obtain ⟨february, leap⟩ := leapDay (by omega)
    have := isLeapYear_iff.1 leap
    rw [february] at shifted
    omega
  have yearOfEra := yearOfEra_eq (by omega) (by omega) leap sum
  have number : (Date.mk y m k).dayNumber = year / 400 * 146097 + dayOfEra - 719468 := by
    unfold Date.dayNumber
    dsimp only
    rw [← shifted, ← counted]
    omega
  have era : ((Date.mk y m k).dayNumber + 719468) / 146097 = year / 400 := by omega
  have rest : ((Date.mk y m k).dayNumber + 719468) % 146097 = dayOfEra := by omega
  have back : dayOfEra - (365 * (year % 400) + year % 400 / 4 - year % 400 / 100) = dayOfYear := by
    omega
  have march : (5 * dayOfYear + 2) / 153 = fromMarch := by omega
  have named : (if fromMarch < 10 then fromMarch + 3 else fromMarch - 9) = m := by
    split <;> omega
  have whole : year % 400 + year / 400 * 400 = year := by omega
  unfold Date.ofDayNumber
  simp only [era, rest, yearOfEra, back, march, named, whole]
  rw [Date.mk.injEq]
  refine ⟨?_, Int.toNat_natCast m, ?_⟩
  · rw [shifted]
    split <;> split <;> omega
  · omega

theorem onCalendar_ofDayNumber (n : Int) : (Date.ofDayNumber n).OnCalendar := by
  obtain ⟨d, own, rfl⟩ := exists_dayNumber n
  rwa [ofDayNumber_dayNumber own]

theorem dayNumber_ofDayNumber (n : Int) : (Date.ofDayNumber n).dayNumber = n := by
  obtain ⟨d, own, rfl⟩ := exists_dayNumber n
  rw [ofDayNumber_dayNumber own]

end CommitLog.Time
