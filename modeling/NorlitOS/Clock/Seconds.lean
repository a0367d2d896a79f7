import NorlitOS.Clock.Calendar

/-!
# `mktime` counts the seconds

The calendar counts by summing: the lengths of the years gone by, of the months of this year, and
the days of this month. `mktime` gives the same number, and so a later moment gets a greater one. It
does so without losing anything on the way: each of its operations gives its exact result.
-/

namespace NorlitOS

open Gregorian

/-! ## The formula with its types

Each operation of the source in the type it has there, failing when the result does not fit. The
formula in `Int` is right as long as none of them fails. -/

/-- The result of an operation on a type of `w` bits without a sign, if it is exact. -/
def unsigned (w : Nat) (x : Int) : Option Int := if 0 ≤ x ∧ x < 2 ^ w then some x else none

/-- The result of an operation on a type of `w` bits with a sign, if it is exact. -/
def signed (w : Nat) (x : Int) : Option Int :=
  if -2 ^ (w - 1) ≤ x ∧ x < 2 ^ (w - 1) then some x else none

variable {w : Nat} {x : Int}

theorem unsigned_of (hnonneg : 0 ≤ x) (hlt : x < 2 ^ w) : unsigned w x = some x :=
  if_pos ⟨hnonneg, hlt⟩

theorem unsigned_bind {f : Int → Option Int} (hnonneg : 0 ≤ x) (hlt : x < 2 ^ w) :
    (unsigned w x >>= f) = f x := by
  rw [unsigned_of hnonneg hlt]
  rfl

theorem signed_bind {f : Int → Option Int} (hle : -2 ^ (w - 1) ≤ x) (hlt : x < 2 ^ (w - 1)) :
    (signed w x >>= f) = f x := by
  unfold signed
  rw [if_pos ⟨hle, hlt⟩]
  rfl

/-- The sum of `mktime` from the month on, operation by operation. -/
def secondsChecked (year mon day hour min sec : Int) : Option Int := do
  let days ← unsigned 32 (year / 4 - year / 100)
  let days ← unsigned 32 (days + year / 400)
  let months ← signed 32 (367 * mon)
  let days ← unsigned 32 (days + months / 12)
  let days ← unsigned 32 (days + day)
  let years ← unsigned 32 (year * 365)
  let days ← unsigned 64 (days + years)
  let days ← unsigned 64 (days - 337)
  let hours ← unsigned 64 (days * 24)
  let hours ← unsigned 64 (hours + hour)
  let mins ← unsigned 64 (hours * 60)
  let mins ← unsigned 64 (mins + min)
  let secs ← unsigned 64 (mins * 60)
  unsigned 64 (secs + sec)

/-- `mktime`, as long as no operation loses anything. The month is read with a sign for the test. -/
def mktimeChecked (year mon day hour min sec : Int) : Option Int := do
  let mon ← signed 8 (mon - 2)
  if mon ≤ 0 then
    let mon ← unsigned 8 (mon + 12)
    let year ← unsigned 32 (year - 1)
    secondsChecked year mon day hour min sec
  else
    secondsChecked year mon day hour min sec

/-- Nothing is lost when the number of the day is small and not negative. -/
theorem secondsChecked_eq {year mon day hour min sec N : Int} (hyear : 0 ≤ year)
    (hsmall : year < 2 ^ 23) (hmon : 0 ≤ mon) (hlast : mon ≤ 12) (hday : 0 ≤ day) (hlt : day < 2 ^ 8)
    (hhour : 0 ≤ hour) (hhour' : hour < 24) (hmin : 0 ≤ min) (hmin' : min < 60) (hsec : 0 ≤ sec)
    (hsec' : sec < 60) (hN : 0 ≤ N)
    (hsum : year / 4 - year / 100 + year / 400 + 367 * mon / 12 + day + year * 365 = N + 337) :
    secondsChecked year mon day hour min sec =
      some (((N * 24 + hour) * 60 + min) * 60 + sec) := by
  have hdays : year / 4 - year / 100 + year / 400 + 367 * mon / 12 + day + year * 365 - 337 = N := by
    omega
  unfold secondsChecked
  rw [unsigned_bind (by omega) (by omega), unsigned_bind (by omega) (by omega),
    signed_bind (by omega) (by omega), unsigned_bind (by omega) (by omega),
    unsigned_bind (by omega) (by omega), unsigned_bind (by omega) (by omega),
    unsigned_bind (by omega) (by omega), hdays, unsigned_bind hN (by omega),
    unsigned_bind (by omega) (by omega), unsigned_bind (by omega) (by omega),
    unsigned_bind (by omega) (by omega), unsigned_bind (by omega) (by omega),
    unsigned_bind (by omega) (by omega)]
  exact unsigned_of (by omega) (by omega)

/-- The number of a day as the formula counts it. -/
theorem daySum_cast {year mon day N : Nat}
    (hsum : leapDays year + 367 * mon / 12 + day + 365 * year = N + 337) :
    (year : Int) / 4 - year / 100 + year / 400 + 367 * (mon : Int) / 12 + day + year * 365 = N + 337 := by
  unfold leapDays at hsum
  omega

/-! ## The calendar's count

Summing years, months and days gives the number of the date, and from it the seconds. -/

namespace Moment

/-- The seconds since the beginning of year 1: the years gone by, the months gone by in this year,
the days gone by in this month, and the time of the day. -/
def seconds (m : Moment) : Nat :=
  (((daysOfYears (m.date.year - 1) + daysThrough (isLeap m.date.year) (m.date.month - 1) +
    (m.date.day - 1)) * 24 + m.hour) * 60 + m.minute) * 60 + m.second

/-- The moment in the order of the calendar, without its milliseconds. -/
def fields (m : Moment) : List Nat :=
  [m.date.year, m.date.month, m.date.day, m.hour, m.minute, m.second]

variable {m m' : Moment}

theorem seconds_eq_number (m : Moment) :
    m.seconds = ((m.date.number * 24 + m.hour) * 60 + m.minute) * 60 + m.second := by
  have hnum := m.date.number_add_one
  have hfirst := m.date.dayIn.first
  have hpos := m.date.year_pos
  have hyears : daysOfYears (m.date.year - 1) = yearStart m.date.year := by
    rw [daysOfYears_eq, Nat.sub_add_cancel hpos]
  have hdays : daysOfYears (m.date.year - 1) + daysThrough (isLeap m.date.year) (m.date.month - 1) +
      (m.date.day - 1) = m.date.number := by
    unfold Date.ofYear at hnum
    omega
  unfold seconds
  rw [hdays]

theorem day_lt (m : Moment) : m.date.day < 2 ^ 8 := by
  have hlast := m.date.dayIn.last
  have hlen : monthDays (isLeap m.date.year) m.date.month ≤ 31 := by
    unfold monthDays
    repeat' split
    all_goals decide
  omega

/-- A later moment has more seconds. -/
theorem seconds_lt_of_fields (hlt : m.fields < m'.fields) : m.seconds < m'.seconds := by
  have hhour := m.hour_lt
  have hminute := m.minute_lt
  have hsecond := m.second_lt
  rw [seconds_eq_number, seconds_eq_number]
  by_cases hdate : m.date.fields < m'.date.fields
  · have hnum := Date.number_lt_of_fields hdate
    omega
  · -- the same date: the time of the day decides
    simp only [fields, Date.fields, List.cons_lt_cons_iff, List.lt_irrefl, and_false, or_false]
      at hlt hdate
    have hsame : m.date.year = m'.date.year ∧ m.date.month = m'.date.month ∧
        m.date.day = m'.date.day := by omega
    have hnum : m.date.number = m'.date.number := by
      unfold Date.number Date.ofYear
      rw [hsame.1, hsame.2.1, hsame.2.2]
    omega

theorem mktime_seconds (hyear : m.date.year < 2 ^ 23) :
    mktime m.date.year m.date.month m.date.day m.hour m.minute m.second = m.seconds := by
  have hmonth := m.date.dayIn.month
  rw [seconds_eq_number]
  exact mktime_eq m.date.year_pos hyear hmonth.1 hmonth.2 m.day_lt m.hour_lt m.minute_lt m.second_lt
    ((Nat.add_assoc _ _ _).trans m.date.number_add_one.symm)

theorem mktimeChecked_seconds (hyear : m.date.year < 2 ^ 23) :
    mktimeChecked m.date.year m.date.month m.date.day m.hour m.minute m.second =
      some (m.seconds : Int) := by
  have hpos := m.date.year_pos
  have hmonth := m.date.dayIn.month
  have hday := m.day_lt
  have hhour := m.hour_lt
  have hminute := m.minute_lt
  have hsecond := m.second_lt
  obtain ⟨hfront, hback⟩ := days_eq hpos hmonth.1 hmonth.2
    ((Nat.add_assoc _ _ _).trans m.date.number_add_one.symm)
  have hseconds : (m.seconds : Int) =
      (((m.date.number : Int) * 24 + m.hour) * 60 + m.minute) * 60 + m.second := by
    rw [seconds_eq_number]
    push_cast
    rfl
  unfold mktimeChecked
  rw [signed_bind (by omega) (by omega), hseconds]
  by_cases htwo : m.date.month ≤ 2
  · -- January and February belong to the year before
    have hsum := daySum_cast (hfront htwo)
    rw [if_pos (by omega), unsigned_bind (by omega) (by omega), unsigned_bind (by omega) (by omega)]
    refine secondsChecked_eq (by omega) (by omega) (by omega) (by omega) (by omega) (by omega)
      (by omega) (by omega) (by omega) (by omega) (by omega) (by omega) (by omega) ?_
    rw [← hsum]
    push_cast [hpos]
    congr 1
    omega
  · -- from March on the year is taken as it is
    have hsum := daySum_cast (hback (by omega))
    rw [if_neg (by omega)]
    refine secondsChecked_eq (by omega) (by omega) (by omega) (by omega) (by omega) (by omega)
      (by omega) (by omega) (by omega) (by omega) (by omega) (by omega) (by omega) ?_
    rw [← hsum]
    omega

/-- **`mktime` counts seconds exactly.** It gives the calendar's count, its operations are exact, and
a later moment gets a greater number. -/
theorem mktime_counts (m : Moment) (hyear : m.date.year ≤ 1000000) :
    mktime m.date.year m.date.month m.date.day m.hour m.minute m.second = m.seconds ∧
    mktimeChecked m.date.year m.date.month m.date.day m.hour m.minute m.second =
      some (m.seconds : Int) ∧
    ∀ m' : Moment, m'.date.year ≤ 1000000 → m.fields < m'.fields →
      mktime m.date.year m.date.month m.date.day m.hour m.minute m.second <
        mktime m'.date.year m'.date.month m'.date.day m'.hour m'.minute m'.second := by
  refine ⟨mktime_seconds (by omega), mktimeChecked_seconds (by omega), fun m' hyear' hlt => ?_⟩
  rw [mktime_seconds (by omega), mktime_seconds (by omega)]
  exact seconds_lt_of_fields hlt

/-- The last second of a leap day and the second after it. -/
theorem mktime_counts_leap : mktime 2012 2 29 23 59 59 < mktime 2012 3 1 0 0 0 :=
  (mktime_counts (Moment.mk ⟨2012, 2, 29, by decide, ⟨by decide, by decide, by decide⟩⟩ 23 59 59 0
    (by decide) (by decide) (by decide) (by decide)) (by decide)).2.2
    (Moment.mk ⟨2012, 3, 1, by decide, ⟨by decide, by decide, by decide⟩⟩ 0 0 0 0
      (by decide) (by decide) (by decide) (by decide)) (by decide) (by decide)

end Moment

end NorlitOS
