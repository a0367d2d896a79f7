import NorlitOS.Clock.Division
import NorlitOS.Lib.Gregorian

/-!
# `gmtime` and `mktime`

`gmtime` takes the number of days apart: it guesses a year that is not too early and goes back from
there, and it looks for the month with two divisions. Only the last step goes wrong, and only for
one day of the year. `mktime` is right for every date, and also for the day 0 of February that
`gmtime` makes of 31 January.
-/

namespace NorlitOS

open Gregorian

/-! ## The day of the year and its month

The two loops of `gmtime`. The first goes back from a year that is late enough, and the second is
a division that is right for all days but the last of January. -/

theorem leapYear_eq (y : Nat) : leapYear y = isLeap y := rfl

theorem yearBack_spec {n year : Nat} {days : Int} {N : Nat} (hfuel : year < n) (hn : n ≤ 2 ^ 32)
    (hday : (yearStart (year + 1) : Int) + days = N + 1)
    (hlast : days ≤ yearLength (isLeap (year + 1))) :
    ∃ d y : Nat, yearBack n days year = some ((d : Int), y) ∧ DayOf (y + 1) d ∧ y ≤ year ∧
      yearStart (y + 1) + d = N + 1 := by
  induction n generalizing year days with
  | zero => omega
  | succ n ih =>
    rw [yearBack]
    by_cases hneg : days ≤ 0
    · rw [if_pos hneg]
      -- there is a year before, the day is in front of this one
      have hpos : 1 ≤ year := by
        by_contra h
        have hzero : year = 0 := by omega
        subst hzero
        have hstart : yearStart (0 + 1) = 0 := rfl
        omega
      have hstart := yearStart_succ hpos
      have hsub : sub32 year 1 = year - 1 := sub32_of_le hpos (by omega)
      have hyear : year - 1 + 1 = year := by omega
      have hlen : (365 + if leapYear year then 1 else 0 : Int) = yearLength (isLeap year) := by
        rw [leapYear_eq]
        unfold yearLength
        split <;> rfl
      rw [hlen, hsub]
      obtain ⟨d, y, hback, hdayOf, hle, hN⟩ := @ih (year - 1)
        (days + yearLength (isLeap year)) (by omega) (by omega)
        (by rw [hyear]; omega) (by rw [hyear]; omega)
      exact ⟨d, y, hback, hdayOf, by omega, hN⟩
    · rw [if_neg hneg]
      obtain ⟨d, rfl⟩ := Int.eq_ofNat_of_zero_le (by omega : 0 ≤ days)
      exact ⟨d, year, rfl, ⟨Nat.le_add_left _ _, by omega, by omega⟩, le_rfl, by omega⟩

/-- The day is found again in its month, unless it is 31 January. -/
theorem monthAndDay_spec {leap : Bool} {n : Nat} (hfirst : 1 ≤ n) (hlast : n ≤ yearLength leap) :
    ∃ m d, monthAndDay leap n = (m, d) ∧ 1 ≤ m ∧ m ≤ 12 ∧ d ≤ 31 ∧
      daysThrough leap (m - 1) + d = n ∧ (d = 0 ↔ n = 31) ∧ d ≤ monthDays leap m := by
  have h : ∀ leap : Bool, ∀ n < 367, 1 ≤ n → n ≤ yearLength leap →
      1 ≤ (monthAndDay leap n).1 ∧ (monthAndDay leap n).1 ≤ 12 ∧ (monthAndDay leap n).2 ≤ 31 ∧
      daysThrough leap ((monthAndDay leap n).1 - 1) + (monthAndDay leap n).2 = n ∧
      ((monthAndDay leap n).2 = 0 ↔ n = 31) ∧
      (monthAndDay leap n).2 ≤ monthDays leap (monthAndDay leap n).1 := by
    decide +kernel
  have hlen : yearLength leap ≤ 366 := by cases leap <;> decide
  exact ⟨_, _, rfl, h leap n (by omega) hfirst hlast⟩

/-! ## `gmtime`

The two parts together: what it returns is the calendar's day, in the year of that day, with the
month and the day as the division gives them. -/

/-- What `gmtime` makes of a time: the time of the day, the weekday, and the day `n` of the year. -/
structure Told (time : Nat) (r : Time) (n : Nat) : Prop where
  milli : r.milli = time % 1000
  second : r.second = time / 1000 % 60
  minute : r.minute = time / 60000 % 60
  hour : r.hour = time / 3600000 % 24
  weekday : r.weekday = (time / 86400000 + 1) % 7
  dayOf : DayOf r.year n
  day : yearStart r.year + n = time / 86400000 + 1
  month : (r.month, r.day) = monthAndDay (isLeap r.year) n

/-- The first guess is not too early. -/
theorem guess_spec {N : Nat} (hN : N < 2 ^ 38) :
    ∃ (d y : Nat), yearBack (2 ^ 32) (Int.bmod (((N % 365 : Nat) : Int) - (N / 365 / 4 : Nat)
        + (N / 365 / 100 : Nat) - (N / 365 / 400 : Nat) + 1) (2 ^ 32)) (N / 365) = some ((d : Int), y) ∧
      DayOf (y + 1) d ∧ y ≤ N / 365 ∧ yearStart (y + 1) + d = N + 1 := by
  have hsmall : N / 365 < 2 ^ 30 := by omega
  rw [Int.bmod_eq_of_le_mul_two (by omega) (by omega)]
  have hlen : 365 ≤ yearLength (isLeap (N / 365 + 1)) := by
    unfold yearLength
    split <;> decide
  refine yearBack_spec (by omega) le_rfl ?_ (by omega)
  unfold yearStart leapDays
  rw [Nat.add_sub_cancel]
  omega

theorem gmtime_spec {time : Nat} (ht : time < 2 ^ 64) : ∃ r n, gmtime time = some r ∧ Told time r n := by
  obtain ⟨d, y, hback, hdayOf, hle, hday⟩ := guess_spec (N := time / 86400000) (by omega)
  have hsecond : time / 1000 / 60 = time / 60000 := Nat.div_div_eq_div_mul _ _ _
  have hminute : time / 60000 / 60 = time / 3600000 := Nat.div_div_eq_div_mul _ _ _
  have hhour : time / 3600000 / 24 = time / 86400000 := Nat.div_div_eq_div_mul _ _ _
  have hweek : (time / 86400000 + 1) % 2 ^ 64 = time / 86400000 + 1 := Nat.mod_eq_of_lt (by omega)
  have hyear : time / 86400000 / 365 % 2 ^ 32 = time / 86400000 / 365 := Nat.mod_eq_of_lt (by omega)
  have hadd : add32 y 1 = y + 1 := add32_of_lt (by omega)
  -- the fields one by one, from the divisions and the two loops
  refine ⟨{ year := y + 1, month := (monthAndDay (isLeap (y + 1)) d).1,
            day := (monthAndDay (isLeap (y + 1)) d).2, hour := time / 3600000 % 24,
            minute := time / 60000 % 60, second := time / 1000 % 60, milli := time % 1000,
            weekday := (time / 86400000 + 1) % 7 }, d, ?_, ?_⟩
  · -- the divisions one after the other
    unfold gmtime
    rw [doDivmod64_eq ht (by decide) (by decide)]
    dsimp only [Option.bind_eq_bind, Option.bind_some]
    rw [doDivmod64_eq (by omega) (by decide) (by decide), hsecond]
    dsimp only [Option.bind_some]
    rw [doDivmod64_eq (by omega) (by decide) (by decide), hminute]
    dsimp only [Option.bind_some]
    rw [doDivmod64_eq (by omega) (by decide) (by decide), hhour]
    dsimp only [Option.bind_some]
    rw [hweek, doDivmod64_eq (by omega) (by decide) (by decide),
      doDivmod64_eq (by omega) (by decide) (by decide)]
    dsimp only [Option.bind_some]
    rw [hyear, hback]
    dsimp only [Option.bind_some]
    rw [hadd, leapYear_eq, Int.toNat_natCast]
  · exact ⟨rfl, rfl, rfl, rfl, rfl, hdayOf, hday, rfl⟩

/-! ## `mktime`

The formula with March as the first month and the leap day at the end of the year. -/

/-- The table of months by one division, from March on and for the two months in front of March. -/
theorem daysThrough_eq (leap : Bool) {mon : Nat} (hmon : 1 ≤ mon) (hlast : mon ≤ 12) :
    (mon ≤ 2 → daysThrough leap (mon - 1) + 336 = 367 * (mon + 10) / 12) ∧
    (2 < mon → daysThrough leap (mon - 1) = 367 * (mon - 2) / 12 + 29 + if leap then 1 else 0) := by
  have h : ∀ leap : Bool, ∀ mon < 13, 1 ≤ mon →
      (mon ≤ 2 → daysThrough leap (mon - 1) + 336 = 367 * (mon + 10) / 12) ∧
      (2 < mon → daysThrough leap (mon - 1) = 367 * (mon - 2) / 12 + 29 + if leap then 1 else 0) := by
    decide
  exact h leap mon (by omega) hmon

/-- The number of a day, with the months counted from March of year `year`. -/
theorem daySum_eq {year mon day : Nat} (hsmall : year < 2 ^ 23) (hmon : mon ≤ 12) (hday : day < 2 ^ 8) :
    add32 (add32 (add32 (sub32 (year / 4) (year / 100)) (year / 400)) (367 * mon / 12)) day
      + year * 365 % 2 ^ 32 = leapDays year + 367 * mon / 12 + day + 365 * year := by
  have hle : year / 100 ≤ year / 4 := Nat.div_le_div_left (by decide) (by decide)
  unfold leapDays
  rw [sub32_of_le hle (by omega), add32_of_lt (a := year / 4 - year / 100) (by omega),
    add32_of_lt (b := 367 * mon / 12) (by omega), add32_of_lt (by omega), Nat.mod_eq_of_lt (by omega),
    Nat.mul_comm year]

/-- The bias of a year is taken away modulo 2^64. -/
theorem seconds_eq {days N hour min sec : Nat} (hN : N < 2 ^ 38) (hdays : days = N + 337)
    (hhour : hour < 24) (hmin : min < 60) (hsec : sec < 60) :
    (((days + (2 ^ 64 - 337)) * 24 + hour) * 60 + min) * 60 + sec =
      ((N * 24 + hour) * 60 + min) * 60 + sec + 86400 * 2 ^ 64 ∧
    ((N * 24 + hour) * 60 + min) * 60 + sec < 2 ^ 64 := by
  omega

/-- The days are counted by a formula from March on. Any day will do for which the table of months
agrees. -/
theorem days_eq {year mon day N : Nat} (hyear : 1 ≤ year) (hmon : 1 ≤ mon) (hlast : mon ≤ 12)
    (hN : yearStart year + daysThrough (isLeap year) (mon - 1) + day = N + 1) :
    (mon ≤ 2 → leapDays (year - 1) + 367 * (mon + 10) / 12 + day + 365 * (year - 1) = N + 337) ∧
    (2 < mon → leapDays year + 367 * (mon - 2) / 12 + day + 365 * year = N + 337) := by
  obtain ⟨hfront, hback⟩ := daysThrough_eq (isLeap year) hmon hlast
  have hleap : leapDays year = leapDays (year - 1) + if isLeap year then 1 else 0 := by
    have hsucc := leapDays_succ (year - 1)
    rw [Nat.sub_add_cancel hyear] at hsucc
    exact hsucc
  have hstart : yearStart year = 365 * (year - 1) + leapDays (year - 1) := rfl
  refine ⟨fun htwo => ?_, fun htwo => ?_⟩
  · have hfront := hfront htwo
    omega
  · have hback := hback htwo
    omega

/-- `mktime` counts the seconds of such a day. -/
theorem mktime_eq {year mon day hour min sec N : Nat} (hyear : 1 ≤ year) (hsmall : year < 2 ^ 23)
    (hmon : 1 ≤ mon) (hlast : mon ≤ 12) (hday : day < 2 ^ 8) (hhour : hour < 24) (hmin : min < 60)
    (hsec : sec < 60) (hN : yearStart year + daysThrough (isLeap year) (mon - 1) + day = N + 1) :
    mktime year mon day hour min sec = ((N * 24 + hour) * 60 + min) * 60 + sec := by
  obtain ⟨hfront, hback⟩ := days_eq hyear hmon hlast hN
  have hbound : yearStart year ≤ 366 * year := by
    unfold yearStart leapDays
    omega
  have hthrough : daysThrough (isLeap year) (mon - 1) ≤ 366 := by
    have hmono : daysThrough (isLeap year) (mon - 1) ≤ daysThrough (isLeap year) 12 :=
      daysThrough_mono (by omega)
    have hlen : yearLength (isLeap year) ≤ 366 := by cases isLeap year <;> decide
    rw [daysThrough_twelve] at hmono
    omega
  unfold mktime
  dsimp only
  by_cases htwo : mon ≤ 2
  · -- in front of March: month 11 or 12 of the year before
    have hback : (mon + 254) % 256 = 0 ∨ 128 ≤ (mon + 254) % 256 := by omega
    have hshift : ((mon + 254) % 256 + 12) % 256 = mon + 10 := by omega
    rw [if_pos hback]
    dsimp only
    rw [hshift, sub32_of_le hyear (by omega), daySum_eq (by omega) (by omega) hday]
    obtain ⟨heq, hlt⟩ := seconds_eq (N := N) (by omega) (hfront htwo) hhour hmin hsec
    rw [heq, Nat.add_mul_mod_self_right, Nat.mod_eq_of_lt hlt]
  · -- from March on
    have hshift : (mon + 254) % 256 = mon - 2 := by omega
    rw [hshift, if_neg (by omega)]
    dsimp only
    rw [daySum_eq hsmall (by omega) hday]
    obtain ⟨heq, hlt⟩ := seconds_eq (N := N) (by omega) (hback (by omega)) hhour hmin hsec
    rw [heq, Nat.add_mul_mod_self_right, Nat.mod_eq_of_lt hlt]

/-- `mktime` takes back what `gmtime` has told, 31 January as well. -/
theorem mktime_told {time n sec : Nat} {r : Time} (h : Told time r n) (hyear : r.year < 2 ^ 23)
    (hsec : sec < 60) :
    mktime r.year r.month r.day r.hour r.minute sec = time / 60000 * 60 + sec := by
  obtain ⟨m, d, hmd, hpos, hlast, hd, hthrough, -, -⟩ := monthAndDay_spec h.dayOf.first h.dayOf.last
  have hmonth := h.month.trans hmd
  rw [Prod.mk.injEq] at hmonth
  rw [h.hour, h.minute, hmonth.1, hmonth.2]
  have hday := h.day
  rw [mktime_eq (N := time / 86400000) h.dayOf.year hyear hpos hlast (by omega)
    (Nat.mod_lt _ (by decide)) (Nat.mod_lt _ (by decide)) hsec (by omega)]
  omega

/-- In another year it gives another day. -/
theorem mktime_ne (year sec : Nat) {time n : Nat} {r : Time} (h : Told time r n) (hpos : 1 ≤ year)
    (hyear : year < 2 ^ 12) (hne : year ≠ r.year) (hsec : sec < 60) :
    ∃ N, mktime year r.month r.day r.hour r.minute sec =
        ((N * 24 + time / 3600000 % 24) * 60 + time / 60000 % 60) * 60 + sec ∧
      N < 2 ^ 21 ∧ N ≠ time / 86400000 := by
  obtain ⟨m, d, hmd, hm, hlast, hd, hthrough, -, -⟩ := monthAndDay_spec h.dayOf.first h.dayOf.last
  have hmonth := h.month.trans hmd
  rw [Prod.mk.injEq] at hmonth
  have hfirst := h.dayOf.first
  -- the same month and day are a day of the other year
  have hday : ∀ leap leap' : Bool, ∀ m < 13, ∀ d < 32, 1 ≤ daysThrough leap (m - 1) + d →
      1 ≤ daysThrough leap' (m - 1) + d ∧ daysThrough leap' (m - 1) + d ≤ yearLength leap' := by
    decide +kernel
  obtain ⟨hone, hlen⟩ := hday (isLeap r.year) (isLeap year) m (by omega) d (by omega) (by omega)
  have hdayOf : DayOf year (daysThrough (isLeap year) (m - 1) + d) := ⟨hpos, hone, hlen⟩
  have hmax : yearLength (isLeap year) ≤ 366 := by cases isLeap year <;> decide
  have hstart : yearStart year ≤ 366 * year := by
    unfold yearStart leapDays
    omega
  refine ⟨yearStart year + (daysThrough (isLeap year) (m - 1) + d) - 1, ?_, by omega, ?_⟩
  · rw [h.hour, h.minute, hmonth.1, hmonth.2]
    exact mktime_eq hpos (by omega) hm hlast (by omega) (Nat.mod_lt _ (by decide))
      (Nat.mod_lt _ (by decide)) hsec (by omega)
  · intro heq
    have hnum := h.day
    exact hne (hdayOf.unique h.dayOf (by omega)).1

/-! ## There and back

Nothing is lost but one day of each year, for which `gmtime` says the day 0 of February. `mktime`
takes this for the day before the first, so that the number comes out right. -/

/-- A date and a time of the day. -/
structure Moment where
  date : Date
  hour : Nat
  minute : Nat
  second : Nat
  milli : Nat
  hour_lt : hour < 24
  minute_lt : minute < 60
  second_lt : second < 60
  milli_lt : milli < 1000

namespace Moment

/-- `mktime(...) * 1000 + ms`. -/
def stamp (m : Moment) : Nat :=
  (mktime m.date.year m.date.month m.date.day m.hour m.minute m.second * 1000 + m.milli) % 2 ^ 64

/-- The same time on the next day. -/
def tomorrow (m : Moment) : Moment := { m with date := m.date.next }

/-- `gmtime` gives the moment field by field. -/
structure Exact (m : Moment) (r : Time) : Prop where
  year : r.year = m.date.year
  month : r.month = m.date.month
  day : r.day = m.date.day
  hour : r.hour = m.hour
  minute : r.minute = m.minute
  second : r.second = m.second
  milli : r.milli = m.milli

/-- The moment comes back, the weekday is one more on the next day, and 1/1/1 is a Monday. -/
def RoundTrip (m : Moment) : Prop :=
  ∃ r, gmtime m.stamp = some r ∧ m.Exact r ∧
    (∃ r', gmtime m.tomorrow.stamp = some r' ∧ r'.weekday = (r.weekday + 1) % 7) ∧
    (m.date.year = 1 ∧ m.date.month = 1 ∧ m.date.day = 1 → r.weekday = 1)

variable {m : Moment}

theorem number_lt (hyear : m.date.year < 2 ^ 23) : m.date.number < 2 ^ 33 := by
  have hnum := m.date.number_add_one
  have hlast := m.date.dayOf.last
  have hstart : yearStart m.date.year = 365 * (m.date.year - 1) + leapDays (m.date.year - 1) := rfl
  have hlen : yearLength (isLeap m.date.year) ≤ 366 := by cases isLeap m.date.year <;> decide
  have hleap : leapDays (m.date.year - 1) ≤ m.date.year := by
    unfold leapDays
    omega
  omega

theorem stamp_eq (hyear : m.date.year < 2 ^ 23) :
    m.stamp = (((m.date.number * 24 + m.hour) * 60 + m.minute) * 60 + m.second) * 1000 + m.milli := by
  have hmonth := m.date.dayIn.month
  have hday := m.date.dayIn.last
  have hlen : monthDays (isLeap m.date.year) m.date.month ≤ 31 := by
    unfold monthDays
    repeat' split
    all_goals decide
  have hlt := number_lt hyear
  have hhour := m.hour_lt
  have hminute := m.minute_lt
  have hsecond := m.second_lt
  have hmilli := m.milli_lt
  unfold stamp
  rw [mktime_eq m.date.year_pos hyear hmonth.1 hmonth.2 (by omega) hhour hminute hsecond
    ((Nat.add_assoc _ _ _).trans m.date.number_add_one.symm), Nat.mod_eq_of_lt (by omega)]

/-- What `gmtime` says of a moment: all of it but the month and the day is right. -/
theorem told (hyear : m.date.year < 2 ^ 23) :
    ∃ r, gmtime m.stamp = some r ∧ Told m.stamp r m.date.ofYear ∧ r.year = m.date.year ∧
      r.weekday = (m.date.number + 1) % 7 := by
  have hstamp := stamp_eq hyear
  have hlt := number_lt hyear
  have hhour := m.hour_lt
  have hminute := m.minute_lt
  have hsecond := m.second_lt
  have hmilli := m.milli_lt
  have hday : m.stamp / 86400000 = m.date.number := by omega
  obtain ⟨r, n, hr, htold⟩ := gmtime_spec (show m.stamp < 2 ^ 64 by omega)
  have hnum := htold.day
  rw [hday, m.date.number_add_one] at hnum
  obtain ⟨hy, rfl⟩ := htold.dayOf.unique m.date.dayOf hnum
  refine ⟨r, hr, htold, hy, ?_⟩
  rw [htold.weekday, hday]

theorem next_year (m : Moment) : m.date.next.year ≤ m.date.year + 1 := by
  unfold Date.next
  repeat' split
  all_goals simp

/-- Day 31 of a year is 31 January. -/
theorem ofYear_eq_iff (a : Date) : a.ofYear = 31 ↔ a.month = 1 ∧ a.day = 31 := by
  constructor
  · intro hday
    have hin : DayIn (isLeap a.year) 1 31 := ⟨by decide, by decide, le_rfl⟩
    exact a.dayIn.unique hin hday
  · rintro ⟨hmonth, hday⟩
    unfold Date.ofYear
    rw [hmonth, hday]
    rfl

theorem exact_iff {r : Time} (hyear : m.date.year < 2 ^ 23) (htold : Told m.stamp r m.date.ofYear)
    (hr : r.year = m.date.year) : m.Exact r ↔ ¬ (m.date.month = 1 ∧ m.date.day = 31) := by
  have hdayOf := m.date.dayOf
  obtain ⟨mon, d, hmd, hpos, hlast, -, hthrough, hzero, hle⟩ :=
    monthAndDay_spec hdayOf.first hdayOf.last
  have hmonth := htold.month
  rw [hr, hmd, Prod.mk.injEq] at hmonth
  rw [← ofYear_eq_iff]
  constructor
  · intro hexact hday
    -- on the last of January the day is told as 0
    have hfirst := m.date.dayIn.first
    rw [← hexact.day, hmonth.2, hzero.mpr hday] at hfirst
    omega
  · intro hday
    -- on any other day the month and the day are those of the calendar
    have hin : DayIn (isLeap m.date.year) mon d :=
      ⟨⟨hpos, hlast⟩, by have := mt hzero.mp hday; omega, hle⟩
    obtain ⟨hmon, hd⟩ := hin.unique m.date.dayIn hthrough
    have hstamp := stamp_eq hyear
    have hhour := m.hour_lt
    have hminute := m.minute_lt
    have hsecond := m.second_lt
    have hmilli := m.milli_lt
    exact { year := hr
            month := hmonth.1.trans hmon
            day := hmonth.2.trans hd
            hour := by rw [htold.hour]; omega
            minute := by rw [htold.minute]; omega
            second := by rw [htold.second]; omega
            milli := by rw [htold.milli]; omega }

theorem weekday_first (hyear : m.date.year = 1) (hmonth : m.date.month = 1) (hday : m.date.day = 1) :
    m.date.number = 0 := by
  unfold Date.number Date.ofYear
  rw [hyear, hmonth, hday]
  rfl

/-- `gmtime` takes a moment back unless it is on 31 January, which it calls 0 February. -/
theorem gmtime_mktime (m : Moment) (hyear : m.date.year ≤ 1000000) :
    m.RoundTrip ↔ ¬ (m.date.month = 1 ∧ m.date.day = 31) := by
  have hnext : m.tomorrow.date.year < 2 ^ 23 := by
    have hle := next_year m
    show m.date.next.year < _
    omega
  obtain ⟨r, hr, htold, hry, hweekday⟩ := told (m := m) (by omega)
  obtain ⟨r', hr', -, -, hweekday'⟩ := told hnext
  -- the weekday is right on every day, so the date decides
  have hexact := exact_iff (by omega) htold hry
  constructor
  · rintro ⟨q, hq, hq', -⟩
    rw [hr, Option.some.injEq] at hq
    subst hq
    exact hexact.mp hq'
  · intro hday
    refine ⟨r, hr, hexact.mpr hday, ⟨r', hr', ?_⟩, ?_⟩
    · have hnumber : m.tomorrow.date.number = m.date.number + 1 := m.date.number_next
      omega
    · rintro ⟨hy, hm, hd⟩
      rw [hweekday, weekday_first hy hm hd]

/-- 29 February 2012. -/
theorem gmtime_mktime_leap :
    (Moment.mk ⟨2012, 2, 29, by decide, ⟨by decide, by decide, by decide⟩⟩ 23 59 59 999
      (by decide) (by decide) (by decide) (by decide)).RoundTrip :=
  (gmtime_mktime _ (by decide)).mpr (by decide)

/-- 31 January 2013. -/
theorem not_exact_january :
    ¬ ∀ m : Moment, m.date.year ≤ 1000000 → ∃ r, gmtime m.stamp = some r ∧ m.Exact r := by
  intro h
  let m : Moment := ⟨⟨2013, 1, 31, by decide, ⟨by decide, by decide, by decide⟩⟩, 0, 0, 0, 0,
    by decide, by decide, by decide, by decide⟩
  obtain ⟨r, hr, hexact⟩ := h m (by decide)
  obtain ⟨q, hq, htold, hqy, -⟩ := told (m := m) (by decide)
  rw [hr, Option.some.injEq] at hq
  subst hq
  exact (exact_iff (by decide) htold hqy).mp hexact (by decide)

end Moment

end NorlitOS
