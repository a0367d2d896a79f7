import Mathlib.Order.Nat

/-!
# The proleptic Gregorian calendar

Days are numbered from 1 January of year 1 on, which has the number 0. A day is found by its year
and its day of the year, and that one by its month and its day of the month; both pairs are unique.
-/

namespace Gregorian

/-! ## Years

Counting days by years comes down to counting the 29 February before a year. Days of different
years have different numbers, so a number belongs to one day of one year. -/

/-- February has 29 days. -/
def isLeap (y : Nat) : Bool := (y % 4 = 0 ∧ y % 100 ≠ 0) ∨ y % 400 = 0

/-- The days of a year. -/
def yearLength (leap : Bool) : Nat := if leap then 366 else 365

/-- The leap years among the first `n`. -/
def leapDays (n : Nat) : Nat := n / 4 - n / 100 + n / 400

/-- The days in front of year `y`. -/
def yearStart (y : Nat) : Nat := 365 * (y - 1) + leapDays (y - 1)

variable {y y' m m' d d' n n' : Nat} {leap : Bool}

/-- One more in a leap year. -/
theorem leapDays_succ (n : Nat) :
    leapDays (n + 1) = leapDays n + if isLeap (n + 1) then 1 else 0 := by
  have hle : n / 100 ≤ n / 4 := Nat.div_le_div_left (by decide) (by decide)
  unfold leapDays isLeap
  simp only [decide_eq_true_eq, Nat.succ_div, Nat.dvd_iff_mod_eq_zero]
  -- a multiple of 400 is one of 100, and that one of 4
  by_cases h4 : (n + 1) % 4 = 0
  · by_cases h100 : (n + 1) % 100 = 0
    · by_cases h400 : (n + 1) % 400 = 0
      · simp only [h4, h100, h400, ne_eq, not_true_eq_false, and_false, or_true, if_true]
        omega
      · simp only [h4, h100, h400, ne_eq, not_true_eq_false, and_false, or_self, if_true, if_false]
        omega
    · have h400 : ¬ (n + 1) % 400 = 0 := by omega
      simp only [h4, h100, h400, ne_eq, not_false_eq_true, and_self, or_false, if_true, if_false]
      omega
  · have h100 : ¬ (n + 1) % 100 = 0 := by omega
    have h400 : ¬ (n + 1) % 400 = 0 := by omega
    simp only [h4, h100, h400, false_and, or_self, if_false]
    omega

/-- A year begins where the one before it ends. -/
theorem yearStart_succ (hy : 1 ≤ y) : yearStart (y + 1) = yearStart y + yearLength (isLeap y) := by
  obtain ⟨n, rfl⟩ : ∃ n, y = n + 1 := ⟨y - 1, by omega⟩
  have hsucc := leapDays_succ n
  unfold yearStart yearLength
  rw [Nat.add_sub_cancel, Nat.add_sub_cancel, hsucc]
  split <;> omega

/-- So a later year begins at the end of an earlier one or behind it. -/
theorem yearStart_mono (hy : 1 ≤ y) (hlt : y < y') :
    yearStart y + yearLength (isLeap y) ≤ yearStart y' := by
  obtain ⟨k, rfl⟩ : ∃ k, y' = y + 1 + k := ⟨y' - (y + 1), by omega⟩
  clear hlt
  induction k with
  | zero => exact (yearStart_succ hy).ge
  | succ k ih =>
    have hsucc := yearStart_succ (show 1 ≤ y + 1 + k by omega)
    rw [show y + 1 + (k + 1) = y + 1 + k + 1 by omega]
    omega

/-- The days of the first `n` years, one year after the other. -/
def daysOfYears : Nat → Nat
  | 0 => 0
  | n + 1 => daysOfYears n + yearLength (isLeap (n + 1))

/-- The closed form is the sum over the years. -/
theorem daysOfYears_eq (n : Nat) : daysOfYears n = yearStart (n + 1) := by
  induction n with
  | zero => rfl
  | succ n ih => rw [daysOfYears, ih, ← yearStart_succ (Nat.le_add_left 1 n)]

/-- Day `n` of year `y`, counted from 1. -/
structure DayOf (y n : Nat) : Prop where
  year : 1 ≤ y
  first : 1 ≤ n
  last : n ≤ yearLength (isLeap y)

/-- A number is one day of one year. -/
theorem DayOf.unique (h : DayOf y n) (h' : DayOf y' n') (heq : yearStart y + n = yearStart y' + n') :
    y = y' ∧ n = n' := by
  have hyear : y = y' := by
    rcases Nat.lt_trichotomy y y' with hlt | hy | hlt
    · have hmono := yearStart_mono h.year hlt
      have hlast := h.last
      have hfirst := h'.first
      omega
    · exact hy
    · have hmono := yearStart_mono h'.year hlt
      have hlast := h'.last
      have hfirst := h.first
      omega
  subst hyear
  exact ⟨rfl, Nat.add_left_cancel heq⟩

/-! ## Months

The same inside a year, where the lengths come from a table. -/

def monthDays (leap : Bool) : Nat → Nat
  | 2 => if leap then 29 else 28
  | 4 => 30
  | 6 => 30
  | 9 => 30
  | 11 => 30
  | _ => 31

/-- No month is empty. -/
theorem monthDays_pos (leap : Bool) (m : Nat) : 1 ≤ monthDays leap m := by
  unfold monthDays
  split
  · split <;> decide
  all_goals decide

/-- The days of the first `m` months. -/
def daysThrough (leap : Bool) : Nat → Nat
  | 0 => 0
  | m + 1 => daysThrough leap m + monthDays leap (m + 1)

/-- The twelve months make up the year. -/
theorem daysThrough_twelve : daysThrough leap 12 = yearLength leap := by
  cases leap <;> rfl

theorem daysThrough_mono (hle : m ≤ m') : daysThrough leap m ≤ daysThrough leap m' := by
  induction hle with
  | refl => exact le_rfl
  | step _ ih => exact ih.trans (Nat.le_add_right _ _)

/-- Day `d` of month `m`. -/
structure DayIn (leap : Bool) (m d : Nat) : Prop where
  month : 1 ≤ m ∧ m ≤ 12
  first : 1 ≤ d
  last : d ≤ monthDays leap m

/-- A day of a month is over before the month is. -/
theorem DayIn.daysThrough_le (h : DayIn leap m d) : daysThrough leap (m - 1) + d ≤ daysThrough leap m := by
  obtain ⟨k, rfl⟩ : ∃ k, m = k + 1 := ⟨m - 1, by have := h.month; omega⟩
  exact Nat.add_le_add_left h.last _

/-- A day of the year is one day of one month. -/
theorem DayIn.unique (h : DayIn leap m d) (h' : DayIn leap m' d')
    (heq : daysThrough leap (m - 1) + d = daysThrough leap (m' - 1) + d') : m = m' ∧ d = d' := by
  have hmonth : m = m' := by
    rcases Nat.lt_trichotomy m m' with hlt | hm | hlt
    · have hle := h.daysThrough_le
      have hmono : daysThrough leap m ≤ daysThrough leap (m' - 1) := daysThrough_mono (by omega)
      have hfirst := h'.first
      omega
    · exact hm
    · have hle := h'.daysThrough_le
      have hmono : daysThrough leap m' ≤ daysThrough leap (m - 1) := daysThrough_mono (by omega)
      have hfirst := h.first
      omega
  subst hmonth
  exact ⟨rfl, Nat.add_left_cancel heq⟩

/-! ## Dates

A date is a year, a month and a day that exist. The next date is the one whose number is one more.
-/

/-- A day by year, month and day of the month. -/
structure Date where
  year : Nat
  month : Nat
  day : Nat
  year_pos : 1 ≤ year
  dayIn : DayIn (isLeap year) month day

namespace Date

/-- The day of the year, counted from 1. -/
def ofYear (a : Date) : Nat := daysThrough (isLeap a.year) (a.month - 1) + a.day

/-- The days in front of the date. -/
def number (a : Date) : Nat := yearStart a.year + a.ofYear - 1

/-- A date is a day of its year. -/
theorem dayOf (a : Date) : DayOf a.year a.ofYear where
  year := a.year_pos
  first := a.dayIn.first.trans (Nat.le_add_left _ _)
  last := by
    rw [← daysThrough_twelve]
    exact a.dayIn.daysThrough_le.trans (daysThrough_mono a.dayIn.month.2)

/-- Counted from 1 in the year, a date is counted from 1 in all. -/
theorem number_add_one (a : Date) : a.number + 1 = yearStart a.year + a.ofYear := by
  have hfirst := a.dayOf.first
  unfold number
  omega

/-- Year, month and day, in the order of the calendar. -/
def fields (a : Date) : List Nat := [a.year, a.month, a.day]

variable {a b : Date}

/-- A later date has a greater number. -/
theorem number_lt_of_fields (hlt : a.fields < b.fields) : a.number < b.number := by
  have hnum := a.number_add_one
  have hnum' := b.number_add_one
  suffices h : yearStart a.year + a.ofYear < yearStart b.year + b.ofYear by omega
  simp only [fields, List.cons_lt_cons_iff, List.lt_irrefl, and_false, or_false] at hlt
  -- a later year, a later month of the year, a later day of the month
  rcases hlt with hyear | ⟨hyear, hmonth | ⟨hmonth, hday⟩⟩
  · have hmono := yearStart_mono a.year_pos hyear
    have hlast := a.dayOf.last
    have hfirst := b.dayOf.first
    omega
  · have hthrough : daysThrough (isLeap a.year) a.month ≤ daysThrough (isLeap a.year) (b.month - 1) :=
      daysThrough_mono (by omega)
    have hle := a.dayIn.daysThrough_le
    have hfirst := b.dayIn.first
    unfold ofYear
    rw [← hyear]
    omega
  · unfold ofYear
    rw [← hyear, ← hmonth]
    omega

/-- The day after. -/
def next (a : Date) : Date :=
  if hday : a.day < monthDays (isLeap a.year) a.month then
    { a with day := a.day + 1, dayIn := ⟨a.dayIn.month, Nat.le_add_left _ _, hday⟩ }
  else if hmonth : a.month < 12 then
    { a with month := a.month + 1, day := 1,
              dayIn := ⟨⟨Nat.le_add_left _ _, hmonth⟩, le_rfl, monthDays_pos _ _⟩ }
  else
    { year := a.year + 1, month := 1, day := 1, year_pos := Nat.le_add_left _ _,
      dayIn := ⟨by decide, le_rfl, monthDays_pos _ _⟩ }

/-- The days are numbered one after the other. -/
theorem number_next (a : Date) : a.next.number = a.number + 1 := by
  have hnum := a.number_add_one
  have hnext := a.next.number_add_one
  suffices h : yearStart a.next.year + a.next.ofYear = yearStart a.year + a.ofYear + 1 by omega
  unfold next
  have hpos := a.dayIn.month.1
  by_cases hday : a.day < monthDays (isLeap a.year) a.month
  · rw [dif_pos hday]
    rfl
  have hlast : a.day = monthDays (isLeap a.year) a.month := le_antisymm a.dayIn.last (by omega)
  have hthrough : a.ofYear = daysThrough (isLeap a.year) a.month := by
    unfold ofYear
    rw [hlast]
    obtain ⟨k, hk⟩ : ∃ k, a.month = k + 1 := ⟨a.month - 1, by omega⟩
    rw [hk]
    rfl
  rw [dif_neg hday]
  -- the last day of a month, or of the year
  by_cases hmonth : a.month < 12
  · rw [dif_pos hmonth, hthrough]
    rfl
  · have htwelve : a.month = 12 := le_antisymm a.dayIn.month.2 (by omega)
    rw [dif_neg hmonth, hthrough, htwelve, daysThrough_twelve]
    show yearStart (a.year + 1) + 1 = _
    rw [yearStart_succ a.year_pos]

end Date

end Gregorian
