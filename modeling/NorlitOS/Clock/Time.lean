import NorlitOS.Machine

/-!
# Times and dates (`kernel/lib.c`)

A time is a `u64` number of milliseconds since the beginning of year 1. A function that does not
return gives `none`.
-/

namespace NorlitOS

/-! ## Division of `u64` -/

/-- `while ((s64)den >= 0)`: `den` is shifted to the left, and `qbit` with it. -/
def justify : Nat → Nat → Nat → Nat × Nat
  | 0, den, qbit => (den, qbit)
  | n + 1, den, qbit =>
    if den < 2 ^ 63 then justify n (den * 2 % 2 ^ 64) (qbit * 2 % 2 ^ 64) else (den, qbit)

/-- `while (qbit)`: the quotient and what is left of `num`. -/
def divLoop : Nat → Nat → Nat → Nat → Nat → Nat × Nat
  | 0, num, quot, _, _ => (quot, num)
  | n + 1, num, quot, den, qbit =>
    if qbit = 0 then (quot, num)
    else if den ≤ num then divLoop n (num - den) (quot + qbit) (den / 2) (qbit / 2)
    else divLoop n num quot (den / 2) (qbit / 2)

/-- `do_divmod64`: the quotient and the remainder. Both loops go round once for a bit of a `u64`. A
division by zero is passed on to the processor. -/
def doDivmod64 (num den : Nat) : Option (Nat × Nat) :=
  if den = 0 then none
  else
    let (den, qbit) := justify 64 den 1
    some (divLoop 64 num 0 den qbit)

/-! ## Binary-coded decimals -/

/-- `BCD2BIN`. -/
def bcd2bin (val : Nat) : Nat := (val % 16 + val / 16 * 10) % 256

/-- `BIN2BCD`. -/
def bin2bcd (val : Nat) : Nat := (val / 10 * 16 + val % 10) % 256

/-! ## Calendar -/

structure Time where
  year : Nat
  month : Nat
  day : Nat
  hour : Nat
  minute : Nat
  second : Nat
  milli : Nat
  weekday : Nat

/-- `mktime`: the seconds. January and February belong to the year before. -/
def mktime (year mon day hour min sec : Nat) : Nat :=
  let mon := (mon + 254) % 256
  let (year, mon) := if mon = 0 ∨ 128 ≤ mon then (sub32 year 1, (mon + 12) % 256) else (year, mon)
  let days := add32 (add32 (add32 (sub32 (year / 4) (year / 100)) (year / 400)) (367 * mon / 12)) day
  let days := days + year * 365 % 2 ^ 32 + (2 ^ 64 - 337)
  (((days * 24 + hour) * 60 + min) * 60 + sec) % 2 ^ 64

/-- `(!(year%4)&&(year%100))||!(year%400)`. -/
def leapYear (year : Nat) : Bool := (year % 4 = 0 ∧ year % 100 ≠ 0) ∨ year % 400 = 0

/-- `while (days <= 0)`: back to the year before. -/
def yearBack : Nat → Int → Nat → Option (Int × Nat)
  | 0, _, _ => none
  | n + 1, days, year =>
    if days ≤ 0 then yearBack n (days + (365 + if leapYear year then 1 else 0)) (sub32 year 1)
    else some (days, year)

/-- `mday`: the days in front of each month. -/
def mday : List Nat := [0, 31, 59, 90, 120, 151, 181, 212, 243, 273, 304, 334, 365]

/-- The month and the day of the month for day `days` of a year. -/
def monthAndDay (leap : Bool) (days : Nat) : Nat × Nat :=
  if leap ∧ days = 60 then (2, 29)
  else
    let days := if leap ∧ 60 < days then days - 1 else days
    let bmon := days / 30
    let mon := days / 31
    let mon := if bmon ≠ mon ∧ mday.getD bmon 0 < days then bmon else mon
    (mon + 1, days - mday.getD mon 0)

/-- `gmtime`. `days` is an `s32` for the code. -/
def gmtime (time : Nat) : Option Time := do
  let (time, milli) ← doDivmod64 time 1000
  let (time, second) ← doDivmod64 time 60
  let (time, minute) ← doDivmod64 time 60
  let (time, hour) ← doDivmod64 time 24
  let (_, weekday) ← doDivmod64 ((time + 1) % 2 ^ 64) 7
  let (year, time) ← doDivmod64 time 365
  let year := year % 2 ^ 32
  let days := Int.bmod (time - (year / 4 : Nat) + (year / 100 : Nat) - (year / 400 : Nat) + 1) (2 ^ 32)
  let (days, year) ← yearBack (2 ^ 32) days year
  let year := add32 year 1
  let (month, day) := monthAndDay (leapYear year) days.toNat
  some { year, month, day, hour, minute, second, milli, weekday }

end NorlitOS
