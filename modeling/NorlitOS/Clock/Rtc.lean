import NorlitOS.Clock.Calendar
import NorlitOS.Lib.Loop

/-!
# The real-time clock (`kernel/driver/rtc.c`)

The clock is read and written through two ports, by the number of a register and its value. Here it
stands still: a register keeps its value until it is written, and only bit 7 of register A comes and
goes.
-/

namespace NorlitOS

/-! ## The registers

Two ports give access to the registers: the number first, then the value. Waiting for bit 7 of
register A is a loop with fuel; the bit goes at some time. -/

structure CMOS where
  /-- The register that `CMOS_DATA_REG` stands for. -/
  address : Nat
  register : Nat → Nat
  /-- Bit 7 of register A, for each time it is read from now on. -/
  updating : Nat → Bool
  /-- No update lasts. -/
  ends : ∀ n, ∃ k, updating (n + k) = false

namespace CMOS

/-- `io_out8(CMOS_ADDRESS_REG, reg)`. -/
def outAddress (reg : Nat) (c : CMOS) : CMOS := { c with address := reg }

/-- `io_out8(CMOS_DATA_REG, value)`. -/
def outData (value : Nat) (c : CMOS) : CMOS :=
  { c with register := Function.update c.register c.address (value % 256) }

/-- `io_in8(CMOS_DATA_REG)`. -/
def inData (c : CMOS) : Nat × CMOS :=
  if c.address = 0x0A then
    (c.register 0x0A % 128 + if c.updating 0 then 128 else 0,
      { c with
        updating := fun n => c.updating (n + 1)
        ends := fun n => by
          obtain ⟨k, hk⟩ := c.ends (n + 1)
          exact ⟨k, by rw [show n + k + 1 = n + 1 + k by omega]; exact hk⟩ })
  else (c.register c.address, c)

/-- `CMOS_read`. -/
def read (reg : Nat) (c : CMOS) : Nat × CMOS := (c.outAddress reg).inData

/-- `CMOS_write`. -/
def write (reg value : Nat) (c : CMOS) : CMOS := (c.outAddress reg).outData value

/-- `while(BIT_TEST(CMOS_read(0x0A),7))`. -/
def waitUpdate : Nat → CMOS → Option CMOS
  | 0, _ => none
  | n + 1, c =>
    let (registerA, c) := c.read 0x0A
    if registerA.testBit 7 then waitUpdate n c else some c

/-! ## `write_RTC`

The fields of the time go into the registers in the mode that register B asks for: binary or BCD,
24 or 12 hours. -/

/-- The hour in 12-hour mode, and `hour_correction`. -/
def hourCorrection (registerB hour : Nat) : Nat × Nat :=
  if ¬ registerB.testBit 1 then
    if hour = 0 then (12, 0x80)
    else if 12 < hour then (hour - 12, 0x80)
    else (hour, 0)
  else (hour, 0)

/-- The binary-coded decimals. -/
def codeTime (registerB : Nat) (tmm : Time) : Time :=
  if ¬ registerB.testBit 2 then
    { tmm with
      second := bin2bcd tmm.second
      minute := bin2bcd tmm.minute
      hour := bin2bcd tmm.hour
      day := bin2bcd tmm.day
      month := bin2bcd tmm.month
      year := bin2bcd (tmm.year % 100) }
  else tmm

/-- `write_RTC`. -/
def writeRTC (n wallClock : Nat) (c : CMOS) : Option CMOS := do
  let tmm ← gmtime wallClock
  let (registerB, c) := c.read 0x0B
  let (hour, correction) := hourCorrection registerB tmm.hour
  let tmm := codeTime registerB { tmm with hour }
  let tmm := { tmm with hour := tmm.hour ||| correction }
  let c ← waitUpdate n c
  let c := c.write 0x00 0
  let c ← waitUpdate n c
  let c := c.write 0x02 tmm.minute
  let c := c.write 0x04 tmm.hour
  let c := c.write 0x06 tmm.weekday
  let c := c.write 0x07 tmm.day
  let c := c.write 0x08 tmm.month
  let c := c.write 0x09 tmm.year
  some c

/-! ## `read_RTC`

The registers are read until two readings are the same, and then decoded by register B. -/

/-- What is read in one go. -/
structure Reading where
  second : Nat
  minute : Nat
  hour : Nat
  day : Nat
  month : Nat
  year : Nat
deriving DecidableEq

/-- The registers, once no update is in progress. -/
def readRegisters (n : Nat) (c : CMOS) : Option (Reading × CMOS) := do
  let c ← waitUpdate n c
  let (second, c) := c.read 0x00
  let (minute, c) := c.read 0x02
  let (hour, c) := c.read 0x04
  let (day, c) := c.read 0x07
  let (month, c) := c.read 0x08
  let (year, c) := c.read 0x09
  some ({ second, minute, hour, day, month, year }, c)

/-- `do ... while`: until two readings agree. -/
def readAgain : Nat → Reading → CMOS → Option (Reading × CMOS)
  | 0, _, _ => none
  | n + 1, last, c => do
    let (now, c) ← readRegisters n c
    if last ≠ now then readAgain n now c else some (now, c)

/-- The numbers behind the binary-coded decimals. -/
def decodeReading (registerB : Nat) (r : Reading) : Reading :=
  if ¬ registerB.testBit 2 then
    { second := bcd2bin r.second
      minute := bcd2bin r.minute
      hour := bcd2bin r.hour
      day := bcd2bin r.day
      month := bcd2bin r.month
      year := bcd2bin r.year }
  else r

/-- The end of `read_RTC`. -/
def readingTime (registerB : Nat) (r : Reading) : Nat :=
  let (hour, correction) :=
    if r.hour &&& 0x80 ≠ 0 ∧ ¬ registerB.testBit 1 then (r.hour &&& 0x7F, 12) else (r.hour, 0)
  let r := decodeReading registerB { r with hour }
  let hour := (r.hour + correction) % 24
  let year := (r.year + 2000) % 2 ^ 16
  mktime year r.month r.day hour r.minute r.second * 1000 % 2 ^ 64

/-- `read_RTC`. -/
def readRTC (n : Nat) (c : CMOS) : Option (Nat × CMOS) := do
  let (r, c) ← readRegisters n c
  let (r, c) ← readAgain n r c
  let (registerB, c) := c.read 0x0B
  some (readingTime registerB r, c)

/-! ## What is left in the registers

With a clock that stands still two readings are the same at once, so the loops end and reading
gives back what the registers hold. -/

variable {c : CMOS} {reg value registerB t : Nat} {tmm : Time}

@[simp] theorem outAddress_register : (c.outAddress reg).register = c.register := rfl

@[simp] theorem write_register :
    (c.write reg value).register = Function.update c.register reg (value % 256) := rfl

/-- The update ends. Induction on the readings that find it in progress. -/
theorem waitUpdate_spec (c : CMOS) :
    ∃ c', Loop.Returns (fun n => waitUpdate n c) c' ∧ c'.register = c.register := by
  obtain ⟨k, hk⟩ := c.ends 0
  rw [Nat.zero_add] at hk
  induction k generalizing c with
  | zero =>
    -- no reading finds the update in progress
    have hclear : (c.read 0x0A).1.testBit 7 = false := by
      show (c.register 0x0A % 128 + if c.updating 0 then 128 else 0).testBit 7 = false
      rw [hk]
      exact Nat.testBit_lt_two_pow (Nat.mod_lt _ (by decide))
    refine ⟨(c.read 0x0A).2, (Loop.Returns.of_some _).round fun n => ?_, rfl⟩
    show (if (c.read 0x0A).1.testBit 7 then _ else _) = _
    rw [hclear]
    rfl
  | succ k ih =>
    cases hbit : (c.read 0x0A).1.testBit 7 with
    | false =>
      refine ⟨(c.read 0x0A).2, (Loop.Returns.of_some _).round fun n => ?_, rfl⟩
      show (if (c.read 0x0A).1.testBit 7 then _ else _) = _
      rw [hbit]
      rfl
    | true =>
      -- one reading less is left
      obtain ⟨c', hc', hreg⟩ := ih (c.read 0x0A).2 hk
      refine ⟨c', hc'.round fun n => ?_, hreg⟩
      show (if (c.read 0x0A).1.testBit 7 then _ else _) = _
      rw [hbit]
      rfl

/-- The registers that `read_RTC` looks at. -/
def reading (c : CMOS) : Reading where
  second := c.register 0x00
  minute := c.register 0x02
  hour := c.register 0x04
  day := c.register 0x07
  month := c.register 0x08
  year := c.register 0x09

/-- A reading depends on the registers alone. -/
theorem reading_congr {c' : CMOS} (h : c'.register = c.register) : c'.reading = c.reading := by
  unfold reading
  rw [h]

/-- One reading leaves the registers as they are. -/
theorem readRegisters_spec (c : CMOS) :
    ∃ c', Loop.Returns (fun n => readRegisters n c) (c.reading, c') ∧ c'.register = c.register := by
  obtain ⟨w, hw, hreg⟩ := waitUpdate_spec c
  have hread : Loop.Returns (fun _ => some (w.reading, w.outAddress 0x09))
      (c.reading, w.outAddress 0x09) := by
    rw [reading_congr hreg]
    exact Loop.Returns.of_some _
  exact ⟨w.outAddress 0x09, hw.bind hread, hreg⟩

/-- The clock stands still: the second reading agrees with the first. -/
theorem readAgain_spec (c : CMOS) :
    ∃ c', Loop.Returns (fun n => readAgain n c.reading c) (c.reading, c') ∧
      c'.register = c.register := by
  obtain ⟨w, ⟨n, hn⟩, hreg⟩ := readRegisters_spec c
  refine ⟨w, ⟨n + 1, fun m hm => ?_⟩, hreg⟩
  obtain ⟨l, rfl⟩ : ∃ l, m = l + 1 := ⟨m - 1, by omega⟩
  show readAgain (l + 1) c.reading c = _
  rw [readAgain, show readRegisters l c = _ from hn l (by omega)]
  exact if_neg (not_not.mpr rfl)

/-- `read_RTC` ends, with the time in the registers. -/
theorem readRTC_spec (c : CMOS) :
    ∃ c', Loop.Returns (fun n => readRTC n c) (readingTime (c.register 0x0B) c.reading, c') := by
  obtain ⟨w, hw, hreg⟩ := readRegisters_spec c
  obtain ⟨u, hu, hreg'⟩ := readAgain_spec w
  rw [reading_congr hreg] at hu
  have hend : Loop.Returns (fun _ => some (readingTime (u.register 0x0B) c.reading, u.outAddress 0x0B))
      (readingTime (c.register 0x0B) c.reading, u.outAddress 0x0B) := by
    rw [hreg', hreg]
    exact Loop.Returns.of_some _
  exact ⟨u.outAddress 0x0B, hw.bind (hu.bind hend)⟩

/-- What `write_RTC` makes of the fields of a time. -/
def coded (registerB : Nat) (tmm : Time) : Time :=
  let (hour, correction) := hourCorrection registerB tmm.hour
  let tmm := codeTime registerB { tmm with hour }
  { tmm with hour := tmm.hour ||| correction }

/-- The registers after `write_RTC`. -/
def written (registerB : Nat) (tmm : Time) : Reading where
  second := 0
  minute := (coded registerB tmm).minute % 256
  hour := (coded registerB tmm).hour % 256
  day := (coded registerB tmm).day % 256
  month := (coded registerB tmm).month % 256
  year := (coded registerB tmm).year % 256

/-- `write_RTC` ends, with the time in the registers. -/
theorem writeRTC_spec (c : CMOS) (h : gmtime t = some tmm) :
    ∃ c', Loop.Returns (fun n => writeRTC n t c) c' ∧
      c'.reading = written (c.register 0x0B) tmm ∧ c'.register 0x0B = c.register 0x0B := by
  obtain ⟨w, hw, hreg⟩ := waitUpdate_spec (c.outAddress 0x0B)
  obtain ⟨u, hu, hreg'⟩ := waitUpdate_spec (w.write 0x00 0)
  let v := coded (c.register 0x0B) tmm
  let last (u : CMOS) : CMOS := (((((u.write 0x02 v.minute).write 0x04 v.hour).write 0x06
    v.weekday).write 0x07 v.day).write 0x08 v.month).write 0x09 v.year
  refine ⟨last u, ?_, ?_, ?_⟩
  · unfold writeRTC
    rw [h]
    show Loop.Returns (fun n => waitUpdate n (c.outAddress 0x0B) >>= fun w =>
      waitUpdate n (w.write 0x00 0) >>= fun u => some (last u)) (last u)
    exact hw.bind (hu.bind (Loop.Returns.of_some (last u)))
  · unfold reading written
    simp only [last, write_register, hreg', hreg]
    rfl
  · simp only [last, write_register, hreg', hreg]
    rfl

/-! ## There and back

Every field but the year survives in either coding. The century is not stored, and January 31 is
lost in `mktime`. -/

theorem bcd_spec {x : Nat} (hx : x < 100) : bcd2bin (bin2bcd x % 256) = x := by
  have h : ∀ x < 100, bcd2bin (bin2bcd x % 256) = x := by decide
  exact h x hx

/-- The two conversions of the hour undo each other in each of the four modes. -/
theorem hour_spec : ∀ hour < 24, ∀ all binary : Bool,
    let coded := if ¬ all then
        if hour = 0 then (12, 0x80) else if 12 < hour then (hour - 12, 0x80) else (hour, 0)
      else (hour, 0)
    let stored := ((if ¬ binary then bin2bcd coded.1 else coded.1) ||| coded.2) % 256
    let found := if stored &&& 0x80 ≠ 0 ∧ ¬ all then (stored &&& 0x7F, 12) else (stored, 0)
    ((if ¬ binary then bcd2bin found.1 else found.1) + found.2) % 24 = hour := by
  decide

/-- The year that is found again. In binary mode the register holds its low byte. -/
def yearBackFrom (registerB year : Nat) : Nat :=
  if ¬ registerB.testBit 2 then year else 2000 + year % 256

/-- Reading what was written, field by field. -/
theorem readingTime_written (registerB : Nat) (hhour : tmm.hour < 24) (hminute : tmm.minute < 60)
    (hday : tmm.day < 32) (hmonth : tmm.month < 13) (hfirst : 2000 ≤ tmm.year)
    (hlast : tmm.year < 2100) : readingTime registerB (written registerB tmm) =
      mktime (yearBackFrom registerB tmm.year) tmm.month tmm.day tmm.hour tmm.minute 0 * 1000
        % 2 ^ 64 := by
  have hh := hour_spec tmm.hour hhour (registerB.testBit 1) (registerB.testBit 2)
  unfold readingTime written coded yearBackFrom decodeReading codeTime hourCorrection
  -- binary registers hold 256 years and BCD ones 100
  cases hbinary : registerB.testBit 2 with
  | true =>
    have hyear : (tmm.year % 256 + 2000) % 2 ^ 16 = 2000 + tmm.year % 256 := by omega
    rw [hbinary] at hh
    simp only [not_true_eq_false, if_false] at hh ⊢
    rw [hh, hyear, Nat.mod_eq_of_lt (by omega : tmm.month < 256),
      Nat.mod_eq_of_lt (by omega : tmm.day < 256), Nat.mod_eq_of_lt (by omega : tmm.minute < 256)]
  | false =>
    have hyear : (tmm.year % 100 + 2000) % 2 ^ 16 = tmm.year := by omega
    rw [hbinary] at hh
    simp only [not_false_eq_true, Bool.false_eq_true, if_true] at hh ⊢
    rw [hh, bcd_spec (Nat.mod_lt _ (by decide)), hyear, bcd_spec (by omega), bcd_spec (by omega),
      bcd_spec (by omega)]
    rfl

/-- `read_RTC` right after `write_RTC`. -/
def writeRead (n t : Nat) (c : CMOS) : Option Nat := do
  let c ← writeRTC n t c
  let (time, _) ← readRTC n c
  some time

/-- The times of the years 2000 to 2099. -/
def InCentury (t : Nat) : Prop :=
  Gregorian.yearStart 2000 ≤ t / 86400000 ∧ t / 86400000 < Gregorian.yearStart 2100

theorem InCentury.lt (h : InCentury t) : t < 2 ^ 64 := by
  have hlast : t / 86400000 < 766644 := h.2
  omega

/-- The year of such a time is the one that is read back. -/
theorem InCentury.year {n : Nat} (h : InCentury t) (htold : Told t tmm n) :
    2000 ≤ tmm.year ∧ tmm.year < 2100 := by
  have hday := htold.day
  have hlen := htold.dayOf.last
  have hone := htold.dayOf.first
  constructor
  · by_contra hlt
    have hmono := Gregorian.yearStart_mono htold.dayOf.year (not_le.mp hlt)
    have hfirst := h.1
    omega
  · by_contra hle
    have hlast := h.2
    rcases Nat.eq_or_lt_of_le (not_lt.mp hle) with heq | hlt
    · rw [← heq] at hday
      omega
    · have hmono := Gregorian.yearStart_mono (by decide) hlt
      omega

/-- What comes back: the seconds are lost, and perhaps the century. -/
theorem writeRead_spec (c : CMOS) (h : gmtime t = some tmm) {n : Nat} (htold : Told t tmm n)
    (hyear : 2000 ≤ tmm.year ∧ tmm.year < 2100) : Loop.Returns (fun n => writeRead n t c)
      (mktime (yearBackFrom (c.register 0x0B) tmm.year) tmm.month tmm.day tmm.hour tmm.minute 0
        * 1000 % 2 ^ 64) := by
  obtain ⟨w, hw, hreading, hregB⟩ := writeRTC_spec c h
  obtain ⟨u, hu⟩ := readRTC_spec w
  obtain ⟨m, d, hmd, -, hm, hd, -⟩ := monthAndDay_spec htold.dayOf.first htold.dayOf.last
  have hmonth := htold.month.trans hmd
  rw [Prod.mk.injEq] at hmonth
  have hhour : tmm.hour < 24 := by rw [htold.hour]; exact Nat.mod_lt _ (by decide)
  have hminute : tmm.minute < 60 := by rw [htold.minute]; exact Nat.mod_lt _ (by decide)
  rw [hreading, hregB, readingTime_written _ hhour hminute (by omega) (by omega) hyear.1 hyear.2] at hu
  exact hw.bind (hu.bind (Loop.Returns.of_some _))

/-- With binary-coded decimals a time comes back without its seconds. -/
theorem writeRead_coded (c : CMOS) (ht : InCentury t) (hmode : (c.register 0x0B).testBit 2 = false) :
    Loop.Returns (fun n => writeRead n t c) (t / 60000 * 60000) := by
  obtain ⟨tmm, n, hgm, htold⟩ := gmtime_spec ht.lt
  have hyear := ht.year htold
  have hlt := ht.lt
  have hread := writeRead_spec c hgm htold hyear
  have hback : yearBackFrom (c.register 0x0B) tmm.year = tmm.year := by
    unfold yearBackFrom
    rw [hmode]
    rfl
  rw [hback, mktime_told htold (by omega) (by decide)] at hread
  rw [show t / 60000 * 60000 = (t / 60000 * 60 + 0) * 1000 % 2 ^ 64 by omega]
  exact hread

/-- In binary mode another time comes back. -/
theorem writeRead_binary (c : CMOS) (ht : InCentury t) (hmode : (c.register 0x0B).testBit 2 = true) :
    ¬ Loop.Returns (fun n => writeRead n t c) (t / 1000 * 1000) := by
  obtain ⟨tmm, n, hgm, htold⟩ := gmtime_spec ht.lt
  have hyear := ht.year htold
  have hlt := ht.lt
  have hread := writeRead_spec c hgm htold hyear
  have hback : yearBackFrom (c.register 0x0B) tmm.year = 2000 + tmm.year % 256 := by
    unfold yearBackFrom
    rw [hmode]
    rfl
  obtain ⟨N, hN, hNlt, hNne⟩ := mktime_ne (2000 + tmm.year % 256) 0 htold (by omega)
    (by omega) (by omega) (by decide)
  rw [hback, hN] at hread
  intro hreturn
  have heq := hreturn.unique hread
  rw [Nat.mod_eq_of_lt (by omega)] at heq
  omega

/-- A time comes back if the registers hold binary-coded decimals and it is a whole minute. -/
theorem readRTC_writeRTC (c : CMOS) (t : Nat) (ht : InCentury t) :
    Loop.Returns (fun n => writeRead n t c) (t / 1000 * 1000) ↔
      (c.register 0x0B).testBit 2 = false ∧ t / 1000 % 60 = 0 := by
  cases hmode : (c.register 0x0B).testBit 2 with
  | true =>
    constructor
    · intro hread
      exact absurd hread (writeRead_binary c ht hmode)
    · rintro ⟨hfalse, -⟩
      exact nomatch hfalse
  | false =>
    have hcoded := writeRead_coded c ht hmode
    constructor
    · intro hread
      have heq := hread.unique hcoded
      exact ⟨rfl, by omega⟩
    · rintro ⟨-, hsecond⟩
      rw [show t / 1000 * 1000 = t / 60000 * 60000 by omega]
      exact hcoded

/-- A clock at rest, with `registerB` in register B. -/
def resting (registerB : Nat) : CMOS where
  address := 0
  register := Function.update (fun _ => 0) 0x0B registerB
  updating := fun _ => false
  ends := fun _ => ⟨0, rfl⟩

/-- The first minute of 2000. -/
theorem readRTC_writeRTC_first : InCentury 63082281600000 ∧
    Loop.Returns (fun n => writeRead n 63082281600000 (resting 2)) 63082281600000 :=
  ⟨⟨by decide, by decide⟩,
    (readRTC_writeRTC (resting 2) 63082281600000 ⟨by decide, by decide⟩).mpr ⟨rfl, rfl⟩⟩

/-- One second after the first minute began, and the first minute in binary mode. -/
theorem not_read_back :
    ¬ Loop.Returns (fun n => writeRead n 63082281601000 (resting 2)) 63082281601000 ∧
      ¬ Loop.Returns (fun n => writeRead n 63082281600000 (resting 6)) 63082281600000 := by
  constructor
  · intro hread
    have hcoded := writeRead_coded (t := 63082281601000) (resting 2) ⟨by decide, by decide⟩ rfl
    exact absurd (hread.unique hcoded) (by decide)
  · exact writeRead_binary (t := 63082281600000) (resting 6) ⟨by decide, by decide⟩ rfl

end CMOS

end NorlitOS
