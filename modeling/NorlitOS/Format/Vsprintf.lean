import NorlitOS.Format.Itoa

/-!
# `vsprintf` (`kernel/format.c`)

`fmt` goes through the characters up to the end of the format, `arg` through the words of the
argument block. The text of a string argument is found at its address. `%n` takes its argument; what
it stores is not part of the text.
-/

namespace NorlitOS

namespace Printf

/-! ## The parts of a directive

The scans take a list of characters and return what they have found and what is left. A `*` reads
the word of the argument block that `arg` points at. -/

/-- `flags=0`. -/
def noFlags : Flags where
  left := false
  plus := false
  space := false
  special := false
  zeropad := false
  sign := false
  small := false

/-- `while(1)`: the flags. -/
def scanFlags : List Char → Flags → Flags × List Char
  | [], flags => (flags, [])
  | c :: fmt, flags =>
    if c = '-' then scanFlags fmt { flags with left := true }
    else if c = '+' then scanFlags fmt { flags with plus := true }
    else if c = ' ' then scanFlags fmt { flags with space := true }
    else if c = '#' then scanFlags fmt { flags with special := true }
    else if c = '0' then scanFlags fmt { flags with zeropad := true }
    else (flags, c :: fmt)

/-- `field_width`. A `*` is looked at and left where it is. -/
def scanWidth (word : Nat) (flags : Flags) : List Char → Int × Flags × List Char
  | [] => (-1, flags, [])
  | c :: fmt =>
    -- one digit only: a second one is read as the conversion
    if c.isDigit then ((c.toNat - 48 : Nat), flags, fmt)
    else if c = '*' then
      let fieldWidth := s32 word
      -- a negative argument counts as a flag `-` and a width
      if fieldWidth < 0 then (-fieldWidth, { flags with left := true }, c :: fmt)
      else (fieldWidth, flags, c :: fmt)
    else (-1, flags, c :: fmt)

/-- The number behind a point. -/
def scanDigit (word : Nat) : List Char → Int × List Char
  | [] => (-1, [])
  | c :: fmt =>
    if c.isDigit then ((c.toNat - 48 : Nat), fmt)
    else if c = '*' then (s32 word, c :: fmt)
    else (-1, c :: fmt)

/-- `precision`. -/
def scanPrecision (word : Nat) : List Char → Int × List Char
  | [] => (-1, [])
  | c :: fmt =>
    if c = '.' then
      let (precision, fmt) := scanDigit word fmt
      (if precision < 0 then 0 else precision, fmt)
    else (-1, c :: fmt)

/-- `qualifier`. -/
def scanQualifier : List Char → List Char
  | [] => []
  | c :: fmt => if c = 'h' ∨ c = 'l' ∨ c = 'L' then fmt else c :: fmt

/-- What stands in front of the conversion, and the rest of the format. -/
structure Scan where
  flags : Flags
  fieldWidth : Int
  precision : Int
  fmt : List Char

/-- The flags, the width, the precision and the qualifier, in this order. -/
def scan (word : Nat) (fmt : List Char) : Scan :=
  let (flags, fmt) := scanFlags fmt noFlags
  let (fieldWidth, flags, fmt) := scanWidth word flags fmt
  let (precision, fmt) := scanPrecision word fmt
  { flags, fieldWidth, precision, fmt := scanQualifier fmt }

/-! ## Conversions

What a conversion writes is a text of its own here, which `vsprintf` puts behind what it has
written so far. -/

/-- `while (--field_width > 0) *p++ = ' '`. -/
def padChar : Nat → Int → List Char → List Char × Int
  | 0, fieldWidth, p => (p, fieldWidth)
  | n + 1, fieldWidth, p =>
    if fieldWidth - 1 > 0 then padChar n (fieldWidth - 1) (p ++ [' ']) else (p, fieldWidth - 1)

/-- `while(len<field_width--) *p++=' '`. -/
def padString (len : Int) : Nat → Int → List Char → List Char × Int
  | 0, fieldWidth, p => (p, fieldWidth)
  | n + 1, fieldWidth, p =>
    if len < fieldWidth then padString len n (fieldWidth - 1) (p ++ [' ']) else (p, fieldWidth - 1)

/-- The case `'c'`. -/
def charField (flags : Flags) (fieldWidth : Int) (c : Char) : List Char :=
  let n := fieldWidth.toNat + 1
  let (p, fieldWidth) := if ¬ flags.left then padChar n fieldWidth [] else ([], fieldWidth)
  let p := p ++ [c]
  (padChar n fieldWidth p).1

/-- The case `'s'`. -/
def stringField (flags : Flags) (fieldWidth precision : Int) (str : List Char) : List Char :=
  let n := fieldWidth.toNat + 1
  let len : Int := str.length
  let len := if 0 ≤ precision ∧ precision < len then precision else len
  let (p, fieldWidth) := if ¬ flags.left then padString len n fieldWidth [] else ([], fieldWidth)
  let p := p ++ str.take len.toNat
  (padString len n fieldWidth p).1

/-- `switch(*fmt)`: what is written and whether an argument is taken, or `none` for the default. -/
def convert (word : Nat) (text : Nat → List Char) (s : Scan) (c : Char) : Option (List Char × Nat) :=
  match c with
  | 'x' => some (itoa word 16 s.fieldWidth s.precision { s.flags with small := true }, 1)
  | 'X' => some (itoa word 16 s.fieldWidth s.precision s.flags, 1)
  | 'd' => some (itoa word 10 s.fieldWidth s.precision { s.flags with sign := true }, 1)
  | 'i' => some (itoa word 10 s.fieldWidth s.precision { s.flags with sign := true }, 1)
  | 'u' => some (itoa word 10 s.fieldWidth s.precision s.flags, 1)
  | 'o' => some (itoa word 8 s.fieldWidth s.precision s.flags, 1)
  -- what `%n` stores is no part of the text
  | 'n' => some ([], 1)
  -- a pointer without a width has eight digits
  | 'p' =>
    if s.fieldWidth = -1 then some (itoa word 16 8 s.precision { s.flags with zeropad := true }, 1)
    else some (itoa word 16 s.fieldWidth s.precision s.flags, 1)
  | 'c' => some (charField s.flags s.fieldWidth (Char.ofNat (word % 256)), 1)
  | 's' => some (stringField s.flags s.fieldWidth s.precision (text word), 1)
  | '%' => some (['%'], 0)
  | _ => none

/-! ## `vsprintf`

The recursion goes over what is left of the format, which the scan of a directive makes shorter.
-/

section Length

variable {word : Nat} {fmt : List Char}

/-- The flags leave no more than there was. -/
theorem scanFlags_length (flags : Flags) : (scanFlags fmt flags).2.length ≤ fmt.length := by
  induction fmt generalizing flags with
  | nil => exact le_rfl
  | cons c fmt ih =>
    rw [scanFlags]
    repeat' split
    all_goals first | exact (ih _).trans (Nat.le_succ _) | exact le_rfl

/-- Nor does the width. -/
theorem scanWidth_length (flags : Flags) : (scanWidth word flags fmt).2.2.length ≤ fmt.length := by
  cases fmt with
  | nil => exact le_rfl
  | cons c fmt =>
    unfold scanWidth
    dsimp only
    repeat' split
    all_goals first | exact Nat.le_succ _ | exact le_rfl

/-- Nor does a digit. -/
theorem scanDigit_length : (scanDigit word fmt).2.length ≤ fmt.length := by
  cases fmt with
  | nil => exact le_rfl
  | cons c fmt =>
    rw [scanDigit]
    repeat' split
    all_goals first | exact Nat.le_succ _ | exact le_rfl

/-- Nor does the precision. -/
theorem scanPrecision_length : (scanPrecision word fmt).2.length ≤ fmt.length := by
  cases fmt with
  | nil => exact le_rfl
  | cons c fmt =>
    rw [scanPrecision]
    split
    · exact scanDigit_length.trans (Nat.le_succ _)
    · exact le_rfl

/-- Nor does the qualifier. -/
theorem scanQualifier_length : (scanQualifier fmt).length ≤ fmt.length := by
  cases fmt with
  | nil => exact le_rfl
  | cons c fmt =>
    rw [scanQualifier]
    split
    · exact Nat.le_succ _
    · exact le_rfl

/-- A directive does not begin again. -/
theorem scan_length : (scan word fmt).fmt.length ≤ fmt.length :=
  scanQualifier_length.trans (scanPrecision_length.trans
    ((scanWidth_length _).trans (scanFlags_length noFlags)))

end Length

-- `h` is there for the termination only.
set_option linter.unusedVariables false in
/-- `vsprintf`: the text, and where `arg` is at the end. After the default the same character is
read again, as `fmt--` is made good by the `fmt++` of the loop. -/
def vsprintf (args : Nat → UInt32) (text : Nat → List Char) : List Char → Nat → List Char × Nat
  | [], arg => ([], arg)
  | c :: fmt, arg =>
    if c ≠ '%' then
      let (p, arg) := vsprintf args text fmt arg
      (c :: p, arg)
    else
      let s := scan (args arg).toNat fmt
      match h : s.fmt with
      -- the format ends in the middle of a directive
      | [] => (['%'], arg)
      | c :: rest =>
        match convert (args arg).toNat text s c with
        -- the argument for a `*` is looked at by `scan` and not passed over
        | some (field, n) =>
          let (p, arg) := vsprintf args text rest (arg + n)
          (field ++ p, arg)
        | none =>
          let (p, arg) := vsprintf args text (c :: rest) arg
          ('%' :: p, arg)
termination_by fmt => fmt.length
decreasing_by
  · exact Nat.lt_succ_self _
  · have hle : s.fmt.length ≤ fmt.length := scan_length
    rw [h, List.length_cons] at hle
    exact Nat.lt_succ_of_lt hle
  · have hle : s.fmt.length ≤ fmt.length := scan_length
    rw [h] at hle
    exact Nat.lt_succ_of_le hle

/-! ## One round

The equations of the recursion, one for each way through its body. -/

variable {args : Nat → UInt32} {text : Nat → List Char} {fmt rest field : List Char} {arg n : Nat} {c : Char}

/-- At the end of the format nothing is written. -/
theorem vsprintf_nil : vsprintf args text [] arg = ([], arg) := by rw [vsprintf]

/-- A character other than `%` is written. -/
theorem vsprintf_literal (hc : c ≠ '%') : vsprintf args text (c :: fmt) arg =
    (c :: (vsprintf args text fmt arg).1, (vsprintf args text fmt arg).2) := by
  rw [vsprintf, if_pos hc]

/-- A directive that the end cuts off writes its `%`. -/
theorem vsprintf_end (hscan : (scan (args arg).toNat fmt).fmt = []) :
    vsprintf args text ('%' :: fmt) arg = (['%'], arg) := by
  rw [vsprintf, if_neg (not_not.mpr rfl)]
  dsimp only
  split
  · rfl
  · next h => exact nomatch hscan.symm.trans h

/-- A known conversion writes its field. -/
theorem vsprintf_convert (hscan : (scan (args arg).toNat fmt).fmt = c :: rest)
    (hconv : convert (args arg).toNat text (scan (args arg).toNat fmt) c = some (field, n)) :
    vsprintf args text ('%' :: fmt) arg =
      (field ++ (vsprintf args text rest (arg + n)).1, (vsprintf args text rest (arg + n)).2) := by
  rw [vsprintf, if_neg (not_not.mpr rfl)]
  dsimp only
  split
  · next h => exact nomatch hscan.symm.trans h
  · next h =>
    obtain ⟨rfl, rfl⟩ := List.cons.inj (hscan.symm.trans h)
    rw [hconv]

/-- For any other character the `%` is written, and the character is read again. -/
theorem vsprintf_default (hscan : (scan (args arg).toNat fmt).fmt = c :: rest)
    (hconv : convert (args arg).toNat text (scan (args arg).toNat fmt) c = none) :
    vsprintf args text ('%' :: fmt) arg =
      ('%' :: (vsprintf args text (c :: rest) arg).1, (vsprintf args text (c :: rest) arg).2) := by
  rw [vsprintf, if_neg (not_not.mpr rfl)]
  dsimp only
  split
  · next h => exact nomatch hscan.symm.trans h
  · next h =>
    obtain ⟨rfl, rfl⟩ := List.cons.inj (hscan.symm.trans h)
    rw [hconv]

end Printf

end NorlitOS
