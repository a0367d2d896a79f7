import NorlitOS.Format.Vsprintf
import Mathlib.Data.Nat.Digits.Lemmas

/-!
# Printing (`kernel/format.c`)

`printf` writes its text into an array of its own frame before it hands it to `puts`. Nothing bounds
what `vsprintf` writes there, and a `%s` is as long as the string it is given: a line that does not fit
goes on over what stands behind the array.
-/

namespace NorlitOS

/-- A character of the model, in its byte. -/
def byteOf (c : Char) : UInt8 := UInt8.ofNat c.toNat

namespace Printf

/-- A byte of a string, as a character of the model. -/
def charOf (c : UInt8) : Char := Char.ofNat c.toNat

/-- The string that begins with these bytes: those in front of the first NUL. -/
def string (p : List UInt8) : List Char := (p.takeWhile (· ≠ 0)).map charOf

/-- The size of `buf`. -/
def BUF_SIZE : Nat := 256

/-- `printf`: what it gives to `puts`. `vsprintf` writes the text and its NUL into `buf`, however long
they are. -/
def printf (args : Nat → UInt32) (text : Nat → List Char) (fmt : List Char) : Except Stop (List Char) :=
  let p := (vsprintf args text fmt 0).1
  -- there must be room for the NUL behind it
  if p.length < BUF_SIZE then .ok p else .error .wild

variable {args : Nat → UInt32} {text : Nat → List Char} {fmt lit field : List Char} {arg n num k : Nat}
  {radix : Nat} {small : Bool} {type : Flags} {width precision : Int} {p : List UInt8} {c : Char}

/-- A line is printed if it is shorter than the buffer. -/
theorem printf_ok_iff : (∃ line, printf args text fmt = .ok line) ↔
    (vsprintf args text fmt 0).1.length < BUF_SIZE := by
  unfold printf
  dsimp only
  split
  · exact iff_of_true ⟨_, rfl⟩ ‹_›
  · exact iff_of_false (fun h => nomatch h.choose_spec) ‹_›

/-- Otherwise it leaves the buffer. -/
theorem printf_wild (h : ¬ ∃ line, printf args text fmt = .ok line) :
    printf args text fmt = .error .wild :=
  if_neg (printf_ok_iff.not.mp h)

/-! ## Lines

A format is taken apart from the left: what stands in front of a `%` is copied, and a conversion without
flags and width writes its argument as it is. -/

theorem vsprintf_append (hlit : '%' ∉ lit) : vsprintf args text (lit ++ fmt) arg =
    (lit ++ (vsprintf args text fmt arg).1, (vsprintf args text fmt arg).2) := by
  induction lit with
  | nil => rfl
  | cons c lit ih =>
    have hc : c ≠ '%' := fun heq => hlit (heq ▸ List.mem_cons_self)
    rw [List.cons_append, vsprintf_literal hc, ih fun hmem => hlit (List.mem_cons_of_mem _ hmem)]
    rfl

/-- A `%s` without width is the string. -/
theorem stringField_bare (str : List Char) : stringField noFlags (-1) (-1) str = str := by
  have hlen : ¬ (str.length : Int) < -1 := by omega
  have hlen' : ¬ (str.length : Int) < -2 := by omega
  unfold stringField
  simp [noFlags, padString, hlen, hlen']

theorem vsprintf_string : vsprintf args text ('%' :: 's' :: fmt) arg =
    (text (args arg).toNat ++ (vsprintf args text fmt (arg + 1)).1,
      (vsprintf args text fmt (arg + 1)).2) := by
  rw [vsprintf_convert (c := 's') (n := 1) rfl rfl]
  exact congrArg (fun field => (field ++ _, _)) (stringField_bare _)

/-- A number without flags is its digits, in a field of `width`. -/
theorem itoa_length (hnum : num < 2 ^ 32) (hradix : 2 ≤ radix) (hpositive : ¬ IsNegative num type)
    (hplus : type.plus = false) (hspecial : type.special = false) :
    (itoa num radix width precision type).length =
      max width.toNat (numeral type.small radix num).length := by
  rw [itoa_eq hnum hradix]
  unfold numberText signText magnitude radixText
  rw [if_neg hpositive, if_neg hpositive, hplus, hspecial]
  dsimp only
  split
  · simp
    omega
  · simp
    omega

/-- A number below `radix ^ k` has `k` digits at most. -/
theorem numeral_length_le (hradix : 2 ≤ radix) (hk : 0 < k) (hnum : num < radix ^ k) :
    (numeral small radix num).length ≤ k := by
  unfold numeral
  -- the number 0 has one digit
  split
  · exact hk
  · rw [List.length_map, List.length_reverse]
    exact (Nat.digits_length_le_iff (by omega) _).mpr hnum

/-- Its characters are digits. -/
theorem digit_of_mem_numeral (hradix : 2 ≤ radix) (hc : c ∈ numeral small radix n) :
    ∃ d < radix, c = digitChar small d := by
  unfold numeral at hc
  split at hc
  · rw [List.mem_singleton] at hc
    exact ⟨0, by omega, hc.trans (digitChar_zero small).symm⟩
  · obtain ⟨d, hd, rfl⟩ := List.mem_map.mp hc
    exact ⟨d, Nat.digits_lt_base (by omega) (List.mem_reverse.mp hd), rfl⟩

/-- A decimal number in its field: blanks and digits. -/
theorem mem_itoa (hnum : num < 2 ^ 31) (hplus : type.plus = false) (hspecial : type.special = false)
    (hzeropad : type.zeropad = false) (hc : c ∈ itoa num 10 width precision type) :
    c = ' ' ∨ ∃ d < 10, c = digitChar type.small d := by
  have hpositive : ¬ IsNegative num type := fun hneg => by
    have hle := hneg.2
    omega
  rw [itoa_eq (by omega) (by decide)] at hc
  unfold numberText signText magnitude radixText at hc
  rw [if_neg hpositive, if_neg hpositive, hplus, hspecial, hzeropad] at hc
  dsimp only at hc
  split at hc
  -- to the left of its field, or to the right of it
  · rcases List.mem_append.mp hc with hc | hc
    · exact Or.inr (digit_of_mem_numeral (by decide) hc)
    · exact Or.inl (List.eq_of_mem_replicate hc)
  · rcases List.mem_append.mp hc with hc | hc
    · exact Or.inl (List.eq_of_mem_replicate hc)
    · exact Or.inr (digit_of_mem_numeral (by decide) hc)

/-! ## Strings -/

theorem string_length : (string p).length = (p.takeWhile (· ≠ 0)).length := List.length_map _

/-- The string in front of a NUL. -/
theorem string_append {name : List UInt8} (hname : 0 ∉ name) (p : List UInt8) :
    string (name ++ 0 :: p) = name.map charOf := by
  unfold string
  rw [List.takeWhile_append_of_pos fun c hc => by
    rw [decide_eq_true_eq]
    exact fun heq => hname (heq ▸ hc)]
  simp

end Printf

end NorlitOS
