import NorlitOS.Format.Itoa
import Mathlib.Logic.Function.Basic

/-!
# `itoa` in its buffer

`itoa` works in place, on the bytes at `str` and with a counter `i` of those it has written. It does
so as it would on a text of its own: the bytes are the text, laid over what was there before, and `i`
is its length.

Put next to what C asks for, the padding is the only difference. `itoa` writes it behind the digits
and turns the digits and it round, but not the sign, so that spaces come to stand behind the sign.
-/

namespace NorlitOS

namespace Printf

/-! ## The function

Line by line, on the buffer. The padding has its loop twice: in front of the digits for numbers to
the right, behind them for numbers to the left. -/

/-- The bytes from `str` on, and `i`. The function returns `str+i`. -/
structure Cursor where
  bytes : Nat → Char
  i : Nat

namespace Cursor

/-- `str[i++]=c`. -/
def put (c : Char) (s : Cursor) : Cursor := ⟨Function.update s.bytes s.i c, s.i + 1⟩

/-- `do ... while(unum)`. -/
def digitLoop (small : Bool) (radix : Nat) : Nat → Nat → Cursor → Cursor
  | 0, _, s => s
  | n + 1, unum, s =>
    let s := s.put (digitChar small (unum % radix))
    let unum := unum / radix
    if unum ≠ 0 then digitLoop small radix n unum s else s

/-- `while(i<width) str[i++]=c`. -/
def fill (width : Int) (c : Char) : Nat → Cursor → Cursor
  | 0, s => s
  | n + 1, s => if (s.i : Int) < width then fill width c n (s.put c) else s

/-- Two bytes change places. -/
def swap (j l : Nat) (bytes : Nat → Char) : Nat → Char :=
  let temp := bytes j
  Function.update (Function.update bytes j (bytes l)) l temp

/-- `for(j=k;j<=(i+k-1)/2;j++)`, with `last` for `i+k-1`. -/
def reverseLoop (last : Nat) : Nat → Nat → (Nat → Char) → Nat → Char
  | 0, _, bytes => bytes
  | n + 1, j, bytes => if j ≤ last / 2 then reverseLoop last n (j + 1) (swap j (last - j) bytes) else bytes

/-- The sign, and the number behind it. -/
def putSign (num : Nat) (type : Flags) (s : Cursor) : Nat × Cursor :=
  if (type.sign ∨ type.plus) ∧ 2 ^ 31 ≤ num then ((2 ^ 32 - num) % 2 ^ 32, s.put '-')
  else if type.plus then (num, s.put '+')
  else (num, s)

/-- `if(type&SPECIAL)`. -/
def putMark (radix : Nat) (type : Flags) (s : Cursor) : Cursor :=
  if type.special then
    if radix = 8 then s.put '0'
    -- `0x` or `0X`
    else if radix = 16 then (s.put '0').put (if type.small then 'x' else 'X')
    else s
  else s

/-- `k`: how many bytes stay in front. -/
def ahead (radix : Nat) (type : Flags) (s : Cursor) : Nat :=
  -- the sign is told from the byte that was written
  let k := if s.bytes 0 = '-' ∨ s.bytes 0 = '+' then 1 else 0
  k + if type.special then (if radix = 8 then 1 else if radix = 16 then 2 else 0) else 0

/-- `if(!(type&LEFT))`. -/
def pad (width : Int) (type : Flags) (s : Cursor) : Cursor :=
  -- behind the digits, which are still the wrong way round
  if ¬ type.left then fill width (if type.zeropad then '0' else ' ') width.toNat s else s

/-- The digits and the padding behind them are turned round. -/
def turn (k : Nat) (s : Cursor) : Cursor :=
  { s with bytes := reverseLoop (s.i + k - 1) s.i k s.bytes }

/-- `itoa`: the buffer as it is when the function returns. -/
def itoa (num radix : Nat) (width _precision : Int) (type : Flags) (bytes : Nat → Char) : Cursor :=
  let (unum, s) := putSign num type ⟨bytes, 0⟩
  let s := putMark radix type s
  let s := digitLoop type.small radix 32 unum s
  let k := ahead radix type s
  let s := pad width type s
  let s := turn k s
  fill width ' ' width.toNat s

/-! ## The text in the buffer

Each step of `itoa` on the buffer is the step on a list of characters, laid over what was there.
The steps are then composed in `itoa_holding`, and after that the buffer is not needed any more.
-/

/-- A text at `str`, with `i` behind it. -/
def holding (bytes : Nat → Char) (str : List Char) : Cursor :=
  ⟨fun j => str.getD j (bytes j), str.length⟩

variable {bytes : Nat → Char} {str : List Char} {c : Char} {small : Bool} {radix n unum j l last : Nat}
  {width precision : Int} {type : Flags} {num k : Nat}

/-- No text, and the bytes as they were. -/
theorem holding_nil : holding bytes [] = ⟨bytes, 0⟩ := rfl

/-- The buffer and the counter say what the text is. -/
theorem holding_injective {str' : List Char} (heq : holding bytes str = holding bytes str') : str = str' := by
  have hlen : str.length = str'.length := congrArg Cursor.i heq
  refine List.ext_getElem hlen fun j hj hj' => ?_
  have hbyte : str.getD j (bytes j) = str'.getD j (bytes j) := congrFun (congrArg Cursor.bytes heq) j
  rwa [List.getD_eq_getElem _ _ hj, List.getD_eq_getElem _ _ hj'] at hbyte

/-- A character is written behind the text. -/
theorem put_holding (c : Char) : (holding bytes str).put c = holding bytes (str ++ [c]) := by
  have hbytes : Function.update (fun j => str.getD j (bytes j)) str.length c =
      fun j => (str ++ [c]).getD j (bytes j) := by
    funext j
    -- in front of the new character, at it, or behind it
    rcases Nat.lt_trichotomy j str.length with hlt | heq | hgt
    · rw [Function.update_of_ne (by omega), List.getD_append _ _ _ _ hlt]
    · subst heq
      rw [Function.update_self, List.getD_append_right _ _ _ _ le_rfl, Nat.sub_self]
      rfl
    · have hbehind : (str ++ [c]).length ≤ j := by
        rw [List.length_append, List.length_singleton]
        omega
      rw [Function.update_of_ne (by omega), List.getD_eq_default _ _ hgt.le,
        List.getD_eq_default _ _ hbehind]
  unfold put holding
  rw [List.length_append, List.length_singleton, hbytes]

/-- The digits are written, the last one first. -/
theorem digitLoop_holding :
    digitLoop small radix n unum (holding bytes str) =
      holding bytes (Printf.digitLoop small radix n unum str) := by
  induction n generalizing unum str with
  | zero => rfl
  | succ n ih =>
    rw [digitLoop, Printf.digitLoop, put_holding]
    split
    · exact ih
    · rfl

/-- The text is filled up to the width. -/
theorem fill_holding (hn : width.toNat ≤ str.length + n) :
    fill width c n (holding bytes str) = holding bytes (Printf.fill width c str) := by
  induction n generalizing str with
  | zero =>
    unfold Printf.fill
    rw [Nat.sub_eq_zero_of_le (by omega)]
    exact congrArg (holding bytes) (List.append_nil str).symm
  | succ n ih =>
    rw [fill]
    by_cases hlt : ((holding bytes str).i : Int) < width
    · rw [if_pos hlt, put_holding, ih (by rw [List.length_append, List.length_singleton]; omega)]
      have hlt : (str.length : Int) < width := hlt
      unfold Printf.fill
      rw [List.length_append, List.length_singleton, List.append_assoc]
      congr 2
      rw [show width.toNat - str.length = width.toNat - (str.length + 1) + 1 by omega]
      rfl
    · have hge : ¬ (str.length : Int) < width := hlt
      rw [if_neg hlt]
      unfold Printf.fill
      rw [Nat.sub_eq_zero_of_le (by omega)]
      exact congrArg (holding bytes) (List.append_nil str).symm

/-- A byte of the text is written where the text is. -/
theorem update_holding (c : Char) (hj : j < str.length) :
    Function.update (holding bytes str).bytes j c = (holding bytes (str.set j c)).bytes := by
  funext a
  show Function.update (holding bytes str).bytes j c a = (str.set j c).getD a (bytes a)
  rcases Nat.lt_or_ge a str.length with ha | ha
  · rw [List.getD_eq_getElem _ _ (by rw [List.length_set]; exact ha), List.getElem_set]
    by_cases heq : j = a
    · subst heq
      rw [Function.update_self, if_pos rfl]
    · rw [Function.update_of_ne (fun h => heq h.symm), if_neg heq]
      exact List.getD_eq_getElem _ _ ha
  · rw [Function.update_of_ne (by omega), List.getD_eq_default _ _ (by rw [List.length_set]; exact ha)]
    exact List.getD_eq_default _ _ ha

/-- Two characters of the text change places. -/
theorem swap_holding (hj : j < str.length) (hl : l < str.length) :
    swap j l (holding bytes str).bytes = (holding bytes (Printf.swap j l str)).bytes := by
  have hread : ∀ j < str.length, (holding bytes str).bytes j = str.getD j '0' := by
    intro j hj
    rw [List.getD_eq_getElem _ _ hj]
    exact List.getD_eq_getElem _ _ hj
  unfold swap Printf.swap
  dsimp only
  rw [hread j hj, hread l hl, update_holding _ hj, update_holding _ (by rw [List.length_set]; exact hl)]

theorem swap_length (j l : Nat) (str : List Char) : (Printf.swap j l str).length = str.length := by
  unfold Printf.swap
  dsimp only
  rw [List.length_set, List.length_set]

/-- The text is turned round behind its first `k` characters. -/
theorem reverseLoop_holding (hstr : 0 < str.length) (hk : k ≤ str.length) (hj : k ≤ j)
    (hlast : last = str.length + k - 1) :
    reverseLoop last n j (holding bytes str).bytes = (holding bytes (Printf.reverseLoop last n j str)).bytes := by
  induction n generalizing j str with
  | zero => rfl
  | succ n ih =>
    rw [reverseLoop, Printf.reverseLoop]
    split
    · next hle =>
      have hlen := swap_length j (last - j) str
      rw [swap_holding (by omega) (by omega)]
      exact ih (by omega) (by omega) (by omega) (by omega)
    · rfl

/-- The text keeps its length. -/
theorem reverseLoop_length : (Printf.reverseLoop last n j str).length = str.length := by
  induction n generalizing j str with
  | zero => rfl
  | succ n ih =>
    rw [Printf.reverseLoop]
    split
    · rw [ih, swap_length]
    · rfl

/-- At least one digit is written, for a zero too. -/
theorem length_le_digitLoop (small : Bool) (radix n unum : Nat) (str : List Char) :
    str.length < (Printf.digitLoop small radix (n + 1) unum str).length := by
  induction n generalizing unum str with
  | zero =>
    rw [Printf.digitLoop]
    dsimp only [Printf.digitLoop]
    rw [ite_self, List.length_append]
    exact Nat.lt_succ_self _
  | succ n ih =>
    rw [Printf.digitLoop]
    split
    · refine lt_trans ?_ (ih _ _)
      rw [List.length_append]
      exact Nat.lt_succ_self _
    · rw [List.length_append]
      exact Nat.lt_succ_self _

/-- The sign, and the number without it. -/
theorem putSign_holding : putSign num type (holding bytes []) =
    Prod.map id (holding bytes) (if (type.sign ∨ type.plus) ∧ 2 ^ 31 ≤ num then
      ((2 ^ 32 - num) % 2 ^ 32, ['-']) else if type.plus then (num, ['+']) else (num, [])) := by
  unfold putSign
  rw [put_holding, put_holding]
  split
  · rfl
  · split <;> rfl

/-- The mark of an octal or hexadecimal number. -/
theorem putMark_holding : putMark radix type (holding bytes str) = holding bytes (if type.special then
      if radix = 8 then str ++ ['0']
      else if radix = 16 then str ++ ['0', if type.small then 'x' else 'X']
      else str
    else str) := by
  unfold putMark
  rw [put_holding, put_holding, List.append_assoc]
  repeat' split
  all_goals rfl

/-- It has the length that `ahead` counts. -/
theorem mark_length (str : List Char) (radix : Nat) (type : Flags) : str.length + (if type.special then
      (if radix = 8 then 1 else if radix = 16 then 2 else 0) else 0) =
    (if type.special then
      if radix = 8 then str ++ ['0']
      else if radix = 16 then str ++ ['0', if type.small then 'x' else 'X']
      else str
    else str).length := by
  repeat' split
  all_goals simp

/-- What stands in front of the digits is seen in the text, from the sign in its first byte and
from the flags. -/
theorem ahead_holding (hstr : str ≠ []) : ahead radix type (holding bytes str) =
    (if str.head? = some '-' ∨ str.head? = some '+' then 1 else 0) +
      if type.special then (if radix = 8 then 1 else if radix = 16 then 2 else 0) else 0 := by
  obtain ⟨a, tail, rfl⟩ := List.exists_cons_of_ne_nil hstr
  have hhead : (holding bytes (a :: tail)).bytes 0 = a := rfl
  unfold ahead
  simp only [hhead, List.head?_cons, Option.some.injEq]

/-- Numbers to the right are padded. -/
theorem pad_holding : pad width type (holding bytes str) =
    holding bytes (if ¬ type.left then Printf.fill width (if type.zeropad then '0' else ' ') str else str) := by
  unfold pad
  rw [fill_holding (Nat.le_add_left _ _)]
  split <;> rfl

/-- Padding takes nothing away. -/
theorem length_le_pad (width : Int) (type : Flags) (c : Char) (str : List Char) : str.length ≤ (if ¬ type.left then Printf.fill width c str else str).length := by
  split
  · unfold Printf.fill
    rw [List.length_append]
    exact Nat.le_add_right _ _
  · exact le_rfl

/-- Digits and padding are turned round behind the sign and the mark. -/
theorem turn_holding (hstr : 0 < str.length) (hk : k ≤ str.length) : turn k (holding bytes str) =
    holding bytes (Printf.reverseLoop (str.length + k - 1) str.length k str) := by
  have hreverse : reverseLoop (str.length + k - 1) str.length k (holding bytes str).bytes =
      (holding bytes (Printf.reverseLoop (str.length + k - 1) str.length k str)).bytes :=
    reverseLoop_holding hstr hk le_rfl rfl
  show (⟨reverseLoop (str.length + k - 1) str.length k (holding bytes str).bytes, str.length⟩ : Cursor) = _
  rw [hreverse]
  unfold holding
  rw [reverseLoop_length]

/-- The buffer holds the text. -/
theorem itoa_holding (num radix : Nat) (width precision : Int) (type : Flags) (bytes : Nat → Char) :
    itoa num radix width precision type bytes =
      holding bytes (Printf.itoa num radix width precision type) := by
  unfold itoa Printf.itoa
  rw [← holding_nil, putSign_holding]
  generalize (if (type.sign ∨ type.plus) ∧ 2 ^ 31 ≤ num then ((2 ^ 32 - num) % 2 ^ 32, ['-'])
    else if type.plus then (num, ['+']) else (num, [])) = lead
  obtain ⟨unum, str⟩ := lead
  have hmark := mark_length str radix type
  dsimp only [Prod.map, id]
  rw [putMark_holding, digitLoop_holding]
  generalize (if type.special then
    if radix = 8 then str ++ ['0']
    else if radix = 16 then str ++ ['0', if type.small then 'x' else 'X']
    else str
  else str) = marked at hmark ⊢
  have hlen := length_le_digitLoop type.small radix 31 unum marked
  generalize Printf.digitLoop type.small radix (31 + 1) unum marked = digits at hlen ⊢
  rw [ahead_holding (List.length_pos_iff.mp (by omega)), pad_holding]
  have hone : (if digits.head? = some '-' ∨ digits.head? = some '+' then 1 else 0) ≤ 1 := by
    split <;> decide
  have hpad := length_le_pad width type (if type.zeropad then '0' else ' ') digits
  rw [turn_holding (by omega) (by omega), fill_holding (Nat.le_add_left _ _)]

end Cursor

/-! ## What C asks for

The specification is written out on its own: sign, digits and room, in the order that the flags
say. Next to it stands the text of `itoa`, and the two differ where spaces have to go in front of
a sign. -/

/-- The conversions `%d`, `%o` and `%x`, each with its flags. -/
inductive IntConversion : Nat → Flags → Prop
  | signed (left plus zeropad small : Bool) :
    IntConversion 10 { left, plus, zeropad, small, sign := true, space := false, special := false }
  | unsigned {radix : Nat} (left zeropad small : Bool) (octal_or_hex : radix = 8 ∨ radix = 16) :
    IntConversion radix { left, plus := false, zeropad, small, sign := false, space := false, special := false }

/-- The argument as the conversion reads it. -/
def cValue (num : Nat) (type : Flags) : Int := if type.sign then s32 num else num

/-- The sign that is written. -/
def cSign (value : Int) (type : Flags) : List Char :=
  if value < 0 then ['-'] else if type.plus then ['+'] else []

/-- The digits, the first one first. -/
def cDigits (value : Int) (radix : Nat) (type : Flags) : List Char :=
  numeral type.small radix value.natAbs

/-- What C's `printf` writes: spaces stand in front of the sign or behind the digits, and zeros
between the two. -/
def cText (value : Int) (radix : Nat) (width : Int) (type : Flags) : List Char :=
  let sign := cSign value type
  let digits := cDigits value radix type
  let room := width.toNat - (sign.length + digits.length)
  if type.left then sign ++ digits ++ List.replicate room ' '
  else if type.zeropad then sign ++ List.replicate room '0' ++ digits
  else List.replicate room ' ' ++ sign ++ digits

/-- There is a sign, and spaces go in front of it. -/
structure Spaced (value : Int) (radix : Nat) (width : Int) (type : Flags) : Prop where
  sign : value < 0 ∨ type.plus
  left : ¬ type.left
  zeropad : ¬ type.zeropad
  width : ((cSign value type).length + (cDigits value radix type).length : Int) < width

variable {num radix : Nat} {width precision : Int} {type : Flags} {value : Int}

/-- The radix of a conversion is two at least. -/
theorem IntConversion.two_le (h : IntConversion radix type) : 2 ≤ radix := by
  cases h with
  | signed => decide
  | unsigned _ _ _ hradix => rcases hradix with rfl | rfl <;> decide

/-- None of these conversions writes a mark. -/
theorem IntConversion.radixText (h : IntConversion radix type) : radixText radix type = [] := by
  cases h with
  | signed => rfl
  | unsigned => rfl

/-- A word above `2 ^ 31` is a negative number. -/
theorem s32_eq (hnum : num < 2 ^ 32) :
    s32 num = if 2 ^ 31 ≤ num then (num : Int) - 2 ^ 32 else (num : Int) := by
  unfold s32
  split
  · rw [show (num : Int) = (num : Int) - 2 ^ 32 + (2 ^ 32 : Nat) by omega, Int.add_bmod_right]
    exact (Int.bmod_eq_of_le_mul_two (by omega) (by omega)).trans (by omega)
  · exact Int.bmod_eq_of_le_mul_two (by omega) (by omega)

/-- `itoa` sees the sign that the conversion reads. -/
theorem IntConversion.isNegative_iff (h : IntConversion radix type) (hnum : num < 2 ^ 32) :
    IsNegative num type ↔ cValue num type < 0 := by
  cases h with
  | signed left plus zeropad small =>
    have hvalue : cValue num { left, plus, zeropad, small, sign := true, space := false, special := false } =
        s32 num := if_pos rfl
    rw [hvalue, s32_eq hnum]
    constructor
    · rintro ⟨-, hlarge⟩
      rw [if_pos hlarge]
      omega
    · intro hneg
      refine ⟨Or.inl rfl, ?_⟩
      by_contra hsmall
      rw [if_neg hsmall] at hneg
      omega
  | unsigned =>
    constructor
    · rintro ⟨hsign | hplus, -⟩
      · exact absurd hsign Bool.false_ne_true
      · exact absurd hplus Bool.false_ne_true
    · intro hneg
      exact absurd hneg (Int.natCast_nonneg num).not_gt

/-- The digits are those of the absolute value. -/
theorem IntConversion.magnitude_eq (h : IntConversion radix type) (hnum : num < 2 ^ 32) :
    magnitude num type = (cValue num type).natAbs := by
  have hiff := h.isNegative_iff hnum
  unfold magnitude
  cases h with
  | signed left plus zeropad small =>
    have hvalue : cValue num { left, plus, zeropad, small, sign := true, space := false, special := false } =
        s32 num := if_pos rfl
    rw [hvalue, s32_eq hnum] at hiff ⊢
    split
    · next hneg =>
      rw [if_pos hneg.2]
      omega
    · next hneg =>
      split
      · next hlarge => exact absurd ⟨Or.inl rfl, hlarge⟩ hneg
      · exact (Int.natAbs_natCast num).symm
  | unsigned =>
    rw [if_neg fun hneg => absurd (hiff.mp hneg) (Int.natCast_nonneg num).not_gt]
    exact (Int.natAbs_natCast num).symm

/-- The sign is the one C asks for. -/
theorem IntConversion.signText_eq (h : IntConversion radix type) (hnum : num < 2 ^ 32) :
    signText num type = cSign (cValue num type) type := by
  have hiff := h.isNegative_iff hnum
  unfold signText cSign
  by_cases hneg : IsNegative num type
  · rw [if_pos hneg, if_pos (hiff.mp hneg)]
  · rw [if_neg hneg, if_neg fun h => hneg (hiff.mpr h)]

/-- There is none for a number that is not negative, unless `+` asks for it. -/
theorem cSign_eq_nil_iff : cSign value type = [] ↔ ¬ (value < 0 ∨ type.plus) := by
  unfold cSign
  by_cases hneg : value < 0
  · rw [if_pos hneg]
    exact iff_of_false (List.cons_ne_nil _ _) (not_not.mpr (Or.inl hneg))
  · rw [if_neg hneg]
    by_cases hplus : type.plus
    · rw [if_pos hplus]
      exact iff_of_false (List.cons_ne_nil _ _) (not_not.mpr (Or.inr hplus))
    · rw [if_neg hplus]
      exact iff_of_true rfl (not_or.mpr ⟨hneg, hplus⟩)

/-- No sign is a space. -/
theorem not_mem_cSign : ' ' ∉ cSign value type := by
  unfold cSign
  repeat' split
  all_goals decide

/-- Spaces go in front of a text as well as behind its first part only when one of them is empty. -/
theorem spaces_comm_iff {lead body : List Char} (hlead : ' ' ∉ lead) (n : Nat) :
    lead ++ List.replicate n ' ' ++ body = List.replicate n ' ' ++ lead ++ body ↔ lead = [] ∨ n = 0 := by
  rw [List.append_left_inj]
  cases n with
  | zero => exact iff_of_true (List.append_nil lead) (Or.inr rfl)
  | succ n =>
    cases lead with
    | nil => exact iff_of_true (List.append_nil _).symm (Or.inl rfl)
    | cons c lead =>
      refine iff_of_false (fun heq => ?_) (by simp)
      have hc : c = ' ' := (List.cons.inj heq).1
      exact hlead (hc ▸ List.mem_cons_self)

/-- The two texts differ in the padding only. -/
theorem IntConversion.numberText_eq_iff (h : IntConversion radix type) (hnum : num < 2 ^ 32) :
    numberText num radix width type = cText (cValue num type) radix width type ↔
      ¬ Spaced (cValue num type) radix width type := by
  unfold numberText cText
  rw [h.radixText, List.append_nil, h.signText_eq hnum, h.magnitude_eq hnum]
  show _ ↔ _
  dsimp only
  by_cases hleft : type.left
  · rw [if_pos hleft, if_pos hleft]
    exact iff_of_true rfl fun hspaced => hspaced.left hleft
  by_cases hzero : type.zeropad
  · rw [if_neg hleft, if_neg hleft, if_pos hzero, if_pos hzero]
    exact iff_of_true rfl fun hspaced => hspaced.zeropad hzero
  rw [if_neg hleft, if_neg hleft, if_neg hzero, if_neg hzero]
  -- both pad on the left with blanks: before the sign, or behind it
  refine (spaces_comm_iff not_mem_cSign _).trans ?_
  rw [cSign_eq_nil_iff]
  constructor
  · rintro (hsign | hroom) hspaced
    · exact hsign hspaced.sign
    · have hwidth := hspaced.width
      unfold cDigits at hwidth
      omega
  · intro hspaced
    by_contra hnot
    obtain ⟨hsign, hroom⟩ := not_or.mp hnot
    exact hspaced ⟨not_not.mp hsign, hleft, hzero, by unfold cDigits; omega⟩

/-- **`itoa` against C.** The bytes and the returned pointer are those of C's `printf`, unless there is
a sign with spaces in front of it. -/
theorem itoa_agrees (hnum : num < 2 ^ 32) (hconv : IntConversion radix type) (bytes : Nat → Char) :
    Cursor.itoa num radix width precision type bytes =
        Cursor.holding bytes (cText (cValue num type) radix width type) ↔
      ¬ Spaced (cValue num type) radix width type := by
  rw [Cursor.itoa_holding, itoa_eq hnum hconv.two_le, ← hconv.numberText_eq_iff hnum]
  exact ⟨Cursor.holding_injective, congrArg _⟩

/-- A positive number with a sign, in a field that is padded with zeros. -/
theorem itoa_agrees_plus :
    Cursor.itoa 42 10 5 0 ⟨false, true, false, false, true, true, false⟩ (fun _ => '?') =
      Cursor.holding (fun _ => '?') "+0042".toList :=
  (itoa_agrees (by decide) (.signed false true true false) _).mpr fun h => h.zeropad rfl

/-- `%5d` of -5. -/
theorem not_agrees_space :
    ¬ ∀ num radix width precision type bytes, num < 2 ^ 32 → IntConversion radix type →
      Cursor.itoa num radix width precision type bytes =
        Cursor.holding bytes (cText (cValue num type) radix width type) := by
  intro h
  have hconv : IntConversion 10 ⟨false, false, false, false, false, true, false⟩ :=
    .signed false false false false
  have heq := h (2 ^ 32 - 5) 10 5 0 _ (fun _ => '0') (by decide) hconv
  rw [Cursor.itoa_holding, itoa_eq (by decide) (by decide)] at heq
  exact (hconv.numberText_eq_iff (by decide)).mp (Cursor.holding_injective heq)
    ⟨by decide, by decide, by decide, by decide⟩

end Printf

end NorlitOS
