import NorlitOS.Machine
import Mathlib.Data.List.Induction
import Mathlib.Data.Nat.Digits.Defs

/-!
# Numbers as text (`kernel/format.c`)

`itoa` writes the digits of a number with the last one first, fills the field behind them and turns
all of it round in place. So the padding comes to stand between the sign and the digits.

The bytes of a text are written as characters.
-/

namespace NorlitOS

namespace Printf

/-! ## `itoa`

The loops write behind the text and turn it round, and `numeral` is the number as it is read. A
loop of the source has a number here that bounds its rounds. -/

/-- The bits of `type`. -/
structure Flags where
  left : Bool
  plus : Bool
  space : Bool
  special : Bool
  zeropad : Bool
  sign : Bool
  small : Bool

/-- `index[n]`. -/
def digitChar (small : Bool) (n : Nat) : Char :=
  (if small then "0123456789abcdefghijklmnopqrstuvwxyz".toList
    else "0123456789ABCDEFGHIJKLMNOPQRSTUVWXYZ".toList).getD n '0'

/-- `do ... while(unum)`, once for a digit. A `u32` has 32 digits at most. -/
def digitLoop (small : Bool) (radix : Nat) : Nat → Nat → List Char → List Char
  | 0, _, str => str
  | n + 1, unum, str =>
    let str := str ++ [digitChar small (unum % radix)]
    let unum := unum / radix
    if unum ≠ 0 then digitLoop small radix n unum str else str

/-- `while(i<width) str[i++]=c`. -/
def fill (width : Int) (c : Char) (str : List Char) : List Char :=
  str ++ List.replicate (width.toNat - str.length) c

/-- Two characters change places. -/
def swap (j l : Nat) (str : List Char) : List Char :=
  let temp := str.getD j '0'
  (str.set j (str.getD l '0')).set l temp

/-- `for(j=k;j<=(i+k-1)/2;j++)`, with `last` for `i+k-1`. -/
def reverseLoop (last : Nat) : Nat → Nat → List Char → List Char
  | 0, _, str => str
  | n + 1, j, str =>
    if j ≤ last / 2 then reverseLoop last n (j + 1) (swap j (last - j) str) else str

/-- `itoa`: what is written to `str`. The precision has no effect. -/
def itoa (num radix : Nat) (width _precision : Int) (type : Flags) : List Char :=
  let (unum, str) :=
    if (type.sign ∨ type.plus) ∧ 2 ^ 31 ≤ num then ((2 ^ 32 - num) % 2 ^ 32, ['-'])
    else if type.plus then (num, ['+'])
    else (num, [])
  let str :=
    if type.special then
      if radix = 8 then str ++ ['0']
      else if radix = 16 then str ++ ['0', if type.small then 'x' else 'X']
      else str
    else str
  let str := digitLoop type.small radix 32 unum str
  let k := if str.head? = some '-' ∨ str.head? = some '+' then 1 else 0
  let k := k + if type.special then (if radix = 8 then 1 else if radix = 16 then 2 else 0) else 0
  let str := if ¬ type.left then fill width (if type.zeropad then '0' else ' ') str else str
  let str := reverseLoop (str.length + k - 1) str.length k str
  fill width ' ' str

/-! ## The loops

What each loop does to the text as a whole. -/

variable {small : Bool} {radix n unum : Nat} {str : List Char}

/-- The digits of a number, the first one first. -/
def numeral (small : Bool) (radix n : Nat) : List Char :=
  if n = 0 then ['0'] else (Nat.digits radix n).reverse.map (digitChar small)

theorem digitChar_zero (small : Bool) : digitChar small 0 = '0' := by cases small <;> rfl

/-- The loop writes the digits with the last one first. Induction on the digits that there may be. -/
theorem digitLoop_eq (hradix : 2 ≤ radix) (hn : 1 ≤ n) (hunum : unum < radix ^ n) :
    digitLoop small radix n unum str = str ++ (numeral small radix unum).reverse := by
  -- on the number of rounds; each writes the lowest digit that is left
  induction n generalizing unum str with
  | zero => omega
  | succ n ih =>
    rw [digitLoop]
    by_cases hzero : unum = 0
    · subst hzero
      rw [Nat.zero_mod, Nat.zero_div, if_neg (not_not.mpr rfl), digitChar_zero]
      rfl
    have hdigits : (numeral small radix unum).reverse =
        digitChar small (unum % radix) :: (Nat.digits radix (unum / radix)).map (digitChar small) := by
      unfold numeral
      rw [if_neg hzero, List.map_reverse, List.reverse_reverse,
        Nat.digits_def' (by omega) (by omega), List.map_cons]
    rw [hdigits]
    by_cases hlast : unum / radix = 0
    · rw [if_neg (not_not.mpr hlast), hlast, Nat.digits_zero]
      rfl
    · have hlt : unum / radix < radix ^ n := by
        rw [Nat.div_lt_iff_lt_mul (by omega), ← Nat.pow_succ]
        exact hunum
      -- another digit is left, and so is a round
      have hpos : 1 ≤ n := by
        by_contra h
        rw [show n = 0 by omega, Nat.pow_zero] at hlt
        exact hlast (Nat.lt_one_iff.mp hlt)
      rw [if_pos hlast, ih hpos hlt]
      unfold numeral
      rw [if_neg hlast, List.map_reverse, List.reverse_reverse, List.append_assoc]
      rfl

theorem getD_middle (pre post : List Char) (a d : Char) : (pre ++ a :: post).getD pre.length d = a := by
  rw [List.getD_eq_getElem?_getD, List.getElem?_append_right le_rfl, Nat.sub_self]
  rfl

theorem set_middle (pre post : List Char) (a b : Char) :
    (pre ++ a :: post).set pre.length b = pre ++ b :: post := by
  rw [List.set_append_right _ _ le_rfl, Nat.sub_self]
  rfl

/-- Two characters with a text between them change places. -/
theorem swap_ends (pre mid post : List Char) (a b : Char) :
    swap pre.length (pre.length + mid.length + 1) (pre ++ a :: (mid ++ b :: post)) =
      pre ++ b :: (mid ++ a :: post) := by
  have hlen : ∀ c : Char, (pre ++ c :: mid).length = pre.length + mid.length + 1 := by
    intro c
    rw [List.length_append, List.length_cons, Nat.add_assoc]
  have hsplit : ∀ c : Char, ∀ tail, pre ++ c :: (mid ++ tail) = pre ++ c :: mid ++ tail := by
    intro c tail
    rw [List.append_assoc, List.cons_append]
  unfold swap
  rw [getD_middle, set_middle, hsplit a, ← hlen a, getD_middle, hsplit b, hlen a, ← hlen b, set_middle,
    hsplit b]

/-- The loop turns round all that is between `pre` and `post`. Induction on both ends of it. -/
theorem reverseLoop_eq (mid pre post : List Char) (hn : mid.length ≤ n)
    (hpos : 0 < 2 * pre.length + mid.length) :
    reverseLoop (2 * pre.length + mid.length - 1) n pre.length (pre ++ (mid ++ post)) =
      pre ++ (mid.reverse ++ post) := by
  -- on what is between the two ends, which lose a character each in a round
  induction mid using List.bidirectionalRec generalizing pre post n with
  | nil =>
    rw [List.length_nil] at hpos ⊢
    cases n with
    | zero => rfl
    | succ n =>
      rw [reverseLoop, if_neg (by omega)]
      rfl
  | singleton a =>
    rw [List.length_singleton] at hpos hn ⊢
    obtain ⟨n, rfl⟩ : ∃ l, n = l + 1 := ⟨n - 1, by omega⟩
    have hself : swap pre.length pre.length (pre ++ a :: post) = pre ++ a :: post := by
      unfold swap
      rw [getD_middle, set_middle, set_middle]
    show reverseLoop _ _ _ (pre ++ a :: post) = pre ++ a :: post
    -- the one in the middle is swapped with itself
    rw [reverseLoop, if_pos (by omega), show 2 * pre.length + 1 - 1 - pre.length = pre.length by omega,
      hself]
    cases n with
    | zero => rfl
    | succ n => rw [reverseLoop, if_neg (by omega)]
  | cons_append a mid b ih =>
    have hlen : (a :: (mid ++ [b])).length = mid.length + 2 := by
      rw [List.length_cons, List.length_append, List.length_singleton]
    rw [hlen] at hn hpos ⊢
    obtain ⟨n, rfl⟩ : ∃ l, n = l + 1 := ⟨n - 1, by omega⟩
    have hswap : swap pre.length (2 * pre.length + (mid.length + 2) - 1 - pre.length)
        (pre ++ (a :: (mid ++ [b]) ++ post)) = pre ++ [b] ++ (mid ++ a :: post) := by
      rw [show 2 * pre.length + (mid.length + 2) - 1 - pre.length = pre.length + mid.length + 1 by omega,
        List.cons_append, List.append_assoc]
      exact (swap_ends pre mid post a b).trans (List.append_assoc pre [b] _).symm
    have hnext := ih (n := n) (pre ++ [b]) (a :: post) (by omega)
      (by rw [List.length_append, List.length_singleton]; omega)
    rw [List.length_append, List.length_singleton] at hnext
    rw [reverseLoop, if_pos (by omega), hswap,
      show 2 * pre.length + (mid.length + 2) - 1 = 2 * (pre.length + 1) + mid.length - 1 by omega, hnext,
      List.append_assoc]
    simp

/-! ## What `itoa` writes

The text is the sign, the mark, the padding and the digits, in the order in which `itoa` writes
them. This is the description that the comparisons with C start from. -/

variable {num : Nat} {width precision : Int} {type : Flags}

/-- A negative number is written with a sign. -/
def IsNegative (num : Nat) (type : Flags) : Prop := (type.sign ∨ type.plus) ∧ 2 ^ 31 ≤ num

instance : Decidable (IsNegative num type) := inferInstanceAs (Decidable (_ ∧ _))

/-- The value behind the sign. -/
def magnitude (num : Nat) (type : Flags) : Nat := if IsNegative num type then 2 ^ 32 - num else num

/-- The sign in front of the number. -/
def signText (num : Nat) (type : Flags) : List Char :=
  if IsNegative num type then ['-'] else if type.plus then ['+'] else []

/-- `0` or `0x` in front of the digits. -/
def radixText (radix : Nat) (type : Flags) : List Char :=
  if type.special then
    if radix = 8 then ['0'] else if radix = 16 then ['0', if type.small then 'x' else 'X'] else []
  else []

/-- A number in its field: the sign, the padding and the digits. -/
def numberText (num radix : Nat) (width : Int) (type : Flags) : List Char :=
  let lead := signText num type ++ radixText radix type
  let body := numeral type.small radix (magnitude num type)
  let room := width.toNat - (lead.length + body.length)
  if type.left then lead ++ body ++ List.replicate room ' '
  else lead ++ List.replicate room (if type.zeropad then '0' else ' ') ++ body

/-- No digit is taken for a sign. -/
theorem digitChar_ne (small : Bool) (n : Nat) : digitChar small n ≠ '-' ∧ digitChar small n ≠ '+' := by
  have h : ∀ l : List Char, '-' ∉ l → '+' ∉ l → ∀ n, l.getD n '0' ≠ '-' ∧ l.getD n '0' ≠ '+' := by
    intro l hminus hplus n
    rcases Nat.lt_or_ge n l.length with hlt | hge
    · rw [List.getD_eq_getElem?_getD, List.getElem?_eq_getElem hlt, Option.getD_some]
      exact ⟨fun heq => hminus (heq ▸ List.getElem_mem hlt), fun heq => hplus (heq ▸ List.getElem_mem hlt)⟩
    · rw [List.getD_eq_getElem?_getD, List.getElem?_eq_none hge, Option.getD_none]
      exact ⟨by decide, by decide⟩
  unfold digitChar
  cases small with
  | true => exact h _ (by decide) (by decide) n
  | false => exact h _ (by decide) (by decide) n

/-- A number has a digit. -/
theorem numeral_ne_nil (small : Bool) (radix n : Nat) : numeral small radix n ≠ [] := by
  unfold numeral
  split
  · exact List.cons_ne_nil _ _
  · next hn =>
    rw [ne_eq, List.map_eq_nil_iff, List.reverse_eq_nil_iff, Nat.digits_eq_nil_iff_eq_zero]
    exact hn

/-- No digit is a sign. -/
theorem mem_numeral {c : Char} (hc : c ∈ numeral small radix n) : c ≠ '-' ∧ c ≠ '+' := by
  unfold numeral at hc
  split at hc
  · rw [List.mem_singleton] at hc
    subst hc
    exact ⟨by decide, by decide⟩
  · obtain ⟨d, -, rfl⟩ := List.mem_map.mp hc
    exact digitChar_ne small d

/-- No mark is a sign. -/
theorem mem_radixText {c : Char} (hc : c ∈ radixText radix type) : c ≠ '-' ∧ c ≠ '+' := by
  have h : ∀ c ∈ ['0', 'x', 'X'], c ≠ '-' ∧ c ≠ '+' := by simp
  apply h
  unfold radixText at hc
  by_cases hspecial : type.special
  · rw [if_pos hspecial] at hc
    split at hc
    · exact List.mem_of_mem_take (i := 1) hc
    · split at hc
      · cases hsmall : type.small with
        | true =>
          rw [hsmall] at hc
          exact List.mem_of_mem_take (i := 2) hc
        | false =>
          rw [hsmall] at hc
          rcases List.mem_cons.mp hc with rfl | hc
          · exact List.mem_cons_self
          · exact List.mem_of_mem_drop (i := 2) hc
      · exact nomatch hc
  · rw [if_neg hspecial] at hc
    exact nomatch hc

/-- The first character tells whether there is a sign. -/
theorem head_sign (num radix : Nat) (type : Flags) {body : List Char} (hmem : ∀ c ∈ body, c ≠ '-' ∧ c ≠ '+') :
    (if (signText num type ++ (radixText radix type ++ body)).head? = some '-' ∨
        (signText num type ++ (radixText radix type ++ body)).head? = some '+' then 1 else 0) =
      (signText num type).length := by
  unfold signText
  by_cases hneg : IsNegative num type
  · rw [if_pos hneg]
    rfl
  rw [if_neg hneg]
  cases type.plus with
  | true => rfl
  | false =>
    have hhead : ∀ c, (radixText radix type ++ body).head? = some c → c ≠ '-' ∧ c ≠ '+' := by
      intro c hc
      rcases List.mem_append.mp (List.mem_of_head? hc) with hmark | hin
      · exact mem_radixText hmark
      · exact hmem c hin
    refine if_neg ?_
    rintro (hc | hc)
    · exact (hhead _ hc).1 rfl
    · exact (hhead _ hc).2 rfl

/-- The length of the mark is what `k` counts. -/
theorem radixText_length : (radixText radix type).length =
    if type.special then (if radix = 8 then 1 else if radix = 16 then 2 else 0) else 0 := by
  unfold radixText
  repeat' split
  all_goals rfl

/-- Turned round behind the sign, the digits stand in their order behind the padding. -/
theorem reverse_fill (lead : List Char) {body : List Char} {last : Nat} (hbody : body ≠ [])
    (hlast : last = (lead ++ body).length + lead.length - 1) (hn : body.length ≤ n) :
    reverseLoop last n lead.length (lead ++ body) = lead ++ body.reverse := by
  have hpos : 0 < body.length := List.length_pos_iff.mpr hbody
  have h := reverseLoop_eq (n := n) body lead [] hn (by omega)
  rw [List.append_nil, List.append_nil] at h
  rw [hlast, List.length_append,
    show lead.length + body.length + lead.length - 1 = 2 * lead.length + body.length - 1 by omega]
  exact h

/-- The field: filled in front of the digits or behind them. -/
theorem field_eq {lead body : List Char} (hbody : body ≠ []) (left : Bool) (c : Char) :
    let str := if ¬ left then fill width c (lead ++ body.reverse) else lead ++ body.reverse
    let room := width.toNat - (lead.length + body.length)
    fill width ' ' (reverseLoop (str.length + lead.length - 1) str.length lead.length str) =
      if left then lead ++ body ++ List.replicate room ' ' else lead ++ List.replicate room c ++ body := by
  cases left with
  | true =>
    have hreverse := reverse_fill lead (n := (lead ++ body.reverse).length)
      (List.reverse_ne_nil_iff.mpr hbody) rfl (by rw [List.length_append]; omega)
    rw [List.reverse_reverse] at hreverse
    dsimp only
    rw [if_neg (not_not.mpr rfl), hreverse, if_pos rfl]
    unfold fill
    rw [List.length_append]
  | false =>
    let room := width.toNat - (lead.length + body.length)
    have hfill : fill width c (lead ++ body.reverse) = lead ++ (body.reverse ++ List.replicate room c) := by
      unfold fill
      rw [List.length_append, List.length_reverse, List.append_assoc]
    have hreverse := reverse_fill lead (n := (lead ++ (body.reverse ++ List.replicate room c)).length)
      (List.append_ne_nil_of_left_ne_nil (List.reverse_ne_nil_iff.mpr hbody) _) rfl
      (List.suffix_append lead _).length_le
    rw [List.reverse_append, List.reverse_reverse, List.reverse_replicate,
      ← List.append_assoc lead (List.replicate room c)] at hreverse
    dsimp only
    rw [if_pos Bool.false_ne_true, hfill, hreverse, if_neg Bool.false_ne_true]
    -- the field is full, nothing is added behind the digits
    have hfull : width.toNat - (lead ++ List.replicate room c ++ body).length = 0 := by
      rw [List.length_append, List.length_append, List.length_replicate]
      omega
    unfold fill
    rw [hfull]
    exact List.append_nil _

/-- `itoa` writes the number in its field. -/
theorem itoa_eq (hnum : num < 2 ^ 32) (hradix : 2 ≤ radix) :
    itoa num radix width precision type = numberText num radix width type := by
  have hsign : (if (type.sign ∨ type.plus) ∧ 2 ^ 31 ≤ num then ((2 ^ 32 - num) % 2 ^ 32, ['-'])
      else if type.plus then (num, ['+']) else (num, [])) = (magnitude num type, signText num type) := by
    unfold magnitude signText
    by_cases hneg : IsNegative num type
    · have hlarge := hneg.2
      rw [if_pos hneg, if_pos hneg, Nat.mod_eq_of_lt (by omega)]
      exact if_pos hneg
    · rw [if_neg hneg, if_neg hneg]
      refine (if_neg hneg).trans ?_
      split <;> rfl
  have hmark : ∀ str : List Char, (if type.special then
      if radix = 8 then str ++ ['0']
      else if radix = 16 then str ++ ['0', if type.small then 'x' else 'X']
      else str
    else str) = str ++ radixText radix type := by
    intro str
    unfold radixText
    repeat' split
    all_goals first | rfl | exact (List.append_nil str).symm
  -- 32 rounds are enough for a word in any radix
  have hunum : magnitude num type < radix ^ 32 := by
    have hpow : 2 ^ 32 ≤ radix ^ 32 := Nat.pow_le_pow_left hradix 32
    have hle : magnitude num type < 2 ^ 32 := by
      unfold magnitude
      split
      · next hneg =>
        have hlarge := hneg.2
        omega
      · exact hnum
    omega
  have hmem : ∀ c ∈ (numeral type.small radix (magnitude num type)).reverse, c ≠ '-' ∧ c ≠ '+' :=
    fun c hc => mem_numeral (List.mem_reverse.mp hc)
  unfold itoa
  rw [hsign]
  dsimp only
  -- `k` is the length of all that stays in front
  rw [hmark, digitLoop_eq hradix (by decide) hunum, List.append_assoc, head_sign num radix type hmem, ← radixText_length,
    ← List.append_assoc, ← List.length_append]
  exact field_eq (numeral_ne_nil _ _ _) _ _

end Printf

end NorlitOS
