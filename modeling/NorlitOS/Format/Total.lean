import NorlitOS.Format.Buffer
import NorlitOS.Format.Scan
import NorlitOS.Lib.Loop
import NorlitOS.Lib.Reading

/-!
# `vsprintf` on any format

The format is read from memory here, at a cursor that goes forward and, after a conversion that is not
known, back by one. All loops have fuel, those of the conversions included. Whatever the format is, the
cursor stays on it up to the zero behind it; with fuel enough, what comes out is what the format as a list
of characters gives.
-/

namespace NorlitOS

namespace Printf

namespace Total

/-! ## The loops of the conversions

Each loop of the source with fuel, and `none` when it is used up. The conversions without fuel, as
they are elsewhere, run their loops a number of times that is always enough. -/

/-- `do ... while(unum)`. -/
def digitLoop (small : Bool) (radix : Nat) : Nat → Nat → List Char → Option (List Char)
  | 0, _, _ => none
  | fuel + 1, unum, str =>
    let str := str ++ [digitChar small (unum % radix)]
    let unum := unum / radix
    if unum ≠ 0 then digitLoop small radix fuel unum str else some str

/-- `while(i<width) str[i++]=c`. -/
def fill (width : Int) (c : Char) : Nat → List Char → Option (List Char)
  | 0, _ => none
  | fuel + 1, str => if (str.length : Int) < width then fill width c fuel (str ++ [c]) else some str

/-- `for(j=k;j<=(i+k-1)/2;j++)`, with `last` for `i+k-1`. -/
def reverseLoop (last : Nat) : Nat → Nat → List Char → Option (List Char)
  | 0, _, _ => none
  | fuel + 1, j, str =>
    if j ≤ last / 2 then reverseLoop last fuel (j + 1) (swap j (last - j) str) else some str

/-- `while (--field_width > 0) *p++ = ' '`. -/
def padChar : Nat → Int → List Char → Option (List Char × Int)
  | 0, _, _ => none
  | fuel + 1, fieldWidth, p =>
    let fieldWidth := fieldWidth - 1
    if fieldWidth > 0 then padChar fuel fieldWidth (p ++ [' ']) else some (p, fieldWidth)

/-- `while(len<field_width--) *p++=' '`. -/
def padString (len : Int) : Nat → Int → List Char → Option (List Char × Int)
  | 0, _, _ => none
  | fuel + 1, fieldWidth, p =>
    if len < fieldWidth then padString len fuel (fieldWidth - 1) (p ++ [' '])
    else some (p, fieldWidth - 1)

/-- `itoa`, with fuel for its loops. -/
def itoa (fuel num radix : Nat) (width _precision : Int) (type : Flags) : Option (List Char) := do
  let (unum, str) :=
    if (type.sign ∨ type.plus) ∧ 2 ^ 31 ≤ num then ((2 ^ 32 - num) % 2 ^ 32, ['-'])
    else if type.plus then (num, ['+'])
    else (num, [])
  let str :=
    if type.special then
      if radix = 8 then str ++ ['0']
      else if radix = 16 then str ++ ['0', if type.small then 'x' else 'X']
      else str
    else str
  let str ← digitLoop type.small radix fuel unum str
  let k := if str.head? = some '-' ∨ str.head? = some '+' then 1 else 0
  let k := k + if type.special then (if radix = 8 then 1 else if radix = 16 then 2 else 0) else 0
  let str ← (if ¬ type.left then fill width (if type.zeropad then '0' else ' ') fuel str else some str)
  let str ← reverseLoop (str.length + k - 1) fuel k str
  fill width ' ' fuel str

/-- The case `'c'`. -/
def charField (fuel : Nat) (flags : Flags) (fieldWidth : Int) (c : Char) : Option (List Char) := do
  let (p, fieldWidth) ← (if ¬ flags.left then padChar fuel fieldWidth [] else some ([], fieldWidth))
  let p := p ++ [c]
  let (p, _) ← padChar fuel fieldWidth p
  some p

/-- The case `'s'`. -/
def stringField (fuel : Nat) (flags : Flags) (fieldWidth precision : Int) (str : List Char) :
    Option (List Char) := do
  let len : Int := str.length
  let len := if 0 ≤ precision ∧ precision < len then precision else len
  let (p, fieldWidth) ← (if ¬ flags.left then padString len fuel fieldWidth [] else some ([], fieldWidth))
  let p := p ++ str.take len.toNat
  let (p, _) ← padString len fuel fieldWidth p
  some p

/-- `switch(*fmt)`: what is written and whether an argument is taken, or `none` for the default. -/
def convert (fuel word : Nat) (text : Nat → List Char) (flags : Flags) (fieldWidth precision : Int)
    (c : Char) : Option (Option (List Char × Nat)) :=
  let number (radix : Nat) (width : Int) (flags : Flags) : Option (Option (List Char × Nat)) :=
    (itoa fuel word radix width precision flags).map fun field => some (field, 1)
  match c with
  | 'x' => number 16 fieldWidth { flags with small := true }
  | 'X' => number 16 fieldWidth flags
  | 'd' => number 10 fieldWidth { flags with sign := true }
  | 'i' => number 10 fieldWidth { flags with sign := true }
  | 'u' => number 10 fieldWidth flags
  | 'o' => number 8 fieldWidth flags
  | 'n' => some (some ([], 1))
  | 'p' =>
    if fieldWidth = -1 then number 16 8 { flags with zeropad := true }
    else number 16 fieldWidth flags
  | 'c' => (charField fuel flags fieldWidth (Char.ofNat (word % 256))).map fun field => some (field, 1)
  | 's' => (stringField fuel flags fieldWidth precision (text word)).map fun field => some (field, 1)
  | '%' => some (some (['%'], 0))
  | _ => some none

/-! ## The cursor

Every character of the format is a read of memory. What is looked at is so part of the result of a
run, and that it belongs to the format can be said of all runs. -/

/-- The zero behind a format. -/
def NUL : Char := Char.ofNat 0

open Reading (get)

/-- `switch(*fmt)`: the flags with one more, or `none` for what breaks the loop. -/
def switchFlag (c : Char) (flags : Flags) : Option Flags :=
  if c = '-' then some { flags with left := true }
  else if c = '+' then some { flags with plus := true }
  else if c = ' ' then some { flags with space := true }
  else if c = '#' then some { flags with special := true }
  else if c = '0' then some { flags with zeropad := true }
  else none

/-- `while(1)`: the flags. -/
def scanFlags : Nat → Nat → Flags → Reading Nat Char (Option (Flags × Nat))
  | 0, _, _ => pure none
  | fuel + 1, fmt, flags => do
    let fmt := fmt + 1
    let c ← get fmt
    match switchFlag c flags with
    | some flags => scanFlags fuel fmt flags
    | none => pure (some (flags, fmt))

/-- `field_width`. -/
def scanWidth (word : Nat) (flags : Flags) (fmt : Nat) : Reading Nat Char (Int × Flags × Nat) := do
  let c ← get fmt
  if c.isDigit then pure ((c.toNat - 48 : Nat), flags, fmt + 1)
  else if c = '*' then
    let fieldWidth := s32 word
    if fieldWidth < 0 then pure (-fieldWidth, { flags with left := true }, fmt)
    else pure (fieldWidth, flags, fmt)
  else pure (-1, flags, fmt)

/-- The number behind a point. -/
def scanDigit (word fmt : Nat) : Reading Nat Char (Int × Nat) := do
  let c ← get fmt
  if c.isDigit then pure ((c.toNat - 48 : Nat), fmt + 1)
  else if c = '*' then pure (s32 word, fmt)
  else pure (-1, fmt)

/-- `precision`. -/
def scanPrecision (word fmt : Nat) : Reading Nat Char (Int × Nat) := do
  let c ← get fmt
  if c = '.' then
    let (precision, fmt) ← scanDigit word (fmt + 1)
    pure (if precision < 0 then 0 else precision, fmt)
  else pure (-1, fmt)

/-- `qualifier`. -/
def scanQualifier (fmt : Nat) : Reading Nat Char Nat := do
  let c ← get fmt
  pure (if c = 'h' ∨ c = 'l' ∨ c = 'L' then fmt + 1 else fmt)

/-- What stands in front of the conversion, and the cursor at it. -/
def scan (word fuel fmt : Nat) : Reading Nat Char (Option (Flags × Int × Int × Nat)) := do
  match ← scanFlags fuel fmt noFlags with
  | none => pure none
  | some (flags, fmt) =>
    let (fieldWidth, flags, fmt) ← scanWidth word flags fmt
    let (precision, fmt) ← scanPrecision word fmt
    let fmt ← scanQualifier fmt
    pure (some (flags, fieldWidth, precision, fmt))

/-- `for(p=buf;*fmt!=0;fmt++)`, fewer than `n` times. -/
def loop (args : Nat → UInt32) (text : Nat → List Char) (fuel : Nat) :
    Nat → Nat → Nat → List Char → Reading Nat Char (Option (List Char × Nat))
  | 0, _, _, _ => pure none
  | n + 1, fmt, arg, p => do
    let c ← get fmt
    if c = NUL then pure (some (p, arg))
    else if c ≠ '%' then loop args text fuel n (fmt + 1) arg (p ++ [c])
    else
      match ← scan (args arg).toNat fuel fmt with
      | none => pure none
      | some (flags, fieldWidth, precision, fmt) =>
        let c ← get fmt
        match convert fuel (args arg).toNat text flags fieldWidth precision c with
        | none => pure none
        | some (some (field, taken)) => loop args text fuel n (fmt + 1) (arg + taken) (p ++ field)
        | some none =>
          let p := p ++ ['%']
          let fmt := fmt - 1
          loop args text fuel n (fmt + 1) arg p

/-- What is written from `buf` on, and where `arg` is at the end. -/
def vsprintf (args : Nat → UInt32) (text : Nat → List Char) (fuel fmt : Nat) :
    Reading Nat Char (Option (List Char × Nat)) := loop args text fuel fuel fmt 0 []

/-! ## The conversions come to an end

For each loop there is fuel enough, and with it or more the result is that of the conversion
without fuel. The fuel needed depends on the number or on the width, which may be any `s32`. -/

section Conversions

open Loop

variable {small : Bool} {radix m unum last j word : Nat} {width precision : Int} {c : Char}
  {str p : List Char} {flags : Flags} {text : Nat → List Char}

/-- With fuel for as many digits as the number has the loop comes to its end. -/
theorem digitLoop_returns (hm : 1 ≤ m) (hunum : unum < radix ^ m) (hradix : 2 ≤ radix) :
    Returns (fun fuel => digitLoop small radix fuel unum str) (Printf.digitLoop small radix m unum str) := by
  induction m generalizing unum str with
  | zero => omega
  | succ m ih =>
    rw [Printf.digitLoop]
    by_cases hlast : unum / radix = 0
    · rw [if_neg (not_not.mpr hlast)]
      exact (Returns.of_some _).round fun fuel => if_neg (not_not.mpr hlast)
    · have hlt : unum / radix < radix ^ m := by
        rw [Nat.div_lt_iff_lt_mul (by omega), ← Nat.pow_succ]
        exact hunum
      have hpos : 1 ≤ m := by
        by_contra h
        rw [show m = 0 by omega, Nat.pow_zero] at hlt
        exact hlast (Nat.lt_one_iff.mp hlt)
      rw [if_pos hlast]
      exact (ih hpos hlt).round fun fuel => if_pos hlast

/-- Filling comes to an end at the width. -/
theorem fill_returns : Returns (fun fuel => fill width c fuel str) (Printf.fill width c str) := by
  unfold Printf.fill
  induction hn : width.toNat - str.length generalizing str with
  | zero =>
    rw [List.replicate_zero, List.append_nil]
    exact (Returns.of_some _).round fun fuel => if_neg (by omega)
  | succ n ih =>
    have hleft : width.toNat - (str ++ [c]).length = n := by
      rw [List.length_append, List.length_singleton]
      omega
    have hrest := ih hleft
    rw [List.append_assoc] at hrest
    exact hrest.round fun fuel => if_pos (by omega)

/-- Turning round comes to an end in the middle. -/
theorem reverseLoop_returns (hm : last / 2 < j + m) :
    Returns (fun fuel => reverseLoop last fuel j str) (Printf.reverseLoop last m j str) := by
  induction m generalizing j str with
  | zero => exact (Returns.of_some _).round fun fuel => if_neg (by omega)
  | succ m ih =>
    rw [Printf.reverseLoop]
    by_cases hj : j ≤ last / 2
    · rw [if_pos hj]
      exact (ih (by omega)).round fun fuel => if_pos hj
    · rw [if_neg hj]
      exact (Returns.of_some _).round fun fuel => if_neg hj

/-- So does the padding of a character. -/
theorem padChar_returns (hm : width.toNat < m) :
    Returns (fun fuel => padChar fuel width p) (Printf.padChar m width p) := by
  induction m generalizing width p with
  | zero => omega
  | succ m ih =>
    rw [Printf.padChar]
    by_cases hlarge : width - 1 > 0
    · rw [if_pos hlarge]
      exact (ih (by omega)).round fun fuel => if_pos hlarge
    · rw [if_neg hlarge]
      exact (Returns.of_some _).round fun fuel => if_neg hlarge

/-- So does that of a string. -/
theorem padString_returns {len : Nat} (hm : width.toNat < m) :
    Returns (fun fuel => padString len fuel width p) (Printf.padString len m width p) := by
  induction m generalizing width p with
  | zero => omega
  | succ m ih =>
    rw [Printf.padString]
    by_cases hlarge : len < width
    · rw [if_pos hlarge]
      exact (ih (by omega)).round fun fuel => if_pos hlarge
    · rw [if_neg hlarge]
      exact (Returns.of_some _).round fun fuel => if_neg hlarge

/-- `itoa` is these loops, one after the other. -/
theorem itoa_returns (num radix : Nat) (width precision : Int) (type : Flags) (hnum : num < 2 ^ 32)
    (hradix : 2 ≤ radix) : Returns (fun fuel => itoa fuel num radix width precision type)
      (Printf.itoa num radix width precision type) := by
  unfold itoa Printf.itoa
  -- the sign and the mark are no loops: only the number behind them matters
  generalize hsign : (if (type.sign ∨ type.plus) ∧ 2 ^ 31 ≤ num then ((2 ^ 32 - num) % 2 ^ 32, ['-'])
    else if type.plus then (num, ['+']) else (num, [])) = signed
  obtain ⟨unum, str⟩ := signed
  have hunum : unum < radix ^ 32 := by
    refine Nat.lt_of_lt_of_le ?_ (Nat.pow_le_pow_left hradix 32)
    split at hsign <;> [skip; split at hsign] <;> cases hsign <;> omega
  dsimp only
  refine (digitLoop_returns (by decide) hunum hradix).bind ?_
  generalize (if type.special then
    if radix = 8 then str ++ ['0']
    else if radix = 16 then str ++ ['0', if type.small then 'x' else 'X']
    else str
  else str) = marked
  have hlen := Cursor.length_le_digitLoop type.small radix 31 unum marked
  generalize Printf.digitLoop type.small radix (31 + 1) unum marked = digits at hlen ⊢
  have hpad := Cursor.length_le_pad width type (if type.zeropad then '0' else ' ') digits
  have hfill : Returns (fun fuel => if ¬ type.left then
      fill width (if type.zeropad then '0' else ' ') fuel digits else some digits)
      (if ¬ type.left then Printf.fill width (if type.zeropad then '0' else ' ') digits else digits) := by
    split
    · exact fill_returns
    · exact Returns.of_some _
  exact hfill.bind ((reverseLoop_returns (by omega)).bind fill_returns)

/-- A character is padded in front of it or behind. -/
theorem charField_returns (flags : Flags) (width : Int) (c : Char) :
    Returns (fun fuel => charField fuel flags width c) (Printf.charField flags width c) := by
  have hlead : Returns (fun fuel => if ¬ flags.left then padChar fuel width [] else some ([], width))
      (if ¬ flags.left then Printf.padChar (width.toNat + 1) width [] else ([], width)) := by
    split
    · exact padChar_returns (Nat.lt_succ_self _)
    · exact Returns.of_some _
  have hle : (if ¬ flags.left then Printf.padChar (width.toNat + 1) width [] else ([], width)).2 ≤ width := by
    rw [padChar_spec (Nat.lt_succ_self _)]
    split
    · dsimp only
      split <;> omega
    · exact le_rfl
  refine hlead.bind ((padChar_returns (m := width.toNat + 1) ?_).bind (Returns.of_some _))
  exact Nat.lt_succ_of_le (Int.toNat_le_toNat hle)

/-- A string is cut off at the precision, and padded. -/
theorem stringField_returns (flags : Flags) (width precision : Int) (str : List Char) :
    Returns (fun fuel => stringField fuel flags width precision str)
      (Printf.stringField flags width precision str) := by
  obtain ⟨len, hlen, -, -⟩ := take_limit precision str
  unfold stringField Printf.stringField
  dsimp only
  rw [hlen]
  have hlead : Returns
      (fun fuel => if ¬ flags.left then padString len fuel width [] else some ([], width))
      (if ¬ flags.left then Printf.padString len (width.toNat + 1) width [] else ([], width)) := by
    split
    · exact padString_returns (Nat.lt_succ_self _)
    · exact Returns.of_some _
  have hle : (if ¬ flags.left then Printf.padString len (width.toNat + 1) width [] else ([], width)).2 ≤
      width := by
    rw [padString_spec (Nat.lt_succ_self _)]
    split
    · dsimp only
      omega
    · exact le_rfl
  refine hlead.bind ((padString_returns (m := width.toNat + 1) ?_).bind (Returns.of_some _))
  exact Nat.lt_succ_of_le (Int.toNat_le_toNat hle)

/-- A conversion comes to an end with what it writes to a text. -/
theorem convert_returns (text : Nat → List Char) (s : Scan) (c : Char) (hword : word < 2 ^ 32) :
    Returns (fun fuel => convert fuel word text s.flags s.fieldWidth s.precision c)
      (Printf.convert word text s c) := by
  have hnumber (radix : Nat) (hradix : 2 ≤ radix) (width : Int) (flags : Flags) :
      Returns (fun fuel => (itoa fuel word radix width s.precision flags).map fun field => some (field, 1))
        (some (Printf.itoa word radix width s.precision flags, 1)) :=
    (itoa_returns word radix width s.precision flags hword hradix).map _
  unfold convert
  dsimp only
  split
  · exact hnumber 16 (by decide) _ _
  · exact hnumber 16 (by decide) _ _
  · exact hnumber 10 (by decide) _ _
  · exact hnumber 10 (by decide) _ _
  · exact hnumber 10 (by decide) _ _
  · exact hnumber 8 (by decide) _ _
  · exact Returns.of_some _
  · show Returns _ (if s.fieldWidth = -1 then _ else _)
    split
    · exact hnumber 16 (by decide) _ _
    · exact hnumber 16 (by decide) _ _
  · exact (charField_returns _ _ _).map _
  · exact (stringField_returns _ _ _ _).map _
  · exact Returns.of_some _
  -- no conversion has this character
  · have hnone : Printf.convert word text s c = none := by
      unfold Printf.convert
      split
      all_goals first | contradiction | rfl
    rw [hnone]
    exact Returns.of_some _

end Conversions

/-! ## The cursor stays on the format

`Rest` ties the cursor to a list of characters with the zero behind it. As each scan of the list
goes forward, so does the scan in memory, and no character behind the zero is looked at. -/

/-- The rest of the format is found at the cursor, and the zero behind it at `hi`. -/
inductive Rest (mem : Nat → Char) (lo hi : Nat) : Nat → List Char → Prop where
  | nul : lo ≤ hi → mem hi = NUL → Rest mem lo hi hi []
  | char {a cs} : lo ≤ a → mem a ≠ NUL → Rest mem lo hi (a + 1) cs → Rest mem lo hi a (mem a :: cs)

/-- All places that a run looks at belong to the format. -/
def Gives {α : Type} (mem : Nat → Char) (lo hi : Nat) (x : Reading Nat Char α) (r : α) : Prop :=
  x.Gives (fun a => some (mem a)) (fun a => lo ≤ a ∧ a ≤ hi) r

section Cursor

variable {mem : Nat → Char} {lo hi a word : Nat} {cs : List Char} {flags : Flags} {c : Char}

theorem Rest.within (h : Rest mem lo hi a cs) : lo ≤ a ∧ a ≤ hi := by
  induction h with
  | nul hle => exact ⟨hle, le_rfl⟩
  | char hle _ _ ih => exact ⟨hle, by omega⟩

/-- A step that looks at the cursor. -/
theorem Rest.read {α : Type} {f : Char → Reading Nat Char α} {r : α} (h : Rest mem lo hi a cs)
    (hf : Gives mem lo hi (f (mem a)) r) : Gives mem lo hi (get a >>= f) r :=
  Reading.Gives.bind (P := fun a => lo ≤ a ∧ a ≤ hi) (Reading.Gives.get h.within rfl) hf

theorem Gives.of_pure {α : Type} (r : α) : Gives mem lo hi (pure r) r := Reading.Gives.pure

/-- A step that looks at the cursor and is done. -/
theorem Rest.gives {α : Type} {f : Char → Reading Nat Char α} {r : α} (h : Rest mem lo hi a cs)
    (hf : f (mem a) = pure r) : Gives mem lo hi (get a >>= f) r :=
  h.read (hf ▸ Gives.of_pure r)

/-- A flag is passed, and everything else stops the scan. -/
theorem scanFlags_cons (c : Char) (cs : List Char) (flags : Flags) :
    Printf.scanFlags (c :: cs) flags =
      match switchFlag c flags with
      | some flags => Printf.scanFlags cs flags
      | none => (flags, c :: cs) := by
  rw [Printf.scanFlags, switchFlag]
  split
  · rfl
  split
  · rfl
  split
  · rfl
  split
  · rfl
  split <;> rfl

/-- The flags end before the format does. -/
theorem scanFlags_gives (flags : Flags) (h : Rest mem lo hi (a + 1) cs) {fuel : Nat} (hfuel : cs.length < fuel) :
    ∃ b, Gives mem lo hi (scanFlags fuel a flags) (some ((Printf.scanFlags cs flags).1, b)) ∧
      Rest mem lo hi b (Printf.scanFlags cs flags).2 := by
  induction cs generalizing a fuel flags with
  | nil =>
    obtain ⟨fuel, rfl⟩ : ∃ n, fuel = n + 1 := ⟨fuel - 1, by omega⟩
    cases h with
    | nul hle hnul =>
      exact ⟨a + 1, Rest.gives (.nul hle hnul) (by rw [hnul]; rfl), .nul hle hnul⟩
  | cons c cs ih =>
    obtain ⟨fuel, rfl⟩ : ∃ n, fuel = n + 1 := ⟨fuel - 1, by omega⟩
    cases h with
    | char hle hne hrest =>
      rw [scanFlags_cons]
      -- a flag, or the character behind the flags
      cases hswitch : switchFlag (mem (a + 1)) flags with
      | some flags' =>
        obtain ⟨b, hb, hrestb⟩ := ih flags' hrest (Nat.lt_of_succ_lt_succ hfuel)
        refine ⟨b, (Rest.char hle hne hrest).read ?_, hrestb⟩
        rw [hswitch]
        exact hb
      | none =>
        exact ⟨a + 1, (Rest.char hle hne hrest).gives (by rw [hswitch]), .char hle hne hrest⟩

/-- The scan of the width looks at one character. -/
theorem scanWidth_gives (word : Nat) (flags : Flags) (h : Rest mem lo hi a cs) : ∃ b,
    Gives mem lo hi (scanWidth word flags a)
      ((Printf.scanWidth word flags cs).1, (Printf.scanWidth word flags cs).2.1, b) ∧
      Rest mem lo hi b (Printf.scanWidth word flags cs).2.2 := by
  cases h with
  | nul hle hnul =>
    exact ⟨hi, Rest.gives (.nul hle hnul) (by rw [hnul]; rfl), .nul hle hnul⟩
  | char hle hne hrest =>
    have h := Rest.char hle hne hrest
    unfold scanWidth Printf.scanWidth
    generalize s32 word = width
    dsimp only
    -- a number, a `*` or nothing
    by_cases hdigit : (mem a).isDigit
    · rw [if_pos hdigit]
      exact ⟨a + 1, h.gives (if_pos hdigit), hrest⟩
    rw [if_neg hdigit]
    by_cases hstar : mem a = '*'
    · rw [if_pos hstar]
      by_cases hneg : width < 0
      · simp only [if_pos hneg]
        exact ⟨a, h.gives ((if_neg hdigit).trans (if_pos hstar)), h⟩
      · simp only [if_neg hneg]
        exact ⟨a, h.gives ((if_neg hdigit).trans (if_pos hstar)), h⟩
    · rw [if_neg hstar]
      exact ⟨a, h.gives ((if_neg hdigit).trans (if_neg hstar)), h⟩

/-- So does that of a digit. -/
theorem scanDigit_gives (word : Nat) (h : Rest mem lo hi a cs) : ∃ b,
    Gives mem lo hi (scanDigit word a) ((Printf.scanDigit word cs).1, b) ∧
      Rest mem lo hi b (Printf.scanDigit word cs).2 := by
  cases h with
  | nul hle hnul =>
    exact ⟨hi, Rest.gives (.nul hle hnul) (by rw [hnul]; rfl), .nul hle hnul⟩
  | char hle hne hrest =>
    have h := Rest.char hle hne hrest
    unfold scanDigit Printf.scanDigit
    generalize s32 word = number
    dsimp only
    -- a number, a `*` or nothing
    by_cases hdigit : (mem a).isDigit
    · rw [if_pos hdigit]
      exact ⟨a + 1, h.gives (if_pos hdigit), hrest⟩
    rw [if_neg hdigit]
    by_cases hstar : mem a = '*'
    · rw [if_pos hstar]
      exact ⟨a, h.gives ((if_neg hdigit).trans (if_pos hstar)), h⟩
    · rw [if_neg hstar]
      exact ⟨a, h.gives ((if_neg hdigit).trans (if_neg hstar)), h⟩

/-- The precision is a point and a digit. -/
theorem scanPrecision_gives (word : Nat) (h : Rest mem lo hi a cs) : ∃ b,
    Gives mem lo hi (scanPrecision word a) ((Printf.scanPrecision word cs).1, b) ∧
      Rest mem lo hi b (Printf.scanPrecision word cs).2 := by
  cases h with
  | nul hle hnul =>
    exact ⟨hi, Rest.gives (.nul hle hnul) (by rw [hnul]; rfl), .nul hle hnul⟩
  | char hle hne hrest =>
    have h := Rest.char hle hne hrest
    rw [Printf.scanPrecision]
    by_cases hpoint : mem a = '.'
    · obtain ⟨b, hb, hrestb⟩ := scanDigit_gives word hrest
      rw [if_pos hpoint]
      refine ⟨b, h.read ?_, hrestb⟩
      rw [if_pos hpoint]
      exact Reading.Gives.bind hb (Gives.of_pure _)
    · rw [if_neg hpoint]
      exact ⟨a, h.gives (if_neg hpoint), h⟩

/-- The qualifier is one letter, or none. -/
theorem scanQualifier_gives (h : Rest mem lo hi a cs) : ∃ b,
    Gives mem lo hi (scanQualifier a) b ∧ Rest mem lo hi b (Printf.scanQualifier cs) := by
  cases h with
  | nul hle hnul =>
    exact ⟨hi, Rest.gives (.nul hle hnul) (by rw [hnul]; rfl), .nul hle hnul⟩
  | char hle hne hrest =>
    have h := Rest.char hle hne hrest
    rw [Printf.scanQualifier]
    by_cases hletter : mem a = 'h' ∨ mem a = 'l' ∨ mem a = 'L'
    · rw [if_pos hletter]
      exact ⟨a + 1, h.gives (congrArg pure (if_pos hletter)), hrest⟩
    · rw [if_neg hletter]
      exact ⟨a, h.gives (congrArg pure (if_neg hletter)), h⟩

/-- All of them, one after the other. -/
theorem scan_gives (word : Nat) (h : Rest mem lo hi (a + 1) cs) {fuel : Nat} (hfuel : cs.length < fuel) :
    ∃ b, Gives mem lo hi (scan word fuel a) (some ((Printf.scan word cs).flags,
        (Printf.scan word cs).fieldWidth, (Printf.scan word cs).precision, b)) ∧
      Rest mem lo hi b (Printf.scan word cs).fmt := by
  obtain ⟨b, hflags, hb⟩ := scanFlags_gives noFlags h hfuel
  obtain ⟨c, hwidth, hc⟩ := scanWidth_gives word (Printf.scanFlags cs noFlags).1 hb
  obtain ⟨d, hprecision, hd⟩ := scanPrecision_gives word hc
  obtain ⟨e, hqualifier, he⟩ := scanQualifier_gives hd
  exact ⟨e, hflags.bind (hwidth.bind (hprecision.bind (hqualifier.bind (Gives.of_pure _)))), he⟩

/-- The character at the cursor is the first of the list, or the zero. -/
theorem Rest.headD (h : Rest mem lo hi a cs) : mem a = cs.headD NUL := by
  cases h with
  | nul _ hnul => exact hnul
  | char => rfl

/-- The end of the format is as far away as the list is long. -/
theorem Rest.hi_eq (h : Rest mem lo hi a cs) : a + cs.length = hi := by
  induction h with
  | nul => rfl
  | char _ _ _ ih =>
    rw [List.length_cons]
    omega

/-! ## Any format

By induction on the length of the list: behind a directive the list is shorter, and so it is at a
conversion that is not known, which is read again as a character. -/

variable {args : Nat → UInt32} {text : Nat → List Char} {arg : Nat} {p : List Char} {s : Scan}

/-- A directive without a conversion that is known, be it that the format ends. -/
theorem vsprintf_unknown (hs : Printf.scan (args arg).toNat cs = s)
    (hconv : Printf.convert (args arg).toNat text s (s.fmt.headD NUL) = none) :
    Printf.vsprintf args text ('%' :: cs) arg =
      ('%' :: (Printf.vsprintf args text s.fmt arg).1, (Printf.vsprintf args text s.fmt arg).2) := by
  subst hs
  cases hfmt : (Printf.scan (args arg).toNat cs).fmt with
  | nil => rw [vsprintf_end hfmt, vsprintf_nil]
  | cons c rest =>
    rw [hfmt] at hconv
    exact vsprintf_default hfmt hconv

/-- A round at a directive. The cursor is behind the conversion or, when that is not known, still on it. -/
theorem loop_directive (hs : Printf.scan (args arg).toNat cs = s) (hpercent : mem a = '%')
    (h : Rest mem lo hi a (mem a :: cs)) {fuel n : Nat} {r : Option (List Char × Nat)}
    (hfuel : cs.length < fuel)
    (hconv : convert fuel (args arg).toNat text s.flags s.fieldWidth s.precision (s.fmt.headD NUL) =
      some (Printf.convert (args arg).toNat text s (s.fmt.headD NUL)))
    (hnext : ∀ b, Rest mem lo hi b s.fmt →
      match Printf.convert (args arg).toNat text s (s.fmt.headD NUL) with
      | some (field, taken) =>
        Gives mem lo hi (loop args text fuel n (b + 1) (arg + taken) (p ++ field)) r
      | none => Gives mem lo hi (loop args text fuel n b arg (p ++ ['%'])) r) :
    Gives mem lo hi (loop args text fuel (n + 1) a arg p) r := by
  subst hs
  cases h with
  | char hle hne hrest =>
    obtain ⟨b, hscan, hb⟩ := scan_gives (args arg).toNat hrest hfuel
    have hr := hnext b hb
    refine (Rest.char hle hne hrest).read ?_
    rw [if_neg hne, if_neg (not_not.mpr hpercent)]
    refine Reading.Gives.bind hscan (hb.read ?_)
    rw [hb.headD, hconv]
    cases hknown : Printf.convert (args arg).toNat text (Printf.scan (args arg).toNat cs)
      ((Printf.scan (args arg).toNat cs).fmt.headD NUL) with
    | some field =>
      rw [hknown] at hr
      exact hr
    | none =>
      -- `fmt--` gives the character back that was read last
      have hback : b - 1 + 1 = b := by
        have hend := hb.hi_eq
        have hstart := hrest.hi_eq
        have hlen : (Printf.scan (args arg).toNat cs).fmt.length ≤ cs.length := scan_length
        omega
      rw [hknown] at hr
      show Gives mem lo hi (loop args text fuel n (b - 1 + 1) arg (p ++ ['%'])) r
      rwa [hback]

/-- With fuel enough, the loop writes what the list `cs` gives, wherever it is the rest of a format. -/
def Prints (mem : Nat → Char) (lo hi : Nat) (args : Nat → UInt32) (text : Nat → List Char)
    (cs : List Char) (arg : Nat) : Prop :=
  ∃ enough, ∀ fuel, enough ≤ fuel → ∀ n, cs.length < n → ∀ a p, Rest mem lo hi a cs →
    Gives mem lo hi (loop args text fuel n a arg p) (some
      (p ++ (Printf.vsprintf args text cs arg).1, (Printf.vsprintf args text cs arg).2))

/-- At the zero the loop ends. -/
theorem Prints.nil : Prints mem lo hi args text [] arg := by
  refine ⟨0, fun fuel _ n hn a p h => ?_⟩
  obtain ⟨n, rfl⟩ : ∃ m, n = m + 1 := ⟨n - 1, by omega⟩
  rw [vsprintf_nil, List.append_nil]
  exact h.gives (if_pos h.headD)

/-- A character is written. -/
theorem Prints.literal {c : Char} (hrest : Prints mem lo hi args text cs arg) (hc : c ≠ '%') :
    Prints mem lo hi args text (c :: cs) arg := by
  obtain ⟨enough, hrest⟩ := hrest
  refine ⟨enough, fun fuel hfuel n hn a p h => ?_⟩
  obtain ⟨n, rfl⟩ : ∃ m, n = m + 1 := ⟨n - 1, by omega⟩
  cases h with
  | char hle hne htail =>
    have hgives := hrest fuel hfuel n (by simpa using hn) (a + 1) (p ++ [mem a]) htail
    rw [List.append_assoc] at hgives
    refine (Rest.char hle hne htail).read ?_
    rw [if_neg hne, if_pos hc, vsprintf_literal hc]
    exact hgives

/-- After `%`, what is left of the directive is read as it stands. -/
theorem Prints.unknown (hs : Printf.scan (args arg).toNat cs = s)
    (hknown : Printf.convert (args arg).toNat text s (s.fmt.headD NUL) = none)
    (hrest : Prints mem lo hi args text s.fmt arg) : Prints mem lo hi args text ('%' :: cs) arg := by
  obtain ⟨enough, hrest⟩ := hrest
  obtain ⟨loops, hconv⟩ := convert_returns text s (s.fmt.headD NUL) (args arg).toNat_lt
  have hshort : s.fmt.length ≤ cs.length := hs ▸ scan_length
  refine ⟨max (cs.length + 1) (max loops enough), fun fuel hfuel n hn a p h => ?_⟩
  rw [List.length_cons] at hn
  obtain ⟨n, rfl⟩ : ∃ m, n = m + 1 := ⟨n - 1, by omega⟩
  have hpercent : mem a = '%' := h.headD
  refine loop_directive hs hpercent (by rwa [hpercent]) (by omega) (hconv fuel (by omega)) fun b hb => ?_
  have hgives := hrest fuel (by omega) n (by omega) b (p ++ ['%']) hb
  rw [List.append_assoc] at hgives
  rw [hknown, vsprintf_unknown hs hknown]
  exact hgives

/-- A directive is written, and the loop goes on behind it. -/
theorem Prints.known {c : Char} {rest field : List Char} {taken : Nat}
    (hs : Printf.scan (args arg).toNat cs = s) (hfmt : s.fmt = c :: rest)
    (hknown : Printf.convert (args arg).toNat text s c = some (field, taken))
    (hrest : Prints mem lo hi args text rest (arg + taken)) :
    Prints mem lo hi args text ('%' :: cs) arg := by
  obtain ⟨enough, hrest⟩ := hrest
  obtain ⟨loops, hconv⟩ := convert_returns text s (s.fmt.headD NUL) (args arg).toNat_lt
  have hshort : s.fmt.length ≤ cs.length := hs ▸ scan_length
  rw [hfmt, List.length_cons] at hshort
  refine ⟨max (cs.length + 1) (max loops enough), fun fuel hfuel n hn a p h => ?_⟩
  rw [List.length_cons] at hn
  obtain ⟨n, rfl⟩ : ∃ m, n = m + 1 := ⟨n - 1, by omega⟩
  have hpercent : mem a = '%' := h.headD
  refine loop_directive hs hpercent (by rwa [hpercent]) (by omega) (hconv fuel (by omega)) fun b hb => ?_
  rw [hfmt] at hb
  cases hb with
  | char _ _ htail =>
    have hgives := hrest fuel (by omega) n (by omega) (b + 1) (p ++ field) htail
    rw [List.append_assoc] at hgives
    rw [hfmt, List.headD_cons, hknown, vsprintf_convert (hs ▸ hfmt) (by rwa [hs])]
    exact hgives

/-- By induction on what is left of the format. A round takes a character at least, also where the cursor
goes back: the `%` is not read again. -/
theorem prints (mem : Nat → Char) (lo hi : Nat) (args : Nat → UInt32) (text : Nat → List Char)
    (cs : List Char) (arg : Nat) : Prints mem lo hi args text cs arg := by
  induction hlen : cs.length using Nat.strongRecOn generalizing cs arg with
  | _ len ih =>
    cases cs with
    | nil => exact Prints.nil
    | cons c cs =>
      rw [List.length_cons] at hlen
      by_cases hc : c = '%'
      · subst hc
        obtain ⟨s, hs⟩ : ∃ s, Printf.scan (args arg).toNat cs = s := ⟨_, rfl⟩
        have hshort : s.fmt.length ≤ cs.length := hs ▸ scan_length
        -- what is left is shorter, whether the directive is known or not
        cases hknown : Printf.convert (args arg).toNat text s (s.fmt.headD NUL) with
        | none => exact Prints.unknown hs hknown (ih s.fmt.length (by omega) s.fmt arg rfl)
        | some known =>
          obtain ⟨field, taken⟩ := known
          cases hfmt : s.fmt with
          | nil =>
            rw [hfmt] at hknown
            exact nomatch hknown
          | cons d rest =>
            rw [hfmt] at hknown hshort
            rw [List.length_cons] at hshort
            exact Prints.known hs hfmt hknown (ih rest.length (by omega) rest (arg + taken) rfl)
      · exact Prints.literal (ih cs.length (by omega) cs arg rfl) hc

/-- A memory with a zero in it has a format in front of the first one. -/
theorem rest_of_nul {n : Nat} (hlo : lo ≤ a) (hhi : a + n = hi) (hnul : mem hi = NUL)
    (hchars : ∀ i < n, mem (a + i) ≠ NUL) :
    Rest mem lo hi a ((List.range n).map fun i => mem (a + i)) := by
  induction n generalizing a with
  | zero =>
    obtain rfl : a = hi := hhi
    exact .nul hlo hnul
  | succ n ih =>
    have htail := ih (a := a + 1) (by omega) (by omega) fun i hi => by
      rw [Nat.add_right_comm]
      exact hchars (i + 1) (by omega)
    rw [List.range_succ_eq_map, List.map_cons, List.map_map]
    refine .char hlo (hchars 0 (Nat.succ_pos n)) ?_
    simpa only [Function.comp_def, Nat.succ_eq_add_one, Nat.add_right_comm, Nat.add_assoc] using htail

end Cursor

/-- **`vsprintf` is total.** On any format that a zero ends, and with any arguments, every loop comes to
an end. What is written is what the characters up to the zero give, and no other character of the format
is looked at than these and the zero. -/
theorem vsprintf_total (args : Nat → UInt32) (text : Nat → List Char) (mem : Nat → Char) (fmt n : Nat)
    (hnul : mem (fmt + n) = NUL) (hchars : ∀ i < n, mem (fmt + i) ≠ NUL) :
    ∃ enough, ∀ fuel, enough ≤ fuel →
      (vsprintf args text fuel fmt).eval (fun a => some (mem a)) =
        some (some (Printf.vsprintf args text ((List.range n).map fun i => mem (fmt + i)) 0)) ∧
      ∀ a ∈ (vsprintf args text fuel fmt).reads (fun a => some (mem a)), fmt ≤ a ∧ a ≤ fmt + n := by
  obtain ⟨enough, hloop⟩ := prints mem fmt (fmt + n) args text
    ((List.range n).map fun i => mem (fmt + i)) 0
  rw [List.length_map, List.length_range] at hloop
  refine ⟨max enough (n + 1), fun fuel hfuel => ?_⟩
  have hgives := hloop fuel (by omega) fuel (by omega) fmt [] (rest_of_nul le_rfl rfl hnul hchars)
  exact ⟨hgives.eval_eq, hgives.places⟩

/-- `"%5q%"`: a conversion that is not known, and a directive that the zero cuts off. -/
def malformed : List Char := ['%', '5', 'q', '%']

/-- What is not known is written as it stands, and the loop ends at the zero. -/
theorem vsprintf_total_malformed : ∃ enough, ∀ fuel, enough ≤ fuel →
    (vsprintf (fun _ => 0) (fun _ => []) fuel 0).eval (fun a => some (malformed.getD a NUL)) =
      some (some (['%', 'q', '%'], 0)) ∧
    ∀ a ∈ (vsprintf (fun _ => 0) (fun _ => []) fuel 0).reads (fun a => some (malformed.getD a NUL)),
      0 ≤ a ∧ a ≤ 0 + 4 := by
  have htail : Printf.vsprintf (fun _ => 0) (fun _ => []) ['q', '%'] 0 = (['q', '%'], 0) := by
    rw [vsprintf_literal (by decide), vsprintf_end rfl]
  have htext : Printf.vsprintf (fun _ => 0) (fun _ => []) malformed 0 =
      ('%' :: (Printf.vsprintf (fun _ => 0) (fun _ => []) ['q', '%'] 0).1,
        (Printf.vsprintf (fun _ => 0) (fun _ => []) ['q', '%'] 0).2) := vsprintf_default rfl rfl
  rw [htail] at htext
  rw [← htext]
  exact vsprintf_total (fun _ => 0) (fun _ => []) (fun a => malformed.getD a NUL) 0 4 rfl (by decide)

end Total

end Printf

end NorlitOS
