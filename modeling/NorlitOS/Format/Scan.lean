import NorlitOS.Format.Directive

/-!
# What `vsprintf` makes of a directive

Without a `*` the parts of a directive are found one after the other, and it is replaced by its
conversion. A `*` is still there when the conversion is looked for, so it is taken for one that is
not known: `%` is written, and what is left of the directive is read again as plain text.
-/

namespace NorlitOS

namespace Printf

variable {args : Nat → UInt32} {text : Nat → List Char} {arg word n : Nat} {fmt tail : List Char}
  {flags : Flags} {d : Directive}

/-! ## The first character of each part

Each part of a directive is known by its first character: what follows a part is never a character
that the part would take as well. So the scan of a part ends where the part ends. -/

/-- The characters a qualifier or a conversion may be. -/
def letters : List Char := ['h', 'l', 'L', 'd', 'i', 'u', 'x', 'X', 'o', 'p', 'c', 's', '%']

/-- The first character is one of `cs`. -/
def Starts (cs fmt : List Char) : Prop := ∃ c ∈ cs, ∃ rest, fmt = c :: rest

/-- A larger set of characters will do. -/
theorem Starts.mono {cs cs' : List Char} (h : Starts cs fmt) (hsub : ∀ c ∈ cs, c ∈ cs') :
    Starts cs' fmt := by
  obtain ⟨c, hc, rest, rfl⟩ := h
  exact ⟨c, hsub c hc, rest, rfl⟩

/-- The letter of a conversion is one of them. -/
theorem Conversion.char_mem (v : Conversion) : v.char ∈ letters := by cases v <;> decide

/-- Behind the precision comes a letter. -/
theorem starts_qualifier (q : Option Qualifier) (v : Conversion) (tail : List Char) :
    Starts letters (q.toList.map Qualifier.char ++ v.char :: tail) := by
  cases q with
  | none => exact ⟨v.char, v.char_mem, tail, rfl⟩
  | some q => exact ⟨q.char, by cases q <;> decide, _, rfl⟩

/-- Behind the width comes a point or a letter. -/
theorem starts_point (a : Amount) (h : Starts letters fmt) :
    Starts ('.' :: letters) (a.pointChars ++ fmt) := by
  cases a with
  | absent => exact h.mono fun c hc => List.mem_cons_of_mem _ hc
  | digit n => exact ⟨'.', List.mem_cons_self, _, rfl⟩
  | star => exact ⟨'.', List.mem_cons_self, _, rfl⟩

/-- The digits from 1 on. -/
def digitChars : List Char := ['1', '2', '3', '4', '5', '6', '7', '8', '9']

/-- A digit is read as the number it was written for. -/
theorem digit_spec (hn : n ≤ 9) : (Char.ofNat (48 + n)).isDigit = true ∧
    (Char.ofNat (48 + n)).toNat - 48 = n ∧ (1 ≤ n → Char.ofNat (48 + n) ∈ digitChars) := by
  have h : ∀ n < 10, (Char.ofNat (48 + n)).isDigit = true ∧ (Char.ofNat (48 + n)).toNat - 48 = n ∧
      (1 ≤ n → Char.ofNat (48 + n) ∈ digitChars) := by decide
  exact h n (by omega)

/-- Behind the flags comes a `*`, a digit other than zero, a point or a letter. -/
theorem starts_width (a : Amount) (ha : ∀ n, a = .digit n → 1 ≤ n ∧ n ≤ 9)
    (h : Starts ('.' :: letters) fmt) :
    Starts ('*' :: (digitChars ++ '.' :: letters)) (a.chars ++ fmt) := by
  cases a with
  | absent => exact h.mono fun c hc => List.mem_cons_of_mem _ (List.mem_append_right _ hc)
  | digit n =>
    obtain ⟨hone, hnine⟩ := ha n rfl
    exact ⟨_, List.mem_cons_of_mem _ (List.mem_append_left _ ((digit_spec hnine).2.2 hone)), _, rfl⟩
  | star => exact ⟨'*', List.mem_cons_self, _, rfl⟩

/-! ## The parts

One lemma for each part: it is read, and what is behind it is left. A width or a precision must
not be a `*` for this. -/

/-- All flags are set, in any order and however often. -/
theorem scanFlags_map {fs : List Flag} (h : Starts ('*' :: (digitChars ++ '.' :: letters)) fmt) :
    scanFlags (fs.map Flag.char ++ fmt) flags = (fs.foldl Flag.set flags, fmt) := by
  induction fs generalizing flags with
  | nil =>
    obtain ⟨c, hc, rest, rfl⟩ := h
    have hother : ∀ c ∈ '*' :: (digitChars ++ '.' :: letters),
        c ≠ '-' ∧ c ≠ '+' ∧ c ≠ ' ' ∧ c ≠ '#' ∧ c ≠ '0' := by simp [letters, digitChars]
    obtain ⟨hminus, hplus, hspace, hsharp, hzero⟩ := hother c hc
    show scanFlags (c :: rest) flags = _
    rw [scanFlags, if_neg hminus, if_neg hplus, if_neg hspace, if_neg hsharp, if_neg hzero]
    rfl
  | cons f fs ih =>
    rw [List.foldl_cons, ← ih]
    cases f <;> rfl

/-- The width is read. -/
theorem scanWidth_spec {a : Amount} (ha : ∀ n, a = .digit n → 1 ≤ n ∧ n ≤ 9)
    (h : Starts ('.' :: letters) fmt) (hstar : a.stars = 0) :
    scanWidth word flags (a.chars ++ fmt) = (a.value word, flags, fmt) := by
  cases a with
  | absent =>
    obtain ⟨c, hc, rest, rfl⟩ := h
    have hother : ∀ c ∈ '.' :: letters, ¬ c.isDigit ∧ c ≠ '*' := by simp [letters]
    show scanWidth word flags (c :: rest) = _
    rw [scanWidth, if_neg (hother c hc).1, if_neg (hother c hc).2]
    rfl
  | digit n =>
    obtain ⟨hdigit, hvalue, -⟩ := digit_spec (ha n rfl).2
    show scanWidth word flags (Char.ofNat (48 + n) :: fmt) = _
    rw [scanWidth, if_pos hdigit, hvalue]
    rfl
  | star => exact nomatch hstar

/-- The precision is read. -/
theorem scanPrecision_spec {a : Amount} (ha : ∀ n, a = .digit n → n ≤ 9) (h : Starts letters fmt)
    (hstar : a.stars = 0) : scanPrecision word (a.pointChars ++ fmt) = (a.value word, fmt) := by
  cases a with
  | absent =>
    obtain ⟨c, hc, rest, rfl⟩ := h
    have hother : ∀ c ∈ letters, c ≠ '.' := by simp [letters]
    exact if_neg (hother c hc)
  | digit n =>
    obtain ⟨hdigit, hvalue, -⟩ := digit_spec (ha n rfl)
    have hscan : scanDigit word (Char.ofNat (48 + n) :: fmt) = ((n : Int), fmt) := by
      rw [scanDigit, if_pos hdigit, hvalue]
    show scanPrecision word ('.' :: Char.ofNat (48 + n) :: fmt) = _
    rw [scanPrecision, if_pos rfl, hscan]
    exact congrArg (·, fmt) (if_neg (by omega))
  | star => cases hstar

/-- The qualifier is passed. -/
theorem scanQualifier_spec (q : Option Qualifier) (v : Conversion) :
    scanQualifier (q.toList.map Qualifier.char ++ v.char :: tail) = v.char :: tail := by
  cases q with
  | none => cases v <;> rfl
  | some q => cases q <;> rfl

namespace Directive

/-- Behind flags, width and precision comes a letter. -/
theorem starts (d : Directive) (tail : List Char) :
    Starts letters (d.qualifier.toList.map Qualifier.char ++ d.conversion.char :: tail) :=
  starts_qualifier d.qualifier d.conversion tail

/-- The parts of a directive, one behind the other. -/
theorem middle_append (d : Directive) (tail : List Char) : d.middle ++ d.conversion.char :: tail =
    d.flags.map Flag.char ++ (d.width.chars ++ (d.precision.pointChars ++
      (d.qualifier.toList.map Qualifier.char ++ d.conversion.char :: tail))) := by
  unfold middle
  rw [List.append_assoc, List.append_assoc, List.append_assoc]

/-- The `%` and then the parts. -/
theorem chars_append (d : Directive) (tail : List Char) :
    d.chars ++ tail = '%' :: (d.middle ++ d.conversion.char :: tail) := by
  unfold chars
  rw [List.cons_append, List.append_assoc]
  rfl

/-- A directive without a `*` is found part by part. -/
theorem scan_plain (d : Directive) (word : Nat) (tail : List Char) (hstars : d.stars = 0) : scan word (d.middle ++ d.conversion.char :: tail) =
    ⟨d.flags.foldl Flag.set noFlags, d.width.value word, d.precision.value word,
      d.conversion.char :: tail⟩ := by
  have hpoint := starts_point d.precision (d.starts tail)
  unfold stars at hstars
  unfold scan
  rw [middle_append, scanFlags_map (starts_width d.width d.width_digit hpoint)]
  dsimp only
  rw [scanWidth_spec d.width_digit hpoint (by omega)]
  dsimp only
  rw [scanPrecision_spec d.precision_digit (d.starts tail) (by omega)]
  dsimp only
  rw [scanQualifier_spec]

end Directive

/-! ## The conversions

For each conversion, what it writes is what the directive stands for. The loops that pad a field
decrease the width as they go, which the second loop of each pair depends on. -/

variable {width precision : Int} {str : List Char} {c : Char}

/-- The first loop leaves no width for the second. -/
theorem padChar_spec (hn : width.toNat < n) : padChar n width str =
    (str ++ List.replicate (width.toNat - 1) ' ', if 0 < width then 0 else width - 1) := by
  induction n generalizing width str with
  | zero => omega
  | succ n ih =>
    rw [padChar]
    by_cases hlarge : width - 1 > 0
    · rw [if_pos hlarge, ih (by omega), if_pos hlarge, if_pos (by omega), List.append_assoc,
        show width.toNat - 1 = (width - 1).toNat - 1 + 1 by omega, List.replicate_succ]
      rfl
    · rw [if_neg hlarge, show width.toNat - 1 = 0 by omega, List.replicate_zero, List.append_nil]
      congr 1
      split <;> omega

/-- A character in its field. -/
theorem charField_eq : charField flags width c = fieldText flags.left width [c] := by
  unfold charField fieldText
  dsimp only
  rw [List.length_singleton]
  cases flags.left with
  | true =>
    rw [if_neg (not_not.mpr rfl), if_pos rfl]
    dsimp only
    rw [padChar_spec (Nat.lt_succ_self _)]
    rfl
  | false =>
    rw [if_pos Bool.false_ne_true, if_neg Bool.false_ne_true, padChar_spec (Nat.lt_succ_self _)]
    dsimp only
    have hdone : (if 0 < width then 0 else width - 1).toNat - 1 = 0 := by
      split <;> omega
    rw [padChar_spec (by split <;> omega), hdone, List.replicate_zero, List.append_nil]
    rfl

/-- The first loop pads up to the width and leaves a width that the second one does not pad for.
-/
theorem padString_spec {len : Nat} (hn : width.toNat < n) : padString len n width str =
    (str ++ List.replicate (width.toNat - len) ' ', min (len : Int) width - 1) := by
  induction n generalizing width str with
  | zero => omega
  | succ n ih =>
    rw [padString]
    by_cases hlarge : (len : Int) < width
    · rw [if_pos hlarge, ih (by omega), List.append_assoc,
        show width.toNat - len = (width - 1).toNat - len + 1 by omega, List.replicate_succ,
        show min (len : Int) (width - 1) = min (len : Int) width by omega]
      rfl
    · rw [if_neg hlarge, show width.toNat - len = 0 by omega, List.replicate_zero, List.append_nil,
        show min (len : Int) width = width by omega]

/-- What is copied of a string. -/
theorem take_limit (precision : Int) (str : List Char) : ∃ len : Nat, (if 0 ≤ precision ∧ precision < (str.length : Int) then precision
      else (str.length : Int)) = len ∧ (str.take len).length = len ∧
    str.take len = if 0 ≤ precision then str.take precision.toNat else str := by
  by_cases hcut : 0 ≤ precision ∧ precision < (str.length : Int)
  · refine ⟨precision.toNat, ?_, ?_, ?_⟩
    · rw [if_pos hcut]
      omega
    · rw [List.length_take]
      omega
    · rw [if_pos hcut.1]
  · refine ⟨str.length, if_neg hcut, by rw [List.take_length], ?_⟩
    rw [List.take_length]
    split
    · exact (List.take_of_length_le (by omega)).symm
    · rfl

/-- A string in its field, cut off at the precision. -/
theorem stringField_eq : stringField flags width precision str =
    fieldText flags.left width (if 0 ≤ precision then str.take precision.toNat else str) := by
  obtain ⟨len, hlen, hlength, htake⟩ := take_limit precision str
  unfold stringField fieldText
  dsimp only
  rw [hlen, Int.toNat_natCast, ← htake, hlength]
  cases flags.left with
  | true =>
    rw [if_neg (not_not.mpr rfl), if_pos rfl]
    dsimp only
    rw [padString_spec (Nat.lt_succ_self _)]
    rfl
  | false =>
    rw [if_pos Bool.false_ne_true, if_neg Bool.false_ne_true, padString_spec (Nat.lt_succ_self _)]
    dsimp only
    rw [padString_spec (by omega), show (min (len : Int) width - 1).toNat - len = 0 by omega,
      List.replicate_zero, List.append_nil]
    rfl

namespace Directive

/-- Without a `*` the layout is in the directive. -/
theorem layout_plain (hstars : d.stars = 0) :
    d.layout args arg = (d.flags.foldl Flag.set noFlags, d.width.value (args arg).toNat) := by
  unfold stars at hstars
  unfold layout
  exact if_neg fun h => by omega

theorem limit_plain (hstars : d.stars = 0) : d.limit args arg = d.precision.value (args arg).toNat := by
  unfold stars at hstars
  unfold limit
  rw [show d.width.stars = 0 by omega]
  exact if_neg fun h => by omega

theorem convert_pointer {s : Scan} (h : s.fieldWidth ≠ -1) : convert word text s 'p' =
    some (itoa word 16 s.fieldWidth s.precision s.flags, 1) := if_neg h

/-- Without a `*` a directive is replaced by its conversion. -/
theorem convert_plain (d : Directive) (hstars : d.stars = 0) :
    convert (args arg).toNat text ⟨d.flags.foldl Flag.set noFlags, d.width.value (args arg).toNat,
        d.precision.value (args arg).toNat, fmt⟩ d.conversion.char =
      some (d.render args text arg, d.conversion.arguments) := by
  have hnumber : ∀ {radix : Nat} {w prec : Int} {fl : Flags}, 2 ≤ radix →
      some (itoa (args arg).toNat radix w prec fl, 1) = some (numberText (args arg).toNat radix w fl, 1) := by
    intro radix w prec fl hradix
    rw [itoa_eq (args arg).toNat_lt hradix]
  unfold render
  rw [layout_plain hstars, limit_plain hstars, hstars, Nat.add_zero]
  dsimp only
  -- numbers are `itoa`; only `%p` changes what it is given
  cases d.conversion with
  | d => exact hnumber (by decide)
  | i => exact hnumber (by decide)
  | u => exact hnumber (by decide)
  | x => exact hnumber (by decide)
  | X => exact hnumber (by decide)
  | o => exact hnumber (by decide)
  | p =>
    -- `%p` sets the width to 8 unless there is one
    cases hwidth : d.width with
    | absent => exact hnumber (by decide)
    | digit n =>
      have hne : (n : Int) ≠ -1 := by omega
      exact (convert_pointer hne).trans (hnumber (by decide))
    | star =>
      unfold stars at hstars
      rw [hwidth] at hstars
      have hone : 1 + d.precision.stars = 0 := hstars
      omega
  | c => exact congrArg (fun field => some (field, 1)) charField_eq
  | s => exact congrArg (fun field => some (field, 1)) stringField_eq
  | percent => rfl

/-- A directive without a `*` is done with, and takes the argument it names. -/
theorem vsprintf_plain (d : Directive) (hstars : d.stars = 0) (tail : List Char) (arg : Nat) :
    vsprintf args text (d.chars ++ tail) arg =
      (d.render args text arg ++ (vsprintf args text tail (arg + d.named)).1,
        (vsprintf args text tail (arg + d.named)).2) := by
  have hscan := d.scan_plain (args arg).toNat tail hstars
  have hnamed : d.named = d.conversion.arguments := by
    unfold named
    rw [hstars, Nat.zero_add]
  rw [chars_append, hnamed]
  refine vsprintf_convert (by rw [hscan]) ?_
  rw [hscan]
  exact d.convert_plain hstars

end Directive

end Printf

end NorlitOS
