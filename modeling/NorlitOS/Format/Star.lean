import NorlitOS.Format.Scan

/-!
# A `*` in a directive

The argument of a `*` is read but not passed over, and neither is the `*`. The rest of the directive
is plain text then, unless its conversion is `%`: that begins another directive, which may take an
argument that belongs to no one. Even so, no format takes more arguments than it names, and one
with a `*` takes fewer or is seen to be wrong by the `*` that it writes.
-/

namespace NorlitOS

namespace Printf

variable {args : Nat → UInt32} {text : Nat → List Char} {arg word n : Nat} {fmt tail : List Char}
  {flags : Flags} {d : Directive} {ps : List Piece}

/-! ## Plain text

Between two `%` the characters are written as they stand. The middle of a directive has no `%` in
it, so where the scan has stopped inside a directive the rest of it is written as text. -/

/-- Text without a `%` is written as it is. -/
theorem vsprintf_run {l : List Char} (hl : '%' ∉ l) : vsprintf args text (l ++ tail) arg =
    (l ++ (vsprintf args text tail arg).1, (vsprintf args text tail arg).2) := by
  induction l with
  | nil => rfl
  | cons c l ih =>
    rw [List.mem_cons, not_or] at hl
    rw [List.cons_append, vsprintf_literal (Ne.symm hl.1), ih hl.2]
    rfl

/-- A width has no `%` in it. -/
theorem Amount.percent_notMem {a : Amount} (ha : ∀ n, a = .digit n → n ≤ 9) : '%' ∉ a.chars := by
  cases a with
  | absent => exact List.not_mem_nil
  | digit n =>
    have hdigit : ∀ n < 10, '%' ∉ [Char.ofNat (48 + n)] := by decide
    exact hdigit n (Nat.lt_succ_of_le (ha n rfl))
  | star => exact (by decide : '%' ∉ ['*'])

/-- Nor has a precision. -/
theorem Amount.percent_notMem_point {a : Amount} (ha : ∀ n, a = .digit n → n ≤ 9) :
    '%' ∉ a.pointChars := by
  have hchars := percent_notMem ha
  cases a with
  | absent => exact List.not_mem_nil
  | digit n => exact List.not_mem_cons_of_ne_of_not_mem (by decide) hchars
  | star => exact (by decide : '%' ∉ ['.', '*'])

namespace Directive

theorem percent_notMem_qualifier (q : Option Qualifier) : '%' ∉ q.toList.map Qualifier.char := by
  cases q with
  | none => exact List.not_mem_nil
  | some q => cases q <;> decide

theorem percent_notMem_flags (fs : List Flag) : '%' ∉ fs.map Flag.char := by
  intro h
  obtain ⟨f, -, hf⟩ := List.mem_map.mp h
  cases f <;> exact absurd hf (by decide)

/-- So there is none between the `%` of a directive and its conversion. -/
theorem percent_notMem_middle (d : Directive) : '%' ∉ d.middle := by
  unfold middle
  rw [List.mem_append, List.mem_append, List.mem_append]
  rintro (h | h | h | h)
  · exact percent_notMem_flags d.flags h
  · exact Amount.percent_notMem (fun n hn => (d.width_digit n hn).2) h
  · exact Amount.percent_notMem_point d.precision_digit h
  · exact percent_notMem_qualifier d.qualifier h

end Directive

/-! ## Where a `*` is left

The scan looks at a `*` for the width or the precision, reads the argument for it, and moves on
without passing the character. The qualifier and the conversion are then looked for at the `*`. -/

/-- The parts of the scan, one behind the other. -/
theorem scan_fmt : (scan word fmt).fmt = scanQualifier (scanPrecision word
    (scanWidth word (scanFlags fmt noFlags).1 (scanFlags fmt noFlags).2).2.2).2 := rfl

/-- A `*` is no flag, and neither is a `%`. -/
theorem scanFlags_stop {c : Char} (hc : c = '*' ∨ c = '%') : scanFlags (c :: fmt) flags = (flags, c :: fmt) := by
  have hother : ∀ c ∈ ['*', '%'], c ≠ '-' ∧ c ≠ '+' ∧ c ≠ ' ' ∧ c ≠ '#' ∧ c ≠ '0' := by simp
  obtain ⟨hminus, hplus, hspace, hsharp, hzero⟩ := hother c (by simpa using hc)
  rw [scanFlags, if_neg hminus, if_neg hplus, if_neg hspace, if_neg hsharp, if_neg hzero]

/-- The width does not pass a `*`. -/
theorem scanWidth_stop {c : Char} (hc : c = '*' ∨ c = '%') :
    (scanWidth word flags (c :: fmt)).2.2 = c :: fmt := by
  have hother : ∀ c ∈ ['*', '%'], ¬ c.isDigit = true := by simp
  unfold scanWidth
  dsimp only
  rw [if_neg (hother c (by simpa using hc))]
  repeat' split
  all_goals rfl

theorem scanQualifier_stop {c : Char} (hc : c = '*' ∨ c = '%') : scanQualifier (c :: fmt) = c :: fmt := by
  have hother : ∀ c ∈ ['*', '%'], ¬ (c = 'h' ∨ c = 'l' ∨ c = 'L') := by simp
  exact if_neg (hother c (by simpa using hc))

/-- What stands in front of a conversion has neither `*` nor `%` in it. -/
theorem scanPrecision_stop {c : Char} (hc : c = '*' ∨ c = '%') :
    scanQualifier (scanPrecision word (c :: fmt)).2 = c :: fmt := by
  have hother : c ≠ '.' := by
    rcases hc with rfl | rfl <;> decide
  have hscan : scanPrecision word (c :: fmt) = (-1, c :: fmt) := if_neg hother
  rw [hscan]
  exact scanQualifier_stop hc

/-- At a `*` or a `%` the whole scan stays where it is. -/
theorem scan_stop (word : Nat) (fmt : List Char) {c : Char} (hc : c = '*' ∨ c = '%') : (scan word (c :: fmt)).fmt = c :: fmt := by
  rw [scan_fmt, scanFlags_stop hc, scanWidth_stop hc, scanPrecision_stop hc]

/-- Behind a point the `*` is not passed either. -/
theorem scanPrecision_star : (scanPrecision word ('.' :: '*' :: fmt)).2 = '*' :: fmt := by
  have hdigit : ¬ '*'.isDigit = true := by decide
  rw [scanPrecision, if_pos rfl, scanDigit, if_neg hdigit, if_pos rfl]

namespace Directive

/-- The first `*` of a directive is found in the place of the conversion. -/
theorem scan_starred (hstars : 0 < d.stars) : ∃ l, '%' ∉ l ∧ ∀ word tail,
    (scan word (d.middle ++ d.conversion.char :: tail)).fmt = '*' :: (l ++ d.conversion.char :: tail) := by
  have hqualifier := percent_notMem_qualifier d.qualifier
  have hprecision := Amount.percent_notMem_point d.precision_digit
  have hstar : '*' = '*' ∨ '*' = '%' := Or.inl rfl
  -- the first `*` is the one that stops the scan: that of the width, or else that of the
  -- precision
  by_cases hwidth : d.width.stars = 0
  · -- the width is passed, the precision stops
    have hpoint : d.precision = .star := by
      unfold stars at hstars
      cases h : d.precision with
      | star => rfl
      | absent => rw [h, hwidth] at hstars; exact absurd hstars (lt_irrefl 0)
      | digit n => rw [h, hwidth] at hstars; exact absurd hstars (lt_irrefl 0)
    refine ⟨d.qualifier.toList.map Qualifier.char, hqualifier, fun word tail => ?_⟩
    have hstarts := starts_point d.precision (d.starts tail)
    rw [scan_fmt, middle_append, scanFlags_map (starts_width d.width d.width_digit hstarts),
      scanWidth_spec d.width_digit hstarts hwidth, hpoint]
    show scanQualifier (scanPrecision word ('.' :: '*' :: _)).2 = _
    rw [scanPrecision_star, scanQualifier_stop hstar]
    rfl
  · -- the width stops
    have hwide : d.width = .star := by
      cases h : d.width with
      | star => rfl
      | absent => rw [h] at hwidth; exact absurd rfl hwidth
      | digit n => rw [h] at hwidth; exact absurd rfl hwidth
    refine ⟨d.precision.pointChars ++ d.qualifier.toList.map Qualifier.char, ?_, fun word tail => ?_⟩
    · rw [List.mem_append]
      exact not_or.mpr ⟨hprecision, hqualifier⟩
    · have hstarts := starts_point d.precision (d.starts tail)
      have hchars : Amount.star.chars = ['*'] := rfl
      rw [scan_fmt, middle_append, scanFlags_map (starts_width d.width d.width_digit hstarts), hwide,
        List.append_assoc, hchars, List.singleton_append]
      dsimp only
      rw [scanWidth_stop hstar, scanPrecision_stop hstar]

/-- What becomes of a directive with a `*`. -/
theorem vsprintf_starred (d : Directive) (args : Nat → UInt32) (text : Nat → List Char)
    (hstars : 0 < d.stars) : ∃ l, ∀ tail arg,
    vsprintf args text (d.chars ++ tail) arg =
      ('%' :: '*' :: (l ++ (vsprintf args text (d.conversion.char :: tail) arg).1),
        (vsprintf args text (d.conversion.char :: tail) arg).2) := by
  obtain ⟨l, hl, hscan⟩ := scan_starred hstars
  refine ⟨l, fun tail arg => ?_⟩
  rw [chars_append, vsprintf_default (hscan _ tail) rfl, vsprintf_literal (by decide), vsprintf_run hl]

end Directive

/-! ## What a `%` skips

In a format of this grammar a `%` that is not the beginning of a directive may meet anything that
follows. The scan passes flags, digits, a point and a qualifier, but never another `%`. -/

/-- What is left of a format: only characters other than `%` are gone. -/
def Skips (fmt rest : List Char) : Prop := ∃ pre, '%' ∉ pre ∧ fmt = pre ++ rest

namespace Skips

variable {rest : List Char} {c : Char}

theorem refl (fmt : List Char) : Skips fmt fmt := ⟨[], List.not_mem_nil, rfl⟩

/-- What is skipped in two parts. -/
theorem trans (h : Skips fmt rest) (h' : Skips rest tail) : Skips fmt tail := by
  obtain ⟨pre, hpre, rfl⟩ := h
  obtain ⟨pre', hpre', rfl⟩ := h'
  refine ⟨pre ++ pre', ?_, (List.append_assoc _ _ _).symm⟩
  rw [List.mem_append]
  exact not_or.mpr ⟨hpre, hpre'⟩

theorem cons (hc : c ≠ '%') (h : Skips fmt rest) : Skips (c :: fmt) rest := by
  obtain ⟨pre, hpre, rfl⟩ := h
  exact ⟨c :: pre, List.not_mem_cons_of_ne_of_not_mem (Ne.symm hc) hpre, rfl⟩

theorem digit (hc : c.isDigit = true) : c ≠ '%' := by
  rintro rfl
  exact absurd hc (by decide)

end Skips

/-- Flags are not `%`. -/
theorem scanFlags_skips (flags : Flags) : Skips fmt (scanFlags fmt flags).2 := by
  induction fmt generalizing flags with
  | nil => exact Skips.refl _
  | cons c fmt ih =>
    rw [scanFlags]
    split
    · next hc => exact (ih _).cons (by rw [hc]; decide)
    · split
      · next hc => exact (ih _).cons (by rw [hc]; decide)
      · split
        · next hc => exact (ih _).cons (by rw [hc]; decide)
        · split
          · next hc => exact (ih _).cons (by rw [hc]; decide)
          · split
            · next hc => exact (ih _).cons (by rw [hc]; decide)
            · exact Skips.refl _

/-- A width is digits. -/
theorem scanWidth_skips : Skips fmt (scanWidth word flags fmt).2.2 := by
  cases fmt with
  | nil => exact Skips.refl _
  | cons c fmt =>
    unfold scanWidth
    dsimp only
    split
    · next hc => exact (Skips.refl fmt).cons (Skips.digit hc)
    · repeat' split
      all_goals exact Skips.refl _

/-- A precision is a point and digits. -/
theorem scanPrecision_skips : Skips fmt (scanPrecision word fmt).2 := by
  cases fmt with
  | nil => exact Skips.refl _
  | cons c fmt =>
    rw [scanPrecision]
    split
    · next hc =>
      refine Skips.cons (by rw [hc]; decide) ?_
      cases fmt with
      | nil => exact Skips.refl _
      | cons c fmt =>
        dsimp only
        rw [scanDigit]
        split
        · next hc => exact (Skips.refl fmt).cons (Skips.digit hc)
        · split <;> exact Skips.refl _
    · exact Skips.refl _

/-- A qualifier is one letter. -/
theorem scanQualifier_skips : Skips fmt (scanQualifier fmt) := by
  cases fmt with
  | nil => exact Skips.refl _
  | cons c fmt =>
    rw [scanQualifier]
    split
    · next hc => exact (Skips.refl fmt).cons (by rcases hc with rfl | rfl | rfl <;> decide)
    · exact Skips.refl _

theorem scan_skips (word : Nat) (fmt : List Char) : Skips fmt (scan word fmt).fmt :=
  ((scanFlags_skips noFlags).trans scanWidth_skips).trans
    (scanPrecision_skips.trans scanQualifier_skips)

/-- The pieces that are left. -/
theorem Skips.pieces {rest : List Char} (h : Skips (formatChars ps) rest) :
    ∃ qs, rest = formatChars qs ∧ qs.length ≤ ps.length ∧ formatNamed qs ≤ formatNamed ps := by
  obtain ⟨pre, hpre, heq⟩ := h
  induction pre generalizing ps with
  | nil => exact ⟨ps, heq.symm, le_rfl, le_rfl⟩
  | cons c pre ih =>
    rw [List.mem_cons, not_or] at hpre
    cases ps with
    | nil => exact nomatch heq
    | cons p ps =>
      cases p with
      | literal c' hc' =>
        obtain ⟨qs, hqs, hlen, hnamed⟩ := ih hpre.2 (List.cons.inj heq).2
        exact ⟨qs, hqs, hlen.trans (Nat.le_succ _), hnamed.trans (Nat.le_add_left _ _)⟩
      | directive d => exact absurd (List.cons.inj heq).1 hpre.1

/-! ## The arguments taken

A bound for any place in a format: what is taken from there on is not more than what is named
there. For a `%` that has lost its directive it may be one more, which is why the bound has two
parts and one induction proves both. -/

/-- A conversion takes one argument at most. -/
theorem convert_le_one {s : Scan} {c : Char} {field : List Char}
    (h : convert word text s c = some (field, n)) : n ≤ 1 := by
  unfold convert at h
  split at h
  case h_12 => exact nomatch h
  case h_8 =>
    split at h
    all_goals
      obtain ⟨-, rfl⟩ := Prod.mk.inj (Option.some.inj h)
      decide
  all_goals
    obtain ⟨-, rfl⟩ := Prod.mk.inj (Option.some.inj h)
    decide

/-- The characters of the first piece, and then the others. -/
theorem formatChars_cons (p : Piece) : formatChars (p :: ps) = p.chars ++ formatChars ps :=
  List.flatMap_cons

/-- The arguments that the first piece names, and those of the others. -/
theorem formatNamed_cons (p : Piece) : formatNamed (p :: ps) = p.named + formatNamed ps :=
  List.sum_cons

/-- The conversion that ends a directive read as plain text: `%` begins another one. -/
theorem Conversion.char_ne {v : Conversion} (hv : v ≠ .percent) : v.char ≠ '%' := by
  cases v with
  | percent => exact absurd rfl hv
  | _ => decide

/-- Neither the format nor a `%` in front of it takes more than is named, and for the `%` one more. -/
structure Bounded (args : Nat → UInt32) (text : Nat → List Char) (ps : List Piece) : Prop where
  taken : ∀ arg, (vsprintf args text (formatChars ps) arg).2 ≤ arg + formatNamed ps
  percent : ∀ arg, (vsprintf args text ('%' :: formatChars ps) arg).2 ≤ arg + formatNamed ps + 1

/-- A conversion that stands in the format as text takes nothing. -/
theorem Bounded.conversion (h : Bounded args text ps) {v : Conversion} (arg : Nat) (hv : v ≠ .percent) :
    (vsprintf args text (v.char :: formatChars ps) arg).2 ≤ arg + formatNamed ps := by
  rw [vsprintf_literal (Conversion.char_ne hv)]
  exact h.taken arg

theorem Bounded.literal (h : Bounded args text ps) {c : Char} (arg : Nat) (hc : c ≠ '%') :
    (vsprintf args text (c :: formatChars ps) arg).2 ≤ arg + formatNamed ps := by
  rw [vsprintf_literal hc]
  exact h.taken arg

/-- A directive takes no more than it names, with a `*` or without. -/
theorem Bounded.directive (h : Bounded args text ps) (d : Directive) (arg : Nat) :
    (vsprintf args text (d.chars ++ formatChars ps) arg).2 ≤ arg + (d.named + formatNamed ps) := by
  by_cases hstars : d.stars = 0
  · rw [d.vsprintf_plain hstars]
    have htaken := h.taken (arg + d.named)
    dsimp only
    omega
  · obtain ⟨l, hl⟩ := d.vsprintf_starred args text (Nat.pos_of_ne_zero hstars)
    have hnamed : d.named = d.stars + d.conversion.arguments := rfl
    rw [hl]
    dsimp only
    by_cases hv : d.conversion = .percent
    · have hpercent := h.percent arg
      rw [hv]
      show (vsprintf args text ('%' :: formatChars ps) arg).2 ≤ _
      omega
    · have hle := h.conversion arg hv
      omega

/-- A `%` that meets another directive is written, and what is left of that one is plain text. -/
theorem vsprintf_met (d : Directive) (hscan : (scan (args arg).toNat fmt).fmt = d.chars ++ tail) :
    vsprintf args text ('%' :: fmt) arg =
      ('%' :: (d.middle ++ (vsprintf args text (d.conversion.char :: tail) arg).1),
        (vsprintf args text (d.conversion.char :: tail) arg).2) := by
  rw [d.chars_append] at hscan
  have hconv : convert (args arg).toNat text (scan (args arg).toNat fmt) '%' = some (['%'], 0) := rfl
  rw [vsprintf_convert hscan hconv, Nat.add_zero, vsprintf_run d.percent_notMem_middle]
  rfl

/-- A `%` in front of a format takes one argument at most, whatever directive it makes. -/
theorem bounded_percent (h : ∀ qs : List Piece, qs.length < ps.length → Bounded args text qs) (arg : Nat) :
    (vsprintf args text ('%' :: formatChars ps) arg).2 ≤ arg + formatNamed ps + 1 := by
  obtain ⟨qs, hqs, hlen, hnamed⟩ := (scan_skips (args arg).toNat (formatChars ps)).pieces
  -- by what the scan of the `%` ends at
  cases qs with
  | nil =>
    -- the format ends behind the `%`
    rw [vsprintf_end hqs]
    dsimp only
    omega
  | cons q qs =>
    have hbounded := h qs (Nat.lt_of_succ_le hlen)
    rw [formatNamed_cons] at hnamed
    cases q with
    | literal c hc =>
      cases hconv : convert (args arg).toNat text (scan (args arg).toNat (formatChars ps)) c with
      | some r =>
        -- the literal is taken for a conversion
        have hone := convert_le_one hconv
        have htaken := hbounded.taken (arg + r.2)
        rw [vsprintf_convert hqs hconv]
        show (vsprintf args text (formatChars qs) (arg + r.2)).2 ≤ _
        omega
      | none =>
        -- it is none, and is written after all
        have htaken := hbounded.literal arg hc.1
        rw [vsprintf_default hqs hconv]
        show (vsprintf args text (c :: formatChars qs) arg).2 ≤ _
        omega
    | directive d =>
      -- the `%` has met the conversion of a later directive
      rw [vsprintf_met d hqs]
      show (vsprintf args text (d.conversion.char :: formatChars qs) arg).2 ≤ _
      by_cases hv : d.conversion = .percent
      · have hpercent := hbounded.percent arg
        rw [hv]
        show (vsprintf args text ('%' :: formatChars qs) arg).2 ≤ _
        omega
      · have hle := hbounded.conversion arg hv
        omega

/-- No format takes more arguments than it names. Induction on the number of its pieces. -/
theorem bounded (args : Nat → UInt32) (text : Nat → List Char) (ps : List Piece) : Bounded args text ps := by
  induction hn : ps.length using Nat.strong_induction_on generalizing ps with
  | h n ih =>
    subst hn
    refine ⟨fun arg => ?_, bounded_percent fun qs hlt => ih qs.length hlt qs rfl⟩
    cases ps with
    | nil =>
      show (vsprintf args text [] arg).2 ≤ _
      rw [vsprintf_nil]
      exact Nat.le_add_right _ _
    | cons p ps =>
      have hbounded := ih ps.length (Nat.lt_succ_self _) ps rfl
      rw [formatChars_cons, formatNamed_cons]
      cases p with
      | literal c hc =>
        show (vsprintf args text (c :: formatChars ps) arg).2 ≤ arg + (0 + formatNamed ps)
        rw [Nat.zero_add]
        exact hbounded.literal arg hc.1
      | directive d => exact hbounded.directive d arg

/-! ## Formats

A format follows its arguments if the text is the one the pieces stand for and as many arguments
are taken as they name. Pieces without a `*` do so one by one. A directive with a `*` never does.
-/

/-- The text is that of the pieces, and each directive takes the arguments it names. -/
def Follows (args : Nat → UInt32) (text : Nat → List Char) (ps : List Piece) (arg : Nat) : Prop :=
  vsprintf args text (formatChars ps) arg = (formatText args text ps arg, arg + formatNamed ps)

/-- A piece without a `*`. -/
def Piece.Plain : Piece → Prop
  | .literal _ _ => True
  | .directive d => d.stars = 0

/-- A piece without a `*` is written, and its arguments are taken. -/
theorem vsprintf_piece {p : Piece} (hp : p.Plain) : vsprintf args text (formatChars (p :: ps)) arg =
    (p.render args text arg ++ (vsprintf args text (formatChars ps) (arg + p.named)).1,
      (vsprintf args text (formatChars ps) (arg + p.named)).2) := by
  rw [formatChars_cons]
  cases p with
  | literal c hc => exact vsprintf_literal hc.1
  | directive d => exact d.vsprintf_plain hp _ _

/-- So a format follows its arguments if the rest of it does. -/
theorem follows_cons {p : Piece} (hp : p.Plain) :
    Follows args text (p :: ps) arg ↔ Follows args text ps (arg + p.named) := by
  unfold Follows
  rw [vsprintf_piece hp, formatNamed_cons, Nat.add_assoc]
  show _ = (p.render args text arg ++ formatText args text ps (arg + p.named), _) ↔ _
  rw [Prod.ext_iff, Prod.ext_iff]
  dsimp only
  rw [List.append_right_inj]

/-- A format does not begin with a `*` of its own if a `%` in front of it takes all there is. -/
theorem star_of_percent (arg : Nat) {arg' : Nat} {l : List Char} (h : formatText args text ps arg' = '*' :: l) :
    (vsprintf args text ('%' :: formatChars ps) arg).2 ≤ arg + formatNamed ps := by
  cases ps with
  | nil => exact nomatch h
  | cons p ps =>
    have hbounded := bounded args text ps
    rw [formatNamed_cons]
    cases p with
    | literal c hc =>
      -- the `*` stands in the format, and is no conversion
      have hstar : c = '*' := (List.cons.inj h).1
      subst hstar
      have hscan := scan_stop (args arg).toNat (formatChars ps) (Or.inl (Eq.refl '*'))
      show (vsprintf args text ('%' :: '*' :: formatChars ps) arg).2 ≤ arg + (0 + formatNamed ps)
      rw [vsprintf_default hscan rfl, Nat.zero_add]
      exact hbounded.literal arg hc.1
    | directive d =>
      -- `%%` is written as `%`, not as `*`
      have hv : d.conversion ≠ .percent := by
        intro hv
        have hrender : d.render args text arg' = ['%'] := by
          unfold Directive.render
          rw [hv]
        have hhead : '%' :: formatText args text ps (arg' + d.named) = '*' :: l := by
          rw [← h]
          exact congrArg (· ++ formatText args text ps (arg' + d.named)) hrender.symm
        exact absurd (List.cons.inj hhead).1 (by decide)
      have hscan : (scan (args arg).toNat (d.chars ++ formatChars ps)).fmt = d.chars ++ formatChars ps := by
        rw [d.chars_append]
        exact scan_stop _ _ (Or.inr rfl)
      have hle := hbounded.conversion arg hv
      rw [formatChars_cons]
      show (vsprintf args text ('%' :: (d.chars ++ formatChars ps)) arg).2 ≤ arg + (d.named + formatNamed ps)
      rw [vsprintf_met d hscan]
      dsimp only
      omega

/-- A format that begins with a starred directive is not followed: it takes too few arguments, or the
`*` that it writes has no place in the text. -/
theorem not_follows_star (hstars : d.stars ≠ 0) : ¬ Follows args text (.directive d :: ps) arg := by
  obtain ⟨l, hl⟩ := d.vsprintf_starred args text (Nat.pos_of_ne_zero hstars)
  have hnamed : d.named = d.stars + d.conversion.arguments := rfl
  intro h
  unfold Follows at h
  rw [formatChars_cons, formatNamed_cons] at h
  have hfollow := (hl (formatChars ps) arg).symm.trans h
  rw [Prod.mk.injEq] at hfollow
  obtain ⟨hout, htaken⟩ := hfollow
  by_cases hv : d.conversion = .percent
  · -- `%*%` leaves its `*` in the output, where the text goes on behind the `%`
    have hrender : d.render args text arg = ['%'] := by
      unfold Directive.render
      rw [hv]
    have htext : '%' :: '*' :: (l ++ (vsprintf args text (d.conversion.char :: formatChars ps) arg).1) =
        '%' :: formatText args text ps (arg + d.named) := by
      rw [hout]
      exact congrArg (· ++ formatText args text ps (arg + d.named)) hrender
    have hle := star_of_percent arg (List.cons.inj htext).2.symm
    rw [hv] at htaken
    change (vsprintf args text ('%' :: formatChars ps) arg).2 = _ at htaken
    change _ = arg + (d.named + _) at htaken
    omega
  · -- the conversion takes one argument, and its `*` none
    have hle := (bounded args text ps).conversion arg hv
    change _ = arg + (d.named + _) at htaken
    omega

/-- `vsprintf` follows the formats without a `*`, and no other. -/
theorem vsprintf_follows (args : Nat → UInt32) (text : Nat → List Char) (ps : List Piece) (arg : Nat) :
    Follows args text ps arg ↔ ∀ d, Piece.directive d ∈ ps → d.stars = 0 := by
  induction ps generalizing arg with
  | nil =>
    refine iff_of_true vsprintf_nil fun d hd => ?_
    exact absurd hd List.not_mem_nil
  | cons p ps ih =>
    by_cases hp : p.Plain
    · rw [follows_cons hp, ih]
      constructor
      · intro h d hd
        rcases List.mem_cons.mp hd with rfl | hd
        · exact hp
        · exact h d hd
      · intro h d hd
        exact h d (List.mem_cons_of_mem _ hd)
    · cases p with
      | literal c hc => exact absurd trivial hp
      | directive d =>
        -- a `*` takes an argument that the directive does not have
        refine iff_of_false (not_follows_star hp) fun h => ?_
        exact hp (h d List.mem_cons_self)

/-- `%*d` with the arguments 5 and 7. -/
def starDirective : Directive where
  flags := []
  width := .star
  precision := .absent
  qualifier := none
  conversion := .d
  width_digit := fun _ h => nomatch h
  precision_digit := fun _ h => nomatch h

/-- The text is `%*d`, and no argument is taken. -/
theorem not_follows_width : ¬ ∀ (args : Nat → UInt32) (text : Nat → List Char) (ps : List Piece),
    Follows args text ps 0 := by
  intro h
  exact not_follows_star (d := starDirective) (by decide)
    (h (fun i => if i = 0 then 5 else 7) (fun _ => []) [.directive starDirective])

end Printf

end NorlitOS
