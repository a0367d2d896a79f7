import NorlitOS.Format.Buffer
import NorlitOS.HardDisk.Server

/-!
# The number in a partition's name

The file system prints the number of its partition with `%d` and opens this name; the hard-disk
process reads the number back with `atoi`. The two are inverse whatever the sign, the zeros in front
or the spaces behind, and modulo `2 ^ 32`: `-2147483648` is read as it was written. Spaces in front
would end the number before it began.
-/

namespace NorlitOS

/-! ## Reading digits

The loop of `atoi` is a fold over the digits, taken modulo `2 ^ 32` after each of them. It may as
well be taken once at the end, and the first byte that is no digit ends the loop. -/

/-- The number of the decimal digits, the first one first, behind those read into `res`. -/
def decimal (res : Nat) (ds : List Nat) : Nat := ds.foldl (fun res d => res * 10 + d) res

variable {res d n : Nat} {ds : List Nat} {c : UInt8} {p : List UInt8}

theorem decimal_append (ds ds' : List Nat) : decimal res (ds ++ ds') = decimal (decimal res ds) ds' :=
  List.foldl_append

theorem decimal_replicate_zero (n : Nat) : decimal 0 (List.replicate n 0) = 0 := by
  induction n with
  | zero => rfl
  | succ n ih => exact ih

/-- The digits of a number, highest first, are read back as the number. -/
theorem decimal_digits (n : Nat) : decimal 0 (Nat.digits 10 n).reverse = n := by
  show (Nat.digits 10 n).reverse.foldl (fun res d => res * 10 + d) 0 = n
  rw [List.foldl_reverse]
  calc (Nat.digits 10 n).foldr (fun d res => res * 10 + d) 0
      = Nat.ofDigits 10 (Nat.digits 10 n) := by
        rw [Nat.ofDigits_eq_foldr]
        congr
        funext d res
        show res * 10 + d = d + 10 * res
        ring
    _ = n := Nat.ofDigits_digits 10 n

/-- What the loop keeps is the number modulo `2 ^ 32`. -/
theorem decimal_mod (res : Nat) (ds : List Nat) :
    decimal (res % 2 ^ 32) ds % 2 ^ 32 = decimal res ds % 2 ^ 32 := by
  induction ds generalizing res with
  | nil => exact Nat.mod_mod _ _
  | cons d ds ih =>
    calc decimal (res % 2 ^ 32 * 10 + d) ds % 2 ^ 32
        = decimal ((res % 2 ^ 32 * 10 + d) % 2 ^ 32) ds % 2 ^ 32 := (ih _).symm
      _ = decimal ((res * 10 + d) % 2 ^ 32) ds % 2 ^ 32 := by
        congr 2
        omega
      _ = decimal (res * 10 + d) ds % 2 ^ 32 := ih _

/-- The byte of a digit. -/
def digitByte (d : Nat) : UInt8 := UInt8.ofNat (48 + d)

theorem digitByte_toNat (hd : d < 10) : (digitByte d).toNat = 48 + d := by
  unfold digitByte
  rw [UInt8.toNat_ofNat', Nat.mod_eq_of_lt (by omega)]

/-- The byte of a digit passes the test of the loop. -/
theorem digitByte_range (hd : d < 10) : 48 ≤ digitByte d ∧ digitByte d ≤ 57 := by
  rw [UInt8.le_iff_toNat_le, UInt8.le_iff_toNat_le, digitByte_toNat hd]
  show 48 ≤ 48 + d ∧ 48 + d ≤ 57
  omega

/-- The loop takes the digits up to the first byte that is none. Induction on the digits. -/
theorem digits_eq (hds : ∀ d ∈ ds, d < 10) (hc : ¬ (48 ≤ c ∧ c ≤ 57)) (hres : res < 2 ^ 32) :
    digits res (ds.map digitByte ++ c :: p) = some (decimal res ds % 2 ^ 32) := by
  induction ds generalizing res with
  | nil =>
    show digits res (c :: p) = some (res % 2 ^ 32)
    rw [digits, if_neg hc, Nat.mod_eq_of_lt hres]
  | cons d ds ih =>
    have hd : d < 10 := hds d List.mem_cons_self
    have hrest : ∀ d ∈ ds, d < 10 := fun d hd => hds d (List.mem_cons_of_mem _ hd)
    show digits res (digitByte d :: (ds.map digitByte ++ c :: p)) = some (decimal (res * 10 + d) ds % 2 ^ 32)
    rw [digits, if_pos (digitByte_range hd), digitByte_toNat hd, Nat.add_sub_cancel_left,
      ih hrest (Nat.mod_lt _ (by decide)), decimal_mod]

/-- Without a sign `atoi` is its loop. -/
theorem atoi_digits (hds : ∀ d ∈ ds, d < 10) (hne : ds ≠ []) (hc : ¬ (48 ≤ c ∧ c ≤ 57)) :
    atoi (ds.map digitByte ++ c :: p) = some (decimal 0 ds % 2 ^ 32) := by
  cases ds with
  | nil => exact absurd rfl hne
  | cons d ds =>
    have hrange := digitByte_range (hds d List.mem_cons_self)
    have hsign : ¬ (digitByte d = 43 ∨ digitByte d = 45) := by
      rintro (heq | heq) <;> rw [heq] at hrange <;> exact absurd hrange.1 (by decide)
    show atoi (digitByte d :: (ds.map digitByte ++ c :: p)) = _
    rw [atoi, if_neg hsign]
    exact digits_eq hds hc (by decide)

/-! ## What `itoa` writes

A sign, perhaps zeros, the digits and perhaps spaces. A field of spaces in front of the number is
the one layout that `atoi` cannot read, so it is excluded by what the number or the flags say
about the field. -/

namespace Printf

/-- `SIGN` and some of `LEFT`, `PLUS` and `ZEROPAD`. -/
def signed (left plus zeropad : Bool) : Flags :=
  { left, plus, zeropad, space := false, special := false, sign := true, small := false }

variable {num d n : Nat} {width precision : Int} {left plus zeropad small : Bool} {bytes : Nat → Char}

@[simp] theorem signed_left : (signed left plus zeropad).left = left := rfl

@[simp] theorem signed_zeropad : (signed left plus zeropad).zeropad = zeropad := rfl

@[simp] theorem signed_small : (signed left plus zeropad).small = false := rfl

@[simp] theorem radixText_signed : radixText 10 (signed left plus zeropad) = [] := rfl

/-- A digit below ten is the same byte in both alphabets of `itoa`. -/
theorem byteOf_digitChar (hd : d < 10) : byteOf (digitChar small d) = digitByte d := by
  have h : ∀ d < 10, byteOf (digitChar small d) = digitByte d := by cases small <;> decide
  exact h d hd

theorem map_byteOf_digitChar {ds : List Nat} (hds : ∀ d ∈ ds, d < 10) :
    (ds.map (digitChar small)).map byteOf = ds.map digitByte := by
  rw [List.map_map]
  exact List.map_congr_left fun d hd => byteOf_digitChar (hds d hd)

/-- The decimal digits of a number, the first one first. -/
def decimalDigits (n : Nat) : List Nat := if n = 0 then [0] else (Nat.digits 10 n).reverse

/-- In base 10 the numeral is the decimal digits, in either alphabet. -/
theorem numeral_decimal : numeral small 10 n = (decimalDigits n).map (digitChar small) := by
  unfold numeral decimalDigits
  split
  · rw [List.map_singleton, digitChar_zero]
  · rfl

theorem lt_of_mem_decimalDigits (hd : d ∈ decimalDigits n) : d < 10 := by
  unfold decimalDigits at hd
  split at hd
  · rw [List.mem_singleton] at hd
    omega
  · exact Nat.digits_lt_base (by decide) (List.mem_reverse.mp hd)

/-- Reading gives the number back, zero included, which has the digit 0. -/
theorem decimal_decimalDigits (n : Nat) : decimal 0 (decimalDigits n) = n := by
  unfold decimalDigits
  split
  · next hn => exact hn.symm
  · exact decimal_digits n

/-- There is a digit at least, so `atoi` finds one behind the sign. -/
theorem decimalDigits_ne_nil (n : Nat) : decimalDigits n ≠ [] := by
  unfold decimalDigits
  split
  · exact List.cons_ne_nil _ _
  · next hn => exact List.reverse_ne_nil_iff.mpr (Nat.digits_ne_nil_iff_ne_zero.mpr hn)

/-- Zeros in front leave the number as it is. -/
theorem decimal_zeros (zeros n : Nat) : decimal 0 (List.replicate zeros 0 ++ decimalDigits n) = n := by
  rw [decimal_append, decimal_replicate_zero, decimal_decimalDigits]

theorem lt_of_mem_zeros {zeros : Nat} (hd : d ∈ List.replicate zeros 0 ++ decimalDigits n) : d < 10 := by
  rcases List.mem_append.mp hd with hd | hd
  · rw [List.eq_of_mem_replicate hd]
    decide
  · exact lt_of_mem_decimalDigits hd

/-- The field of a number in which `atoi` finds it: behind the sign stand its digits, with zeros in
front of them, and then spaces only. -/
theorem numberText_decimal (hfield : left ∨ zeropad ∨
      width ≤ (signText num (signed left plus zeropad) ++
        numeral false 10 (magnitude num (signed left plus zeropad))).length) :
    ∃ zeros spaces, numberText num 10 width (signed left plus zeropad) =
      signText num (signed left plus zeropad) ++
        ((List.replicate zeros 0 ++ decimalDigits (magnitude num (signed left plus zeropad))).map
          (digitChar false) ++ List.replicate spaces ' ') := by
  have hzeros : ∀ zeros, (List.replicate zeros 0).map (digitChar false) = List.replicate zeros '0' := by
    intro zeros
    rw [List.map_replicate, digitChar_zero]
  unfold numberText
  rw [radixText_signed, List.append_nil, signed_left, signed_zeropad, signed_small]
  generalize signText num (signed left plus zeropad) = lead at hfield ⊢
  generalize magnitude num (signed left plus zeropad) = value at hfield ⊢
  dsimp only
  rw [← List.length_append]
  cases left with
  | true =>
    refine ⟨0, width.toNat - (lead ++ numeral false 10 value).length, ?_⟩
    rw [if_pos rfl, numeral_decimal, List.append_assoc]
    rfl
  | false =>
    rw [if_neg Bool.false_ne_true]
    refine ⟨width.toNat - (lead ++ numeral false 10 value).length, 0, ?_⟩
    rw [List.map_append, hzeros, ← numeral_decimal, List.replicate_zero, List.append_nil, List.append_assoc]
    cases zeropad with
    | true => rfl
    | false =>
      -- the number fills its field
      have hwidth : width ≤ (lead ++ numeral false 10 value).length := by simpa using hfield
      rw [Nat.sub_eq_zero_of_le (by omega)]
      rfl

/-- The text in front of the number is its sign, and `atoi` takes it back. -/
theorem atoi_signText (hnum : num < 2 ^ 32) {ds : List Nat} {c : UInt8} {p : List UInt8}
    (hds : ∀ d ∈ ds, d < 10) (hne : ds ≠ []) (hc : ¬ (48 ≤ c ∧ c ≤ 57))
    (hvalue : decimal 0 ds = magnitude num (signed left plus zeropad)) :
    atoi ((signText num (signed left plus zeropad)).map byteOf ++ (ds.map digitByte ++ c :: p)) = some num := by
  have hread : digits 0 (ds.map digitByte ++ c :: p) =
      some (magnitude num (signed left plus zeropad) % 2 ^ 32) := by
    rw [digits_eq hds hc (by decide), hvalue]
  unfold signText magnitude at *
  -- below zero the digits are those of `2 ^ 32 - num`, and `atoi` negates again
  by_cases hneg : IsNegative num (signed left plus zeropad)
  · have hlarge := hneg.2
    rw [if_pos hneg] at hread ⊢
    show (digits 0 (ds.map digitByte ++ c :: p)).map (fun res => sub32 0 res) = some num
    rw [hread, Option.map_some, Nat.mod_eq_of_lt (by omega)]
    unfold sub32
    congr 1
    omega
  · rw [if_neg hneg] at hread hvalue ⊢
    rw [Nat.mod_eq_of_lt hnum] at hread
    cases plus with
    | true =>
      show (digits 0 (ds.map digitByte ++ c :: p)).map (fun res => res) = some num
      rw [hread]
      rfl
    | false =>
      show atoi (ds.map digitByte ++ c :: p) = some num
      rw [atoi_digits hds hne hc, hvalue, Nat.mod_eq_of_lt hnum]

/-- A text stands at the beginning of the buffer that holds it. -/
theorem holding_prefix (bytes : Nat → Char) {str : List Char} (hn : str.length ≤ n) :
    str.map byteOf <+: (List.range n).map fun j => byteOf ((Cursor.holding bytes str).bytes j) := by
  refine HDProcess.prefix_range_map ?_ fun j hj => ?_
  · rwa [List.length_map]
  · rw [List.length_map] at hj
    rw [List.getElem_map]
    exact congrArg byteOf (List.getD_eq_getElem _ _ hj)

/-- In the buffer, with the NUL that `sprintf` puts behind it. -/
theorem atoi_buffer (hnum : num < 2 ^ 32) (hfield : left ∨ zeropad ∨
      width ≤ (itoa num 10 0 precision (signed left plus zeropad)).length)
    (hn : (Cursor.itoa num 10 width precision (signed left plus zeropad) bytes).i < n) :
    atoi ((List.range n).map fun j =>
        byteOf (((Cursor.itoa num 10 width precision (signed left plus zeropad) bytes).put (Char.ofNat 0)).bytes j)) =
      some num := by
  rw [Cursor.itoa_holding, itoa_eq hnum (by decide)] at hn ⊢
  rw [itoa_eq hnum (by decide)] at hfield
  have hbare : numberText num 10 0 (signed left plus zeropad) =
      signText num (signed left plus zeropad) ++ numeral false 10 (magnitude num (signed left plus zeropad)) := by
    unfold numberText
    simp
  rw [hbare] at hfield
  obtain ⟨zeros, spaces, htext⟩ := numberText_decimal hfield
  rw [Cursor.put_holding]
  generalize hds : List.replicate zeros 0 ++ decimalDigits (magnitude num (signed left plus zeropad)) = ds at htext
  have hlt : ∀ d ∈ ds, d < 10 := fun d hd => lt_of_mem_zeros (hds ▸ hd)
  have hne : ds ≠ [] := hds ▸ List.append_ne_nil_of_right_ne_nil _ (decimalDigits_ne_nil _)
  have hvalue : decimal 0 ds = magnitude num (signed left plus zeropad) := hds ▸ decimal_zeros _ _
  -- what stands behind the number in memory does not matter
  have hlength : (numberText num 10 width (signed left plus zeropad) ++ [Char.ofNat 0]).length ≤ n := by
    rw [List.length_append, List.length_singleton]
    exact hn
  obtain ⟨p, hp⟩ := holding_prefix bytes hlength
  rw [← hp, htext, List.map_append, List.map_append, List.map_append, map_byteOf_digitChar hlt]
  cases spaces with
  | zero =>
    have h := atoi_signText (c := 0) (p := p) hnum hlt hne (by decide) hvalue
    simpa [byteOf] using h
  | succ spaces =>
    have h := atoi_signText (c := 32) (p := (List.replicate spaces ' ').map byteOf ++ 0 :: p) hnum hlt hne
      (by decide) hvalue
    simpa [List.replicate_succ, byteOf] using h

end Printf

/-! ## The name of a partition

`sprintf` of the number of the partition with one added, one or two digits for the 99 a disk may
have. The hash of the name, which `fileOpen` sends as its handle, is none of the two that open the
whole disk. -/

/-- `sprintf(partName,"%d",part+1)`, without its NUL. -/
def partName (text : Nat → List Char) (part : Nat) : List UInt8 :=
  (Printf.vsprintf (fun _ => UInt32.ofNat (part + 1)) text "%d".toList 0).1.map byteOf

namespace FileMessage

/-- What `fileOpen` sends. `fresh` is whether `allocMemory` has given it a new page. -/
def fileOpen (msg : FileMessage) (fresh : Bool) (name : List UInt8) : FileMessage :=
  { msg with
    signature := if fresh then COMMAND_HD else msg.signature
    data := Bytes.copy (fun i => name.getD i 0) 0 msg.data 0 (name.length + 1)
    command := HD_OPEN
    handle := stringHash name }

/-- What `fileOpen` returns of the reply. -/
def opened (msg : FileMessage) : Option Nat := if msg.command = HD_FAIL then none else some msg.handle

end FileMessage

section Open

variable {text : Nat → List Char} {part : Nat} {d : HDProcess} {proc : Nat} {msg : FileMessage} {fresh : Bool}

/-- The name is the decimal digits of the number, and nothing else. -/
theorem partName_eq (hpart : part + 1 < 2 ^ 31) :
    partName text part = (Printf.decimalDigits (part + 1)).map digitByte := by
  have hword : (UInt32.ofNat (part + 1)).toNat = part + 1 := by
    rw [UInt32.toNat_ofNat', Nat.mod_eq_of_lt (by omega)]
  have hpositive : ¬ Printf.IsNegative (part + 1) (Printf.signed false false false) :=
    fun hneg => by have := hneg.2; omega
  have htext : (Printf.vsprintf (fun _ => UInt32.ofNat (part + 1)) text "%d".toList 0).1 =
      Printf.itoa (part + 1) 10 (-1) (-1) (Printf.signed false false false) := by
    show (Printf.vsprintf _ text ['%', 'd'] 0).1 = _
    rw [Printf.vsprintf_convert (c := 'd') rfl rfl, Printf.vsprintf_nil, hword, List.append_nil]
    rfl
  have hfield : Printf.numberText (part + 1) 10 (-1) (Printf.signed false false false) =
      (Printf.decimalDigits (part + 1)).map (Printf.digitChar false) := by
    unfold Printf.numberText Printf.signText Printf.magnitude
    rw [if_neg hpositive, if_neg hpositive, ← Printf.numeral_decimal]
    simp [Printf.signed, Printf.radixText]
  unfold partName
  rw [htext, Printf.itoa_eq (by omega) (by decide), hfield]
  exact Printf.map_byteOf_digitChar fun d hd => Printf.lt_of_mem_decimalDigits hd

/-- The disk process does not take the number of a partition for the name of the whole disk. -/
theorem stringHash_partName (text : Nat → List Char) (hpart : part < 99) :
    stringHash (partName text part) ≠ 48 ∧ stringHash (partName text part) ≠ 1148601 := by
  have htens : (part + 1) / 10 < 10 := by omega
  have hones : (part + 1) % 10 < 10 := Nat.mod_lt _ (by decide)
  rw [partName_eq (by omega),
    show Printf.decimalDigits (part + 1) = (Nat.digits 10 (part + 1)).reverse from if_neg (by omega),
    Nat.digits_def' (by decide) (by omega)]
  -- one digit, or two of them with a first one that is not zero
  by_cases hone : (part + 1) / 10 = 0
  · rw [hone, Nat.digits_zero]
    show (0 * 31 + (digitByte ((part + 1) % 10)).toNat) % 2 ^ 32 ≠ 48 ∧
      (0 * 31 + (digitByte ((part + 1) % 10)).toNat) % 2 ^ 32 ≠ 1148601
    rw [digitByte_toNat hones]
    omega
  · rw [Nat.digits_of_lt 10 _ hone htens]
    show ((0 * 31 + (digitByte ((part + 1) / 10)).toNat) % 2 ^ 32 * 31 +
        (digitByte ((part + 1) % 10)).toNat) % 2 ^ 32 ≠ 48 ∧
      ((0 * 31 + (digitByte ((part + 1) / 10)).toNat) % 2 ^ 32 * 31 +
        (digitByte ((part + 1) % 10)).toNat) % 2 ^ 32 ≠ 1148601
    rw [digitByte_toNat htens, digitByte_toNat hones]
    generalize (part + 1) / 10 = a at htens hone ⊢
    generalize (part + 1) % 10 = b at hones ⊢
    rw [Nat.mod_eq_of_lt (by omega), Nat.mod_eq_of_lt (by omega)]
    omega

/-- One or two digits. -/
theorem partName_length_le (text : Nat → List Char) (hpart : part < 99) : (partName text part).length ≤ 2 := by
  rw [partName_eq (by omega), List.length_map,
    show Printf.decimalDigits (part + 1) = (Nat.digits 10 (part + 1)).reverse from if_neg (by omega),
    List.length_reverse]
  exact (Nat.digits_length_le_iff (by decide) _).mpr (by omega)

/-- The request of `fileOpen` shows the name to the disk process. -/
theorem fileOpen_name (msg : FileMessage) (fresh : Bool) {name : List UInt8} (hname : name.length < 2048) :
    ∃ p, HDProcess.name (msg.fileOpen fresh name) = name ++ 0 :: p := by
  refine HDProcess.exists_name hname fun j hj => ?_
  show Bytes.copy (fun i => name.getD i 0) 0 msg.data 0 (name.length + 1) j = _
  rw [Bytes.copy_of_mem (Nat.zero_le j) (by omega), Nat.zero_add, Nat.sub_zero]

/-- The disk process can print a short name. -/
theorem printable_fileOpen {name : List UInt8} (hzero : 0 ∉ name) (hlen : name.length ≤ 212) :
    HDProcess.Printable proc (msg.fileOpen fresh name) := by
  obtain ⟨p, hp⟩ := fileOpen_name msg fresh (show name.length < 2048 by omega)
  exact HDProcess.printable_of_nameLength (by rwa [HDProcess.nameLength_of_name hzero hp])

/-- The NUL that `sprintf` writes behind the name is the first. -/
theorem zero_not_mem_partName (text : Nat → List Char) (hpart : part < 99) : 0 ∉ partName text part := by
  rw [partName_eq (by omega)]
  intro hmem
  obtain ⟨d, hd, hzero⟩ := List.mem_map.mp hmem
  have hrange := (digitByte_range (Printf.lt_of_mem_decimalDigits hd)).1
  rw [hzero] at hrange
  exact absurd hrange (by decide)

/-- The disk process opens the partition that the file system has named. -/
theorem serve_partName (hpart : part < 99) (hsignature : fresh ∨ msg.signature = COMMAND_HD) :
    ∃ reply, d.serve proc (msg.fileOpen fresh (partName text part)) = ([], .ok (d, [(proc, reply)])) ∧
      reply.opened = some (part + 1) := by
  obtain ⟨hzero, hmbr⟩ := stringHash_partName text hpart
  have hlen := partName_length_le text hpart
  obtain ⟨p, hp⟩ := fileOpen_name msg fresh (hlen.trans_lt (by decide))
  have hname : atoi (HDProcess.name (msg.fileOpen fresh (partName text part))) = some (part + 1) := by
    rw [hp, partName_eq (by omega),
      atoi_digits (fun d hd => Printf.lt_of_mem_decimalDigits hd) (Printf.decimalDigits_ne_nil _) (by decide),
      Printf.decimal_decimalDigits, Nat.mod_eq_of_lt (by omega)]
  have hsignature : (msg.fileOpen fresh (partName text part)).signature = COMMAND_HD := by
    show (if fresh then COMMAND_HD else msg.signature) = COMMAND_HD
    split
    · rfl
    · next hfresh => exact hsignature.resolve_left hfresh
  have hcommand : (msg.fileOpen fresh (partName text part)).command = HD_OPEN := rfl
  -- the name is none of the two of the whole disk, and a number
  have hdisk : ¬ HDProcess.opensDisk (msg.fileOpen fresh (partName text part)) := not_or.mpr ⟨hzero, hmbr⟩
  have hrefused : ¬ HDProcess.Refused (msg.fileOpen fresh (partName text part)) :=
    fun hr => nomatch hname.symm.trans hr.2
  have hprint : HDProcess.Printable proc (msg.fileOpen fresh (partName text part)) :=
    printable_fileOpen (zero_not_mem_partName text hpart) (hlen.trans (by decide))
  refine ⟨d.openReply (msg.fileOpen fresh (partName text part)), ?_, ?_⟩
  · rw [HDProcess.serve_printable hsignature hcommand hprint]
  · unfold HDProcess.openReply
    rw [if_neg hdisk, if_neg hrefused, hname]
    rfl

end Open

/-- **Printed and read.** `atoi` reads the number that `itoa` has printed, with a sign, in its field and
with a NUL behind it; so the disk process opens the partition whose number the file system prints. -/
theorem atoi_itoa :
    (∀ (num : Nat) (width precision : Int) (left plus zeropad : Bool) (bytes : Nat → Char) (n : Nat),
      num < 2 ^ 32 →
      (left ∨ zeropad ∨ width ≤ (Printf.itoa num 10 0 precision (Printf.signed left plus zeropad)).length) →
      let s := Printf.Cursor.itoa num 10 width precision (Printf.signed left plus zeropad) bytes
      s.i < n → atoi ((List.range n).map fun j => byteOf ((s.put (Char.ofNat 0)).bytes j)) = some num) ∧
    ∀ (text : Nat → List Char) (part : Nat) (d : HDProcess) (proc : Nat) (msg : FileMessage) (fresh : Bool),
      part < MAX_PARTITIONS → fresh ∨ msg.signature = COMMAND_HD →
      ∃ reply, d.serve proc (msg.fileOpen fresh (partName text part)) = ([], .ok (d, [(proc, reply)])) ∧
        reply.opened = some (part + 1) :=
  ⟨fun _ _ _ _ _ _ _ _ hnum hfield hn => Printf.atoi_buffer hnum hfield hn,
    fun _ _ _ _ _ _ hpart hsignature => serve_partName (hpart.trans (by decide)) hsignature⟩

/-- The least number, in a field that is padded with zeros, and the last partition of the table. -/
theorem atoi_itoa_least :
    atoi ((List.range 21).map fun j => byteOf (((Printf.Cursor.itoa (2 ^ 31) 10 20 0
        (Printf.signed false false true) fun _ => '7').put (Char.ofNat 0)).bytes j)) = some (2 ^ 31) ∧
    ∃ reply, HDProcess.serve ⟨⟨0, 0, 64, fun _ => some ⟨0, 0, 0⟩, fun _ _ => rfl⟩, fun _ => 0⟩ 5
        (FileMessage.fileOpen ⟨COMMAND_HD, 0, 0, 0, 0, fun _ => 0⟩ false (partName (fun _ => []) 63)) =
          ([], .ok (⟨⟨0, 0, 64, fun _ => some ⟨0, 0, 0⟩, fun _ _ => rfl⟩, fun _ => 0⟩, [(5, reply)])) ∧
      reply.opened = some 64 := by
  constructor
  · exact atoi_itoa.1 (2 ^ 31) 20 0 false false true _ 21 (by decide) (Or.inr (Or.inl rfl)) (by decide)
  · exact atoi_itoa.2 _ 63 _ 5 _ false (by decide) (Or.inr rfl)

end NorlitOS
