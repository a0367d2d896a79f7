import NorlitOS.FileSystem.Server
import NorlitOS.Format.Print
import Mathlib.Data.List.TakeWhile

/-!
# The request loop of the hard-disk process (`harddisk_bottom`)

The driver transfers sectors between the disk and the data of the message page, 512 bytes for every
interrupt. It keeps the table of partitions that it read when it started; a handle is an index into
this table, one too large. `serve` is one round of the loop: besides the messages it sends, it gives
the accesses it makes, also those before it stops. An open prints the name it was given before it
answers; the line goes through the buffer of `printf`, which does not hold every name.
-/

namespace NorlitOS

/-- `Partition`. -/
structure Partition where
  type : Nat
  start : Nat
  size : Nat

/-- `MAX_PARTITIONS`. -/
def MAX_PARTITIONS : Nat := 64

/-- `HardDisk`. `part` is what the process reads through `hd->part[i]`, and `none` where no page is
mapped; the first `MAX_PARTITIONS` entries are the structure's own. -/
structure HardDisk where
  size : Nat
  buffer : Nat
  partCount : Nat
  part : Nat → Option Partition
  table : ∀ i < MAX_PARTITIONS, (part i).isSome

/-- The process: its table, and the disk by byte. -/
structure HDProcess where
  hd : HardDisk
  disk : Bytes

/-- A `readPort` or `writePort`: the sector, and where its bytes are in the data. -/
structure Access where
  sector : Nat
  offset : Nat
  deriving DecidableEq

/-! ## `atoi` (`format.c`)

A sign and digits, up to the first byte that is neither. A name without such a byte is read beyond
its page. -/

/-- The loop over the digits, in `u32`; no end of the string before the end of the page. -/
def digits : Nat → List UInt8 → Option Nat
  | _, [] => none
  | res, c :: p =>
    if 48 ≤ c ∧ c ≤ 57 then digits ((res * 10 + (c.toNat - 48)) % 2 ^ 32) p else some res

/-- `atoi`. -/
def atoi : List UInt8 → Option Nat
  | [] => none
  | c :: p =>
    -- `'+'` and `'-'`
    if c = 43 ∨ c = 45 then (digits 0 p).map fun res => if c = 45 then sub32 0 res else res
    else digits 0 (c :: p)

namespace HDProcess

/-! ## Sectors

One interrupt for each sector: the loop copies 512 bytes and goes on, for as many sectors as the
command was given, and as far as the page is mapped. -/

/-- The sectors the device transfers for `cmd.count`, a byte; 0 stands for 256. -/
def sectorCount (count : Nat) : Nat := if count % 256 = 0 then 256 else count % 256

/-- The address in the command has 28 bits. -/
def lba28 (lba : Nat) : Nat := lba % 2 ^ 28

/-- The sectors of data that are mapped: four in the message page, eight in the page that the last
interrupt has left behind it. -/
def MAPPED_SECTORS : Nat := 12

/-- The loop `while(count--)` of both functions, from round `k` on; the device transfers `n` sectors.
For one sector more there is no interrupt, and outside the two pages no memory. -/
def sectors {σ : Type} (move : Nat → σ → σ) (lba n : Nat) :
    Nat → Nat → σ → List Access × Except Stop σ
  | 0, _, s => ([], .ok s)
  | count + 1, k, s =>
    -- the device has given all it was asked for, and no interrupt comes
    if n ≤ k then ([], .error .hang)
    else if MAPPED_SECTORS ≤ k then ([], .error .wild)
    else
      let (accesses, s) := sectors move lba n count (k + 1) (move k s)
      (⟨lba + k, SECTOR_SIZE * k⟩ :: accesses, s)

/-- `readPort` of round `k`. -/
def readPort (d : HDProcess) (sector k : Nat) (data : Bytes) : Bytes :=
  d.disk.copy (SECTOR_SIZE * sector) data (SECTOR_SIZE * k) SECTOR_SIZE

/-- `writePort` of round `k`. -/
def writePort (data : Bytes) (sector k : Nat) (d : HDProcess) : HDProcess :=
  { d with disk := data.copy (SECTOR_SIZE * k) d.disk (SECTOR_SIZE * sector) SECTOR_SIZE }

/-- `readSectors`. -/
def readSectors (d : HDProcess) (lba count : Nat) (data : Bytes) :
    List Access × Except Stop Bytes :=
  sectors (fun k => d.readPort (lba28 lba + k) k) (lba28 lba) (sectorCount count) count 0 data

/-- `writeSectors`. -/
def writeSectors (d : HDProcess) (lba count : Nat) (data : Bytes) :
    List Access × Except Stop HDProcess :=
  sectors (fun k => writePort data (lba28 lba + k) k) (lba28 lba) (sectorCount count) count 0 d

/-! ## Requests

The branches of the `switch`. The handle word of an open is tested where the comment speaks of its
name, and the name is printed in each of the three branches. -/

/-- Word `j` of the structure. -/
def word (hd : HardDisk) : Nat → Nat
  | 0 => hd.size
  | 1 => hd.buffer
  | 2 => hd.partCount
  | j + 3 => ((hd.part (j / 3)).map fun p => [p.type, p.start, p.size].getD (j % 3) 0).getD 0

/-- `sizeof(HardDisk)`. -/
def sizeofHardDisk : Nat := 12 + 12 * MAX_PARTITIONS

/-- The bytes of the structure. -/
def image (hd : HardDisk) : Bytes := fun i => UInt8.ofNat (word hd (i / 4) / 2 ^ (8 * (i % 4)))

/-- The handle that `fileOpen` computes of the names `0` and `$MBR`. -/
def opensDisk (msg : FileMessage) : Prop := msg.handle = 48 ∨ msg.handle = 1148601

instance (msg : FileMessage) : Decidable (opensDisk msg) :=
  inferInstanceAs (Decidable (_ ∨ _))

/-- The name of a request, up to the end of the page. -/
def name (msg : FileMessage) : List UInt8 := (List.range 2048).map msg.data

/-- `msg->data`, with the message at address 0. -/
def DATA_ADDR : UInt32 := 2048

/-- The arguments behind the format: a number, and the address of the name. -/
def printArgs (proc : Nat) : Nat → UInt32
  | 0 => UInt32.ofNat proc
  | _ => DATA_ADDR

/-- What an open prints when it succeeds. -/
def printOpens (proc : Nat) (msg : FileMessage) : Except Stop (List Char) :=
  Printf.printf (printArgs proc) (fun _ => Printf.string (name msg))
    " HD: Process %x opens //Device/HD0/%s\r\n".toList

/-- What it prints when it fails. -/
def printCannotOpen (msg : FileMessage) : Except Stop (List Char) :=
  Printf.printf (fun _ => DATA_ADDR) (fun _ => Printf.string (name msg))
    " HD: Cannot open //Device/HD0/%s\r\n".toList

/-- `HD_OPEN`. -/
def openName (d : HDProcess) (proc : Nat) (msg : FileMessage) :
    Except Stop (HDProcess × List (Nat × FileMessage)) :=
  if opensDisk msg then do
    let _ ← printOpens proc msg
    -- the whole disk: its structure is the answer
    .ok (d, [(proc, { msg with handle := 0, data := (image d.hd).copy 0 msg.data 0 sizeofHardDisk })])
  else
    match atoi (name msg) with
    -- digits up to the end of the page
    | none => .error .wild
    -- a name without a number, or with the number 0
    | some 0 => do
      let _ ← printCannotOpen msg
      .ok (d, [(proc, { msg with handle := 0, command := HD_FAIL })])
    | some handle => do
      let _ ← printOpens proc msg
      .ok (d, [(proc, { msg with handle })])

/-- The first sector behind a handle. -/
def base (d : HDProcess) (handle : Nat) : Option Nat :=
  -- the disk itself
  if handle = 0 then some 0 else (d.hd.part (sub32 handle 1)).map Partition.start

/-- `HD_READ` and `HD_WRITE`. -/
def transfer (d : HDProcess) (proc : Nat) (msg : FileMessage) :
    List Access × Except Stop (HDProcess × List (Nat × FileMessage)) :=
  match d.base msg.handle with
  | none => ([], .error .wild)
  | some base =>
    -- an offset is counted from the start of the partition
    let lba := add32 msg.offset base
    if msg.command = HD_READ then
      let (accesses, data) := d.readSectors lba msg.count msg.data
      (accesses, data.map fun data => (d, [(proc, { msg with data })]))
    else
      let (accesses, d) := d.writeSectors lba msg.count msg.data
      (accesses, d.map fun d => (d, [(proc, msg)]))

/-- One round of the loop: the accesses, and what is sent. -/
def serve (d : HDProcess) (proc : Nat) (msg : FileMessage) :
    List Access × Except Stop (HDProcess × List (Nat × FileMessage)) :=
  -- what is no request for a disk gets no answer
  if msg.signature ≠ COMMAND_HD then ([], .ok (d, []))
  else if msg.command = HD_OPEN then ([], d.openName proc msg)
  else if msg.command = HD_READ ∨ msg.command = HD_WRITE then d.transfer proc msg
  else ([], .ok (d, []))

/-! ## The line of an open

The line is the name with some thirty characters around it, and the digits of the number of the process
where the open succeeds. -/

section Line

variable {d : HDProcess} {proc : Nat} {msg : FileMessage}

/-- The characters of the name in front of its NUL. -/
def nameLength (msg : FileMessage) : Nat := (Printf.string (name msg)).length

/-- The digits of the number of a process, as `%x` writes them. -/
def hexDigits (proc : Nat) : Nat := (Printf.numeral true 16 (proc % 2 ^ 32)).length

/-- The open fails: its name has no number. -/
def Refused (msg : FileMessage) : Prop := ¬ opensDisk msg ∧ atoi (name msg) = some 0

instance (msg : FileMessage) : Decidable (Refused msg) := inferInstanceAs (Decidable (_ ∧ _))

/-- The line of an open fits into the buffer of `printf`. -/
structure Printable (proc : Nat) (msg : FileMessage) : Prop where
  refused : Refused msg → nameLength msg ≤ 223
  opened : ¬ Refused msg → hexDigits proc + nameLength msg ≤ 220

theorem hexDigits_le (proc : Nat) : hexDigits proc ≤ 8 :=
  Printf.numeral_length_le (by decide) (by decide) (Nat.mod_lt _ (by decide))

/-- A `%x` in the line. -/
theorem hex_length (proc : Nat) : (Printf.itoa (UInt32.ofNat proc).toNat 16 (-1) (-1)
    { Printf.noFlags with small := true }).length = hexDigits proc := by
  have hdigits : (Printf.numeral true 16 (proc % 2 ^ 32)).length ≠ 0 := by
    rw [ne_eq, List.length_eq_zero_iff]
    exact Printf.numeral_ne_nil _ _ _
  rw [UInt32.toNat_ofNat', Printf.itoa_length (Nat.mod_lt _ (by decide)) (by decide)
    (fun hneg => absurd hneg.1 (by decide)) rfl rfl]
  exact Nat.max_eq_right (Nat.zero_le _)

theorem printOpens_ok_iff :
    (∃ line, printOpens proc msg = .ok line) ↔ hexDigits proc + nameLength msg ≤ 220 := by
  have hfmt : " HD: Process %x opens //Device/HD0/%s\r\n".toList = " HD: Process ".toList ++
      '%' :: 'x' :: (" opens //Device/HD0/".toList ++ '%' :: 's' :: ("\r\n".toList ++ [])) := by decide
  have hline : (Printf.vsprintf (printArgs proc) (fun _ => Printf.string (name msg))
      " HD: Process %x opens //Device/HD0/%s\r\n".toList 0).1.length =
        13 + (hexDigits proc + (20 + (nameLength msg + 2))) := by
    rw [hfmt, Printf.vsprintf_append (by decide), Printf.vsprintf_convert (c := 'x') (n := 1) rfl rfl,
      Printf.vsprintf_append (by decide), Printf.vsprintf_string, Printf.vsprintf_append (by decide),
      Printf.vsprintf_nil]
    simp only [List.length_append, List.append_nil]
    rw [← hex_length proc]
    rfl
  unfold printOpens
  rw [Printf.printf_ok_iff, hline]
  unfold Printf.BUF_SIZE
  omega

theorem printCannotOpen_ok_iff : (∃ line, printCannotOpen msg = .ok line) ↔ nameLength msg ≤ 223 := by
  have hfmt : " HD: Cannot open //Device/HD0/%s\r\n".toList =
      " HD: Cannot open //Device/HD0/".toList ++ '%' :: 's' :: ("\r\n".toList ++ []) := by decide
  have hline : (Printf.vsprintf (fun _ => DATA_ADDR) (fun _ => Printf.string (name msg))
      " HD: Cannot open //Device/HD0/%s\r\n".toList 0).1.length = 30 + (nameLength msg + 2) := by
    rw [hfmt, Printf.vsprintf_append (by decide), Printf.vsprintf_string,
      Printf.vsprintf_append (by decide), Printf.vsprintf_nil]
    simp only [List.length_append, List.append_nil]
    rfl
  unfold printCannotOpen
  rw [Printf.printf_ok_iff, hline]
  unfold Printf.BUF_SIZE
  omega

/-- A list is found at the start of a memory that holds its elements. -/
theorem prefix_range_map {α : Type} {f : Nat → α} {l : List α} {n : Nat} (hn : l.length ≤ n)
    (hl : ∀ j, (hj : j < l.length) → f j = l[j]) : l <+: (List.range n).map f := by
  rw [List.prefix_iff_getElem]
  refine ⟨by rw [List.length_map, List.length_range]; exact hn, fun j hj => ?_⟩
  rw [List.getElem_map, List.getElem_range]
  exact (hl j hj).symm

/-- The name is the string at the beginning of the data. -/
theorem exists_name {str : List UInt8} (hlen : str.length < 2048)
    (hstr : ∀ j ≤ str.length, msg.data j = str.getD j 0) : ∃ p, name msg = str ++ 0 :: p := by
  have hprefix : str ++ [0] <+: name msg := by
    refine prefix_range_map (by simpa using hlen) fun j hj => ?_
    rw [List.length_append, List.length_singleton] at hj
    rw [hstr j (by omega)]
    rcases Nat.lt_or_ge j str.length with hlt | hge
    · rw [List.getD_eq_getElem _ _ hlt, List.getElem_append_left hlt]
    · rw [List.getD_eq_default _ _ hge, List.getElem_append_right hge]
      simp
  obtain ⟨p, hp⟩ := hprefix
  refine ⟨p, ?_⟩
  rw [← hp, List.append_assoc]
  rfl

theorem nameLength_of_name {str p : List UInt8} (hzero : 0 ∉ str) (hname : name msg = str ++ 0 :: p) :
    nameLength msg = str.length := by
  unfold nameLength
  rw [hname, Printf.string_append hzero, List.length_map]

/-- A name of some two hundred characters can be printed for every process. -/
theorem printable_of_nameLength (h : nameLength msg ≤ 212) : Printable proc msg := by
  have hdigits := hexDigits_le proc
  exact ⟨fun _ => by omega, fun _ => by omega⟩

/-- The digits end in front of the NUL. -/
theorem digits_ne_none {res : Nat} {p : List UInt8} (h : 0 ∈ p) : digits res p ≠ none := by
  induction p generalizing res with
  | nil => exact absurd h List.not_mem_nil
  | cons c p ih =>
    rw [digits]
    split
    · have hne : c ≠ 0 := by
        rintro rfl
        exact absurd ‹_› (by decide)
      exact ih ((List.mem_cons.mp h).resolve_left hne.symm)
    · exact Option.some_ne_none _

theorem atoi_ne_none {p : List UInt8} (h : 0 ∈ p) : atoi p ≠ none := by
  cases p with
  | nil => exact absurd h List.not_mem_nil
  | cons c p =>
    rw [atoi]
    split
    · have hne : c ≠ 0 := by
        rintro rfl
        exact absurd ‹_› (by decide)
      rw [ne_eq, Option.map_eq_none_iff]
      exact digits_ne_none ((List.mem_cons.mp h).resolve_left hne.symm)
    · exact digits_ne_none h

/-- A name that is shorter than the page ends in it. -/
theorem zero_mem_of_nameLength (h : nameLength msg < 2048) : 0 ∈ name msg := by
  by_contra hzero
  have hall : ∀ c ∈ name msg, decide (c ≠ 0) = true := fun c hc =>
    decide_eq_true fun heq => hzero (heq ▸ hc)
  have hlen : nameLength msg = 2048 := by
    unfold nameLength
    rw [Printf.string_length, List.takeWhile_eq_self_iff.mpr hall]
    unfold name
    rw [List.length_map, List.length_range]
  omega

theorem Printable.zero_mem (h : Printable proc msg) : 0 ∈ name msg := by
  refine zero_mem_of_nameLength ?_
  by_cases hr : Refused msg
  · have hle := h.refused hr
    omega
  · have hle := h.opened hr
    omega

/-- The answer to an open. -/
def openReply (d : HDProcess) (msg : FileMessage) : FileMessage :=
  if opensDisk msg then
    { msg with handle := 0, data := (image d.hd).copy 0 msg.data 0 sizeofHardDisk }
  else if Refused msg then { msg with handle := 0, command := HD_FAIL }
  else { msg with handle := (atoi (name msg)).getD 0 }

/-- The line of an open. -/
def printLine (proc : Nat) (msg : FileMessage) : Except Stop (List Char) :=
  if Refused msg then printCannotOpen msg else printOpens proc msg

theorem printLine_ok_iff : (∃ line, printLine proc msg = .ok line) ↔ Printable proc msg := by
  unfold printLine
  split
  · next hr => exact printCannotOpen_ok_iff.trans ⟨fun h => ⟨fun _ => h, (absurd hr ·)⟩, (·.refused hr)⟩
  · next hr => exact printOpens_ok_iff.trans ⟨fun h => ⟨(absurd · hr), fun _ => h⟩, (·.opened hr)⟩

/-- A line that does not fit leaves the buffer. -/
theorem printLine_wild (h : ¬ Printable proc msg) : printLine proc msg = .error .wild := by
  rw [← printLine_ok_iff] at h
  unfold printLine at h ⊢
  split at h
  · next hr =>
    rw [if_pos hr]
    exact Printf.printf_wild h
  · next hr =>
    rw [if_neg hr]
    exact Printf.printf_wild h

/-- An open of a name that ends prints its line, and then answers. -/
theorem openName_eq (hzero : 0 ∈ name msg) : d.openName proc msg =
    (printLine proc msg).map fun _ => (d, [(proc, d.openReply msg)]) := by
  unfold openName printLine openReply
  by_cases hdisk : opensDisk msg
  · have hr : ¬ Refused msg := fun hr => hr.1 hdisk
    rw [if_pos hdisk, if_pos hdisk, if_neg hr]
    cases printOpens proc msg <;> rfl
  · rw [if_neg hdisk, if_neg hdisk]
    cases hnum : atoi (name msg) with
    | none => exact absurd hnum (atoi_ne_none hzero)
    | some num =>
      cases num with
      | zero =>
        have hr : Refused msg := ⟨hdisk, hnum⟩
        rw [if_pos hr, if_pos hr]
        cases printCannotOpen msg <;> rfl
      | succ num =>
        have hr : ¬ Refused msg := fun hr => by simpa [hnum] using hr.2
        rw [if_neg hr, if_neg hr]
        cases printOpens proc msg <;> rfl

/-- **An open** whose line fits is answered. -/
theorem openName_of_printable (h : Printable proc msg) :
    d.openName proc msg = .ok (d, [(proc, d.openReply msg)]) := by
  obtain ⟨line, hline⟩ := printLine_ok_iff.mpr h
  rw [openName_eq h.zero_mem, hline]
  rfl

/-- The round of such an open. -/
theorem serve_printable (hsig : msg.signature = COMMAND_HD) (hopen : msg.command = HD_OPEN)
    (h : Printable proc msg) : d.serve proc msg = ([], .ok (d, [(proc, d.openReply msg)])) := by
  unfold serve
  rw [if_neg (not_not.mpr hsig), if_pos hopen, openName_of_printable h]

/-- Any other leaves the buffer, or the page of the message. -/
theorem openName_of_not_printable (h : ¬ Printable proc msg) : d.openName proc msg = .error .wild := by
  by_cases hzero : 0 ∈ name msg
  · rw [openName_eq hzero, printLine_wild h]
    rfl
  · have hlen : ¬ nameLength msg < 2048 := fun hlt => hzero (zero_mem_of_nameLength hlt)
    have hopens : printOpens proc msg = .error .wild := Printf.printf_wild fun hok => by
      have hle := printOpens_ok_iff.mp hok
      omega
    have hcannot : printCannotOpen msg = .error .wild := Printf.printf_wild fun hok => by
      have hle := printCannotOpen_ok_iff.mp hok
      omega
    unfold openName
    rw [hopens, hcannot]
    split
    · rfl
    · split <;> rfl

end Line

end HDProcess

end NorlitOS
