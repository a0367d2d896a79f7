import NorlitOS.HardDisk.Server
import Mathlib.Logic.Function.Basic
import Mathlib.Data.List.Range

/-!
# The partition table (`readPartition`)

The four entries of the boot sector are the first partitions. Where one of them is extended, its
sectors hold a chain of extended boot sectors (EBR): the first entry of each is a partition, the
second refers to the next one, relative to the start of the extended partition. `EBRChain` is the
chain by itself: how a sector is found and which links are followed are parameters, because the boot
sector and the kernel do not agree on them.
-/

namespace NorlitOS

/-- `MBREntry`, without the addresses by cylinder. -/
structure MBREntry where
  active : UInt8
  fileSystem : UInt8
  location : Nat
  size : Nat

/-- `MBR_LOCATION`. -/
def MBR_LOCATION : Nat := 0x1BE

/-- `MBR_CHECK`. -/
def MBR_CHECK : Nat := 0xAA55

/-- `MAGIC_NORLIT`. -/
def MAGIC_NORLIT : UInt8 := 0x6E

/-- `MAGIC_EXTENDED`. -/
def MAGIC_EXTENDED : UInt8 := 0x5

/-- `MAGIC_GPT`. -/
def MAGIC_GPT : UInt8 := 0xEE

/-- `mbr->entry[i]`. -/
def mbrEntry (mbr : Bytes) (i : Nat) : MBREntry :=
  ⟨mbr (MBR_LOCATION + 16 * i), mbr (MBR_LOCATION + 16 * i + 4),
    mbr.u32 (MBR_LOCATION + 16 * i + 8), mbr.u32 (MBR_LOCATION + 16 * i + 12)⟩

/-- `mbr->endCheck`. -/
def endCheck (mbr : Bytes) : Nat := (mbr 510).toNat + 256 * (mbr 511).toNat

/-- A sector of the disk. -/
def sectorBytes (disk : Bytes) (lba : Nat) : Bytes := fun i => disk (SECTOR_SIZE * lba + i)

/-- `fileSystem|(active!=0)*0x80000000`. -/
def MBREntry.type (e : MBREntry) : Nat :=
  e.fileSystem.toNat ||| if e.active ≠ 0 then 0x80000000 else 0

/-- The partition of an entry. -/
def MBREntry.partition (e : MBREntry) (start : Nat) : Partition := ⟨e.type, start, e.size⟩

namespace HardDisk

/-- `hd->part[i]=p`. -/
def setPart (hd : HardDisk) (i : Nat) (p : Partition) : HardDisk where
  size := hd.size
  buffer := hd.buffer
  partCount := hd.partCount
  part := Function.update hd.part i (some p)
  table := by
    intro j hj
    rcases eq_or_ne j i with rfl | hne
    · rw [Function.update_self]
      rfl
    · rw [Function.update_of_ne hne]
      exact hd.table j hj

/-- `hd->partCount=count`. -/
def setCount (hd : HardDisk) (count : Nat) : HardDisk := { hd with partCount := count }

variable {hd : HardDisk} {i j count : Nat} {p : Partition}

@[simp] theorem setPart_self : (hd.setPart i p).part i = some p := Function.update_self _ _ _

theorem setPart_of_ne (h : j ≠ i) : (hd.setPart i p).part j = hd.part j :=
  Function.update_of_ne h _ _

@[simp] theorem setCount_part : (hd.setCount count).part = hd.part := rfl

@[simp] theorem setCount_partCount : (hd.setCount count).partCount = count := rfl

end HardDisk

/-! ## `readPartition`

The two loops of the source over the table of the boot sector and along the chain. The count goes
up before a sector of the chain is looked at, as in the source. -/

/-- The sector `readSectors(lba, 1, data)` leaves in the buffer. -/
def readSector (disk : Bytes) (lba : Nat) : Bytes := sectorBytes disk (HDProcess.lba28 lba)

/-- The loop over the entries of the boot sector, with `n` of them left: the table, and `extSec`. -/
def readPrimary (mbr : Bytes) : Nat → Nat → HardDisk → Nat → HardDisk × Nat
  | 0, _, hd, extSec => (hd, extSec)
  | n + 1, i, hd, extSec =>
    let me := mbrEntry mbr i
    let hd := hd.setPart i (me.partition me.location)
    readPrimary mbr n (i + 1) hd (if me.fileSystem = MAGIC_EXTENDED then me.location else extSec)

/-- `while(extSec){ .. }`, with `n` free entries left in the table: the table, and `id`. -/
def readLogical (disk : Bytes) (extBase : Nat) : Nat → Nat → Nat → HardDisk → HardDisk × Nat
  -- no sector, or "No More Than 64 Partitions"
  | 0, id, _, hd => (hd, id)
  | n + 1, id, extSec, hd =>
    if extSec = 0 then (hd, id)
    else
      let mbr := readSector disk extSec
      if endCheck mbr ≠ MBR_CHECK then (hd, id + 1)
      else
        let npt := (mbrEntry mbr 0).partition (add32 (mbrEntry mbr 0).location extSec)
        let hd := hd.setPart id npt
        if (mbrEntry mbr 1).fileSystem ≠ 0 then
          readLogical disk extBase n (id + 1) (add32 extBase (mbrEntry mbr 1).location) hd
        else (hd, id + 1)

/-- `readPartition`. -/
def readPartition (disk : Bytes) (hd : HardDisk) : HardDisk :=
  let mbr := readSector disk 0
  if endCheck mbr ≠ MBR_CHECK then hd
  else if (mbrEntry mbr 0).fileSystem ≠ MAGIC_GPT then
    let (hd, extSec) := readPrimary mbr 4 0 hd 0
    let (hd, id) := readLogical disk extSec (MAX_PARTITIONS - 4) 4 extSec hd
    hd.setCount id
  else hd.setCount 0

/-- A partition of NorlitOS: `BIT_CLEAR(type,31)==MAGIC_NORLIT`. -/
def Partition.norlit (p : Partition) : Bool := p.type &&& 0x7FFFFFFF == MAGIC_NORLIT.toNat

/-- The search of `norlitfs_bottom` through `hd->part[i]`, with `n` entries left: where the first
partition of NorlitOS starts. -/
def searchPart (hd : HardDisk) : Nat → Nat → Option Nat
  | 0, _ => none
  | n + 1, i =>
    match hd.part i with
    | none => searchPart hd n (i + 1)
    | some p => if p.norlit then some p.start else searchPart hd n (i + 1)

/-- Where the kernel finds its partition. -/
def kernelStart (hd : HardDisk) : Option Nat := searchPart hd hd.partCount 0

/-! ## Chains

A chain is a relation between the sectors of a disk and the partition it leads to. The sectors are
read by a function, so that the same relation serves the disk and what the kernel can read of it.
-/

/-- On the chain of extended boot sectors from `sec`, the first partition of NorlitOS starts at
`lba`. `read` gives the sectors, and `none` where the chain ends; `valid` are the links. -/
inductive EBRChain (read : Nat → Option Bytes) (valid : UInt8 → Prop) (base : Nat) :
    Nat → Nat → Prop where
  | here {sec : Nat} {ebr : Bytes} (hread : read sec = some ebr)
      (hnorlit : (mbrEntry ebr 0).fileSystem = MAGIC_NORLIT) :
      EBRChain read valid base sec (add32 (mbrEntry ebr 0).location sec)
  | next {sec lba : Nat} {ebr : Bytes} (hread : read sec = some ebr)
      (hnorlit : (mbrEntry ebr 0).fileSystem ≠ MAGIC_NORLIT)
      (hvalid : valid (mbrEntry ebr 1).fileSystem)
      (rest : EBRChain read valid base (add32 base (mbrEntry ebr 1).location) lba) :
      EBRChain read valid base sec lba

section EBRChain

variable {read : Nat → Option Bytes} {valid : UInt8 → Prop} {base sec lba : Nat} {ebr : Bytes}

/-- A chain by its first sector. -/
theorem ebrChain_iff (hread : read sec = some ebr) : EBRChain read valid base sec lba ↔
    if (mbrEntry ebr 0).fileSystem = MAGIC_NORLIT then
      add32 (mbrEntry ebr 0).location sec = lba
    else valid (mbrEntry ebr 1).fileSystem ∧
      EBRChain read valid base (add32 base (mbrEntry ebr 1).location) lba := by
  constructor
  · intro h
    cases h with
    | here hread' hnorlit =>
      obtain rfl := Option.some.inj (hread.symm.trans hread')
      rw [if_pos hnorlit]
    | next hread' hnorlit hvalid rest =>
      obtain rfl := Option.some.inj (hread.symm.trans hread')
      rw [if_neg hnorlit]
      exact ⟨hvalid, rest⟩
  · intro h
    -- the first entry decides whether the chain ends here
    split at h
    · rw [← h]
      exact .here hread ‹_›
    · exact .next hread ‹_› h.1 h.2

/-- There is no chain from a sector that cannot be read. -/
theorem not_ebrChain (hread : read sec = none) : ¬ EBRChain read valid base sec lba := by
  intro h
  cases h with
  | here hread' => exact nomatch hread.symm.trans hread'
  | next hread' => exact nomatch hread.symm.trans hread'

/-- A chain has one first partition. -/
theorem EBRChain.unique {lba' : Nat} (h : EBRChain read valid base sec lba)
    (h' : EBRChain read valid base sec lba') : lba = lba' := by
  induction h with
  | here hread hnorlit =>
    rw [ebrChain_iff hread, if_pos hnorlit] at h'
    exact h'
  | next hread hnorlit _ _ ih =>
    rw [ebrChain_iff hread, if_neg hnorlit] at h'
    exact ih h'.2

end EBRChain

/-- The sectors as the kernel finds them: 28 bits of the address, and sector 0 ends the chain. -/
def kernelSector (disk : Bytes) (sec : Nat) : Option Bytes :=
  if sec = 0 then none else some (readSector disk sec)

variable {disk mbr : Bytes} {hd hd' : HardDisk} {e : MBREntry} {p : Partition}
  {base i j id n m sec lba extSec start : Nat}

/-! ## The table

The search takes the first partition of NorlitOS among the entries listed. The first four are
those of the boot sector. -/

/-- The type of a partition is that of its entry. -/
theorem norlit_partition : (e.partition start).norlit = true ↔ e.fileSystem = MAGIC_NORLIT := by
  have hlt := e.fileSystem.toNat_lt
  have htype : e.type &&& 0x7FFFFFFF = e.fileSystem.toNat := by
    unfold MBREntry.type
    rw [Nat.and_or_distrib_right, show 0x7FFFFFFF = 2 ^ 31 - 1 by decide,
      Nat.and_two_pow_sub_one_eq_mod, Nat.mod_eq_of_lt (by omega)]
    split
    · exact Nat.or_zero _
    · exact Nat.or_zero _
  change (e.type &&& 0x7FFFFFFF == MAGIC_NORLIT.toNat) = true ↔ _
  rw [htype, beq_iff_eq, UInt8.toNat_inj]

/-- The search looks at the entries in its range. -/
theorem searchPart_congr (h : ∀ j, i ≤ j → j < i + n → hd'.part j = hd.part j) :
    searchPart hd' n i = searchPart hd n i := by
  induction n generalizing i with
  | zero => rfl
  | succ n ih =>
    have hrest : searchPart hd' n (i + 1) = searchPart hd n (i + 1) :=
      ih fun j hij hj => h j (by omega) (by omega)
    rw [searchPart, searchPart, h i (Nat.le_refl i) (by omega), hrest]

theorem searchPart_of_norlit (hi : hd.part i = some p) (hp : p.norlit = true) :
    searchPart hd (n + 1) i = some p.start := by
  rw [searchPart, hi]
  exact if_pos hp

theorem searchPart_of_other (hi : hd.part i = some p) (hp : p.norlit ≠ true) :
    searchPart hd (n + 1) i = searchPart hd n (i + 1) := by
  rw [searchPart, hi]
  exact if_neg hp

/-- The entries of a boot sector. -/
def mbrEntries (mbr : Bytes) : List MBREntry := (List.range' 0 4).map (mbrEntry mbr)

/-- The first partition of NorlitOS among them. -/
def firstNorlit (es : List MBREntry) : Option MBREntry :=
  es.find? fun e => e.fileSystem = MAGIC_NORLIT

/-- The start of the last extended one, 0 where there is none. -/
def lastExtended (es : List MBREntry) : Nat :=
  es.foldl (fun extSec e => if e.fileSystem = MAGIC_EXTENDED then e.location else extSec) 0

/-- Entries outside the loop stay. -/
theorem readPrimary_other (h : j < i) : (readPrimary mbr n i hd extSec).1.part j = hd.part j := by
  induction n generalizing i hd extSec with
  | zero => rfl
  | succ n ih =>
    rw [readPrimary]
    rw [ih (by omega), HardDisk.setPart_of_ne (by omega)]

/-- The loop over the boot sector. -/
theorem readPrimary_part (hij : i ≤ j) (hj : j < i + n) :
    (readPrimary mbr n i hd extSec).1.part j =
      some ((mbrEntry mbr j).partition (mbrEntry mbr j).location) := by
  induction n generalizing i hd extSec with
  | zero => omega
  | succ n ih =>
    rw [readPrimary]
    rcases Nat.eq_or_lt_of_le hij with rfl | hlt
    · rw [readPrimary_other (Nat.lt_succ_self i), HardDisk.setPart_self]
    · exact ih hlt (by omega)

/-- The last extended entry is the one whose chain is followed. -/
theorem readPrimary_extSec : (readPrimary mbr n i hd extSec).2 =
    ((List.range' i n).map (mbrEntry mbr)).foldl
      (fun extSec e => if e.fileSystem = MAGIC_EXTENDED then e.location else extSec) extSec := by
  induction n generalizing i hd extSec with
  | zero => rfl
  | succ n ih =>
    rw [readPrimary, List.range'_succ, List.map_cons, List.foldl_cons]
    exact ih

/-- The search through the entries of a boot sector. -/
theorem searchPart_primary (h : ∀ j, i ≤ j → j < i + n →
    hd.part j = some ((mbrEntry mbr j).partition (mbrEntry mbr j).location)) :
    searchPart hd (n + m) i =
      match firstNorlit ((List.range' i n).map (mbrEntry mbr)) with
      | some e => some e.location
      | none => searchPart hd m (i + n) := by
  induction n generalizing i with
  | zero =>
    rw [Nat.zero_add]
    rfl
  | succ n ih =>
    have hi := h i (Nat.le_refl i) (by omega)
    unfold firstNorlit
    rw [show n + 1 + m = n + m + 1 by omega, List.range'_succ, List.map_cons]
    by_cases hn : (mbrEntry mbr i).fileSystem = MAGIC_NORLIT
    · rw [searchPart_of_norlit hi (norlit_partition.mpr hn), List.find?_cons_of_pos (by simpa using hn)]
      rfl
    · rw [searchPart_of_other hi fun hp => hn (norlit_partition.mp hp),
        List.find?_cons_of_neg (by simpa using hn), ih fun j hij hj => h j (by omega) (by omega),
        show i + 1 + n = i + (n + 1) by omega]
      rfl

/-! ## The chain

The loop enters the partitions of the chain one by one, until a sector is not signed, the chain
ends or the table is full. -/

/-- Every sector of the disk has the signature. -/
def Signed (disk : Bytes) : Prop := ∀ lba, endCheck (sectorBytes disk lba) = MBR_CHECK

/-- The partition in the first entry of an extended boot sector. -/
def logicalPart (ebr : Bytes) (sec : Nat) : Partition :=
  (mbrEntry ebr 0).partition (add32 (mbrEntry ebr 0).location sec)

/-- The loop keeps the entries in front of it. -/
theorem readLogical_frame : id ≤ (readLogical disk base n id extSec hd).2 ∧
    ∀ j < id, (readLogical disk base n id extSec hd).1.part j = hd.part j := by
  induction n generalizing id extSec hd with
  | zero => exact ⟨Nat.le_refl id, fun _ _ => rfl⟩
  | succ n ih =>
    rw [readLogical]
    split
    · exact ⟨Nat.le_refl id, fun _ _ => rfl⟩
    · dsimp only
      split
      · exact ⟨Nat.le_succ id, fun _ _ => rfl⟩
      · split
        · refine ⟨(Nat.le_succ id).trans ih.1, fun j hj => ?_⟩
          rw [ih.2 j (by omega), HardDisk.setPart_of_ne (by omega)]
        · exact ⟨Nat.le_succ id, fun j hj => HardDisk.setPart_of_ne (by omega)⟩

/-- One round of the loop. -/
theorem readLogical_succ (hsigned : Signed disk) (hsec : extSec ≠ 0) :
    readLogical disk base (n + 1) id extSec hd =
      if (mbrEntry (readSector disk extSec) 1).fileSystem ≠ 0 then
        readLogical disk base n (id + 1)
          (add32 base (mbrEntry (readSector disk extSec) 1).location)
          (hd.setPart id (logicalPart (readSector disk extSec) extSec))
      else (hd.setPart id (logicalPart (readSector disk extSec) extSec), id + 1) := by
  have hcheck : endCheck (readSector disk extSec) = MBR_CHECK := hsigned _
  rw [readLogical, if_neg hsec, if_neg (not_not.mpr hcheck)]
  rfl

/-- **The kernel's chain.** If the loop ends before the table is full, the first partition of
NorlitOS it has found is that of the chain. -/
theorem readLogical_search (hsigned : Signed disk)
    (hend : (readLogical disk base n id extSec hd).2 < id + n) :
    searchPart (readLogical disk base n id extSec hd).1
        ((readLogical disk base n id extSec hd).2 - id) id = some lba ↔
      EBRChain (kernelSector disk) (fun link => link ≠ 0) base extSec lba := by
  induction n generalizing id extSec hd with
  | zero => exact absurd hend (Nat.lt_irrefl id)
  | succ n ih =>
    rcases eq_or_ne extSec 0 with rfl | hsec
    · -- no sector
      rw [readLogical, if_pos rfl, Nat.sub_self]
      exact iff_of_false (fun h => nomatch h) (not_ebrChain (if_pos rfl))
    · have hread : kernelSector disk extSec = some (readSector disk extSec) := if_neg hsec
      rw [readLogical_succ hsigned hsec] at hend ⊢
      set ebr := readSector disk extSec with hebr
      set hd₁ := hd.setPart id (logicalPart ebr extSec) with hhd₁
      have hpart : hd₁.part id = some (logicalPart ebr extSec) := HardDisk.setPart_self
      set r := if (mbrEntry ebr 1).fileSystem ≠ 0 then
        readLogical disk base n (id + 1) (add32 base (mbrEntry ebr 1).location) hd₁
        else (hd₁, id + 1) with hr
      -- the new entry stays, and more of the table may follow
      have hframe : id + 1 ≤ r.2 ∧ r.1.part id = some (logicalPart ebr extSec) := by
        rw [hr]
        split
        · exact ⟨readLogical_frame.1, (readLogical_frame.2 id (Nat.lt_succ_self id)).trans hpart⟩
        · exact ⟨Nat.le_refl _, hpart⟩
      rw [show r.2 - id = r.2 - (id + 1) + 1 by omega, ebrChain_iff hread]
      by_cases hn : (mbrEntry ebr 0).fileSystem = MAGIC_NORLIT
      · rw [searchPart_of_norlit hframe.2 (norlit_partition.mpr hn), if_pos hn]
        exact Option.some_inj
      · rw [searchPart_of_other hframe.2 fun hp => hn (norlit_partition.mp hp), if_neg hn]
        by_cases hlink : (mbrEntry ebr 1).fileSystem = 0
        · -- the chain ends
          rw [hr, if_neg (not_not.mpr hlink), Nat.sub_self]
          exact iff_of_false (fun h => nomatch h) fun h => h.1 hlink
        · rw [hr, if_pos hlink] at hend ⊢
          rw [ih (by omega), and_iff_right hlink]

/-- **Where the kernel finds its partition**: among the entries of the boot sector, and if there is
none, on the chain of the last extended one. -/
theorem kernelStart_iff (hsigned : Signed disk)
    (hcount : (readPartition disk hd).partCount < MAX_PARTITIONS) :
    kernelStart (readPartition disk hd) = some lba ↔
      (mbrEntry (sectorBytes disk 0) 0).fileSystem ≠ MAGIC_GPT ∧
        match firstNorlit (mbrEntries (sectorBytes disk 0)) with
        | some e => e.location = lba
        | none => EBRChain (kernelSector disk) (fun link => link ≠ 0)
            (lastExtended (mbrEntries (sectorBytes disk 0)))
            (lastExtended (mbrEntries (sectorBytes disk 0))) lba := by
  have hcheck : endCheck (readSector disk 0) = MBR_CHECK := hsigned _
  have hmbr : readSector disk 0 = sectorBytes disk 0 := rfl
  unfold readPartition at hcount ⊢
  dsimp only at hcount ⊢
  rw [if_neg (not_not.mpr hcheck), hmbr] at hcount ⊢
  by_cases hgpt : (mbrEntry (sectorBytes disk 0) 0).fileSystem = MAGIC_GPT
  · rw [if_neg (not_not.mpr hgpt)]
    exact iff_of_false (fun h => nomatch h) fun h => h.1 hgpt
  · rw [if_pos hgpt] at hcount ⊢
    rw [and_iff_right hgpt]
    have hext : (readPrimary (sectorBytes disk 0) 4 0 hd 0).2 =
        lastExtended (mbrEntries (sectorBytes disk 0)) := readPrimary_extSec
    rw [hext] at hcount ⊢
    set es := mbrEntries (sectorBytes disk 0) with hes
    set q := readLogical disk (lastExtended es) (MAX_PARTITIONS - 4) 4 (lastExtended es)
      (readPrimary (sectorBytes disk 0) 4 0 hd 0).1 with hq
    have hge : 4 ≤ q.2 := readLogical_frame.1
    -- the first four entries are those of the boot sector
    have hprimary : ∀ j, 0 ≤ j → j < 0 + 4 → (q.1.setCount q.2).part j =
        some ((mbrEntry (sectorBytes disk 0) j).partition
          (mbrEntry (sectorBytes disk 0) j).location) := by
      intro j hj hj'
      rw [HardDisk.setCount_part, hq, readLogical_frame.2 j (by omega)]
      exact readPrimary_part hj hj'
    -- the search goes over these four, then over the chain
    have hsplit : kernelStart (q.1.setCount q.2) = searchPart (q.1.setCount q.2) (4 + (q.2 - 4)) 0 := by
      rw [show 4 + (q.2 - 4) = q.2 by omega]
      rfl
    have hrest : searchPart (q.1.setCount q.2) (q.2 - 4) (0 + 4) = searchPart q.1 (q.2 - 4) 4 :=
      searchPart_congr fun _ _ _ => rfl
    rw [hsplit, searchPart_primary hprimary, hrest]
    change (match firstNorlit es with
      | some e => some e.location
      | none => searchPart q.1 (q.2 - 4) 4) = some lba ↔ _
    cases firstNorlit es with
    | some e => exact Option.some_inj
    | none =>
      dsimp only
      exact readLogical_search hsigned hcount

end NorlitOS
