import NorlitOS.HardDisk.Partitions

/-!
# What is in the partition table

The partitions of a disk are the entries of the boot sector and one entry for each extended boot
sector on the chain, up to the end of the table. `readPartition` lists them in this order, but it
counts an entry before it has looked at its sector, and it leaves the count alone when the boot
sector has no signature. So an entry that has not been read is counted when the chain breaks off, or
when there was one before. Nor does it always read the sector it means: of a number it uses 28 bits,
and the number 0 ends its loop.
-/

namespace NorlitOS

variable {disk mbr ebr : Bytes} {hd : HardDisk} {base extSec i id k n sec x : Nat} {es : List MBREntry}

/-! ## The partitions of a disk

A chain is followed in the same way by the disk and by the kernel. They differ in how a sector is found
and in how the numbers of sectors are added: the disk has a sector for every number, the kernel adds in
`u32`, leaves out the upper bits of an address and takes the number 0 for the end. -/

/-- How the sectors of a chain are found. -/
structure Sectors where
  read : Nat → Option Bytes
  add : Nat → Nat → Nat

/-- By their numbers. -/
def diskSectors (disk : Bytes) : Sectors := ⟨fun sec => some (sectorBytes disk sec), (· + ·)⟩

/-- As the kernel does. -/
def kernelSectors (disk : Bytes) : Sectors := ⟨kernelSector disk, add32⟩

@[simp] theorem diskSectors_read (disk : Bytes) (sec : Nat) :
    (diskSectors disk).read sec = some (sectorBytes disk sec) := rfl

@[simp] theorem diskSectors_add (disk : Bytes) (a b : Nat) : (diskSectors disk).add a b = a + b := rfl

@[simp] theorem kernelSectors_add (disk : Bytes) (a b : Nat) :
    (kernelSectors disk).add a b = add32 a b := rfl

/-- The partitions on a chain of extended boot sectors, `n` of them at most, up to the first sector
without signature. A link is an entry with a file system; it counts from `base`. -/
def chainParts (S : Sectors) (base : Nat) : Nat → Nat → List Partition
  | 0, _ => []
  | n + 1, sec =>
    match S.read sec with
    | none => []
    | some ebr =>
      if endCheck ebr ≠ MBR_CHECK then []
      else (mbrEntry ebr 0).partition (S.add (mbrEntry ebr 0).location sec) ::
        if (mbrEntry ebr 1).fileSystem ≠ 0 then
          chainParts S base n (S.add base (mbrEntry ebr 1).location)
        else []

/-- On the chain from `sec`, a sector without signature comes among the next `n`. -/
def breaksOff (S : Sectors) (base : Nat) : Nat → Nat → Bool
  | 0, _ => false
  | n + 1, sec =>
    match S.read sec with
    | none => false
    | some ebr =>
      if endCheck ebr ≠ MBR_CHECK then true
      else if (mbrEntry ebr 1).fileSystem ≠ 0 then
        breaksOff S base n (S.add base (mbrEntry ebr 1).location)
      else false

/-- The entries of the boot sector as partitions. -/
def primaryParts (mbr : Bytes) : List Partition := (mbrEntries mbr).map fun e => e.partition e.location

/-- The last extended entry. -/
def extendedEntry (es : List MBREntry) : Option MBREntry :=
  (es.filter fun e => e.fileSystem = MAGIC_EXTENDED).getLast?

/-- A boot sector with a signature, that is not the one of a GPT. -/
def HasTable (mbr : Bytes) : Prop := endCheck mbr = MBR_CHECK ∧ (mbrEntry mbr 0).fileSystem ≠ MAGIC_GPT

instance (mbr : Bytes) : Decidable (HasTable mbr) := inferInstanceAs (Decidable (_ ∧ _))

/-- The partitions of a disk in their order. -/
def partitions (disk : Bytes) : List Partition :=
  let mbr := sectorBytes disk 0
  if HasTable mbr then
    primaryParts mbr ++ (extendedEntry (mbrEntries mbr)).elim [] fun e =>
      chainParts (diskSectors disk) e.location (MAX_PARTITIONS - 4) e.location
  else []

/-- The entries that are counted. -/
def HardDisk.entries (hd : HardDisk) : List (Option Partition) := (List.range hd.partCount).map hd.part

/-! ## What is found

The kernel's loop in closed form: the partitions on the chain as it reads it, and behind a sector
without signature the entry it had taken for it. -/

/-- The entries behind the four of the boot sector. -/
def foundParts (disk : Bytes) (hd : HardDisk) (base : Nat) : List (Option Partition) :=
  let parts := chainParts (kernelSectors disk) base (MAX_PARTITIONS - 4) base
  parts.map some ++
    if breaksOff (kernelSectors disk) base (MAX_PARTITIONS - 4) base then [hd.part (4 + parts.length)]
    else []

/-- **The chain.** The loop lists the partitions from `id` on, counts one more when the chain breaks
off, and leaves the entries behind them as they were. Induction on the free entries. -/
theorem readLogical_parts (disk : Bytes) (base n id extSec : Nat) (hd : HardDisk) :
    (readLogical disk base n id extSec hd).2 =
      id + (chainParts (kernelSectors disk) base n extSec).length +
        (breaksOff (kernelSectors disk) base n extSec).toNat ∧
    (∀ k < (chainParts (kernelSectors disk) base n extSec).length,
      (readLogical disk base n id extSec hd).1.part (id + k) =
        (chainParts (kernelSectors disk) base n extSec)[k]?) ∧
    ∀ j, id + (chainParts (kernelSectors disk) base n extSec).length ≤ j →
      (readLogical disk base n id extSec hd).1.part j = hd.part j := by
  induction n generalizing id extSec hd with
  | zero => exact ⟨rfl, fun k hk => absurd hk (Nat.not_lt_zero k), fun _ _ => rfl⟩
  | succ n ih =>
    by_cases hsec : extSec = 0
    · -- the chain has ended
      have hread : (kernelSectors disk).read extSec = none := if_pos hsec
      rw [readLogical, chainParts, breaksOff, if_pos hsec, hread]
      exact ⟨rfl, fun k hk => absurd hk (Nat.not_lt_zero k), fun _ _ => rfl⟩
    have hread : (kernelSectors disk).read extSec = some (readSector disk extSec) := if_neg hsec
    rw [readLogical, chainParts, breaksOff, if_neg hsec, hread]
    dsimp only [kernelSectors_add]
    by_cases hcheck : endCheck (readSector disk extSec) = MBR_CHECK
    · rw [if_neg (not_not.mpr hcheck), if_neg (not_not.mpr hcheck), if_neg (not_not.mpr hcheck)]
      by_cases hlink : (mbrEntry (readSector disk extSec) 1).fileSystem = 0
      · rw [if_neg (not_not.mpr hlink), if_neg (not_not.mpr hlink), if_neg (not_not.mpr hlink)]
        refine ⟨rfl, fun k hk => ?_, fun j hj => ?_⟩
        · -- the last partition of the chain
          obtain rfl : k = 0 := Nat.lt_one_iff.mp hk
          exact HardDisk.setPart_self
        · change id + 1 ≤ j at hj
          exact HardDisk.setPart_of_ne (by omega)
      · rw [if_pos hlink, if_pos hlink, if_pos hlink]
        obtain ⟨hcount, hparts, hafter⟩ := ih (id + 1)
          (add32 base (mbrEntry (readSector disk extSec) 1).location)
          (hd.setPart id (logicalPart (readSector disk extSec) extSec))
        refine ⟨hcount.trans ?_, fun k hk => ?_, fun j hj => ?_⟩
        · rw [List.length_cons]
          omega
        · cases k with
          -- later rounds leave the entries in front alone
          | zero => exact (readLogical_frame.2 id (Nat.lt_succ_self id)).trans HardDisk.setPart_self
          | succ k =>
            have hpart := hparts k (Nat.lt_of_succ_lt_succ hk)
            rw [show id + 1 + k = id + (k + 1) by omega] at hpart
            exact hpart
        · rw [List.length_cons] at hj
          exact (hafter j (by omega)).trans (HardDisk.setPart_of_ne (by omega))
    · -- the entry has been taken, nothing is stored in it
      rw [if_pos hcheck, if_pos hcheck, if_pos hcheck]
      exact ⟨rfl, fun k hk => absurd hk (Nat.not_lt_zero k), fun _ _ => rfl⟩

/-- The first four places are the entries of the boot sector. -/
theorem primaryParts_getElem (hk : k < 4) :
    (primaryParts mbr)[k]? = some ((mbrEntry mbr k).partition (mbrEntry mbr k).location) := by
  unfold primaryParts mbrEntries
  rw [List.getElem?_map, List.getElem?_map, List.getElem?_range' hk, Nat.zero_add, Nat.one_mul]
  rfl

/-- The first loop leaves the places behind it alone. -/
theorem readPrimary_behind (hj : i + n ≤ k) : (readPrimary mbr n i hd extSec).1.part k = hd.part k := by
  induction n generalizing i hd extSec with
  | zero => rfl
  | succ n ih =>
    rw [readPrimary]
    rw [ih (by omega), HardDisk.setPart_of_ne (by omega)]

/-- The kernel starts at the last extended entry, at 0 where there is none. -/
theorem lastExtended_eq : lastExtended es = ((extendedEntry es).map MBREntry.location).getD 0 := by
  unfold lastExtended extendedEntry
  generalize 0 = x
  induction es generalizing x with
  | nil => rfl
  | cons e es ih =>
    rw [List.foldl_cons]
    by_cases he : e.fileSystem = MAGIC_EXTENDED
    · rw [if_pos he, List.filter_cons_of_pos (by simpa using he), List.getLast?_cons, ih]
      cases (es.filter fun e => e.fileSystem = MAGIC_EXTENDED).getLast? <;> rfl
    · rw [if_neg he, List.filter_cons_of_neg (by simpa using he), ih]

/-- A table that holds a list of entries. -/
theorem entries_eq_of_part {l : List (Option Partition)} (hcount : hd.partCount = l.length)
    (hpart : ∀ k < l.length, l[k]? = some (hd.part k)) : hd.entries = l := by
  unfold HardDisk.entries
  refine List.ext_getElem? fun k => ?_
  rw [List.getElem?_map]
  by_cases hk : k < l.length
  · rw [hpart k hk, List.getElem?_range (by omega)]
    rfl
  · rw [List.getElem?_eq_none (by simpa using by omega), List.getElem?_eq_none (by omega)]
    rfl

/-- Both loops together. -/
theorem readLogical_entries (mbr : Bytes) (base : Nat) :
    ((readLogical disk base (MAX_PARTITIONS - 4) 4 base (readPrimary mbr 4 0 hd 0).1).1.setCount
      (readLogical disk base (MAX_PARTITIONS - 4) 4 base (readPrimary mbr 4 0 hd 0).1).2).entries =
        (primaryParts mbr).map some ++ foundParts disk hd base := by
  obtain ⟨hcount, hparts, hafter⟩ := readLogical_parts disk base (MAX_PARTITIONS - 4) 4 base
    (readPrimary mbr 4 0 hd 0).1
  unfold foundParts
  generalize chainParts (kernelSectors disk) base (MAX_PARTITIONS - 4) base = parts at hcount hparts hafter ⊢
  generalize breaksOff (kernelSectors disk) base (MAX_PARTITIONS - 4) base = broken at hcount ⊢
  have hlen : ((primaryParts mbr).map some).length = 4 := rfl
  have htail : (if broken then [hd.part (4 + parts.length)] else []).length = broken.toNat := by
    cases broken <;> rfl
  refine entries_eq_of_part ?_ fun k hk => ?_
  · rw [HardDisk.setCount_partCount, hcount, List.length_append, hlen]
    dsimp only
    rw [List.length_append, List.length_map, htail]
    omega
  · rw [HardDisk.setCount_part]
    dsimp only at hk ⊢
    rw [List.length_append, hlen, List.length_append, List.length_map, htail] at hk
    by_cases hprimary : k < 4
    · -- an entry of the boot sector
      rw [List.getElem?_append_left (by omega), List.getElem?_map, primaryParts_getElem hprimary,
        readLogical_frame.2 k hprimary, readPrimary_part (Nat.zero_le k) (by omega)]
      rfl
    · rw [List.getElem?_append_right (by omega), hlen]
      by_cases hchain : k - 4 < parts.length
      · -- an entry of the chain
        have hpart := hparts (k - 4) hchain
        rw [show 4 + (k - 4) = k by omega] at hpart
        rw [hpart, List.getElem?_append_left (by rwa [List.length_map]), List.getElem?_map,
          List.getElem?_eq_getElem hchain]
        rfl
      · -- the entry taken for the sector at which the chain breaks off
        obtain rfl : broken = true := by
          cases broken with
          | true => rfl
          | false => exact absurd hk (by simp; omega)
        have hlast : k = 4 + parts.length := by
          rw [Bool.toNat_true] at hk
          omega
        subst hlast
        rw [hafter _ (Nat.le_refl _), readPrimary_behind (by omega),
          List.getElem?_append_right (by rw [List.length_map]; omega), List.length_map]
        simp

/-- **What `readPartition` lists.** -/
theorem readPartition_eq : (readPartition disk hd).entries =
    if HasTable (sectorBytes disk 0) then (primaryParts (sectorBytes disk 0)).map some ++
      foundParts disk hd (lastExtended (mbrEntries (sectorBytes disk 0)))
    else if endCheck (sectorBytes disk 0) ≠ MBR_CHECK then hd.entries else [] := by
  have hmbr : readSector disk 0 = sectorBytes disk 0 := rfl
  have hext : (readPrimary (sectorBytes disk 0) 4 0 hd 0).2 =
      lastExtended (mbrEntries (sectorBytes disk 0)) := readPrimary_extSec
  unfold readPartition
  rw [hmbr]
  dsimp only
  rw [hext]
  by_cases hcheck : endCheck (sectorBytes disk 0) = MBR_CHECK
  · rw [if_neg (not_not.mpr hcheck)]
    by_cases hgpt : (mbrEntry (sectorBytes disk 0) 0).fileSystem = MAGIC_GPT
    · rw [if_neg (not_not.mpr hgpt), if_neg fun h => h.2 hgpt, if_neg (not_not.mpr hcheck)]
      rfl
    · rw [if_pos hgpt, if_pos ⟨hcheck, hgpt⟩]
      exact readLogical_entries _ _
  · rw [if_pos hcheck, if_neg fun h => hcheck h.1, if_pos hcheck]

/-! ## `readPartition`

Where every sector of the chain has an address that the kernel can read, the two ways of reading
agree, and what is listed can be compared with what is there. -/

/-- Every sector on the chain from `sec` on, `n` of them at most, has a number that a command can name
and that does not end the loop, and the partition in it starts below `2 ^ 32`. -/
def Addressed (disk : Bytes) (base : Nat) : Nat → Nat → Prop
  | 0, _ => True
  | n + 1, sec =>
    0 < sec ∧ sec < 2 ^ 28 ∧
      (endCheck (sectorBytes disk sec) = MBR_CHECK →
        (mbrEntry (sectorBytes disk sec) 0).location + sec < 2 ^ 32 ∧
          ((mbrEntry (sectorBytes disk sec) 1).fileSystem ≠ 0 →
            Addressed disk base n (base + (mbrEntry (sectorBytes disk sec) 1).location)))

/-- Such a chain the kernel reads as it is on the disk. Induction on its sectors. -/
theorem Addressed.chain (h : Addressed disk base n sec) :
    chainParts (kernelSectors disk) base n sec = chainParts (diskSectors disk) base n sec ∧
      breaksOff (kernelSectors disk) base n sec = breaksOff (diskSectors disk) base n sec := by
  induction n generalizing sec with
  | zero => exact ⟨rfl, rfl⟩
  | succ n ih =>
    obtain ⟨hpos, hlt, hrest⟩ := h
    have hread : (kernelSectors disk).read sec = some (sectorBytes disk sec) := by
      show kernelSector disk sec = _
      unfold kernelSector readSector HDProcess.lba28
      rw [if_neg (by omega), Nat.mod_eq_of_lt hlt]
    rw [chainParts, chainParts, breaksOff, breaksOff, hread, diskSectors_read]
    dsimp only [kernelSectors_add, diskSectors_add]
    by_cases hcheck : endCheck (sectorBytes disk sec) = MBR_CHECK
    · obtain ⟨hstart, hnext⟩ := hrest hcheck
      have hadd : add32 (mbrEntry (sectorBytes disk sec) 0).location sec =
          (mbrEntry (sectorBytes disk sec) 0).location + sec := Nat.mod_eq_of_lt hstart
      simp only [if_neg (not_not.mpr hcheck), hadd]
      by_cases hlink : (mbrEntry (sectorBytes disk sec) 1).fileSystem = 0
      · simp only [if_neg (not_not.mpr hlink), and_self]
      · simp only [if_pos hlink]
        cases n with
        -- the table is full
        | zero => exact ⟨rfl, rfl⟩
        | succ n =>
          have hlink' := hnext hlink
          have hsum : add32 base (mbrEntry (sectorBytes disk sec) 1).location =
              base + (mbrEntry (sectorBytes disk sec) 1).location :=
            Nat.mod_eq_of_lt (hlink'.2.1.trans (by decide))
          obtain ⟨hparts, hbreaks⟩ := ih hlink'
          rw [hsum, hparts, hbreaks]
          exact ⟨rfl, rfl⟩
    · simp only [if_pos hcheck, and_self]

/-- The partitions on the disk behind the boot sector. -/
def diskChain (disk : Bytes) : List Partition :=
  (extendedEntry (mbrEntries (sectorBytes disk 0))).elim [] fun e =>
    chainParts (diskSectors disk) e.location (MAX_PARTITIONS - 4) e.location

theorem partitions_of_hasTable (h : HasTable (sectorBytes disk 0)) :
    partitions disk = primaryParts (sectorBytes disk 0) ++ diskChain disk := if_pos h

theorem partitions_of_not_hasTable (h : ¬ HasTable (sectorBytes disk 0)) : partitions disk = [] := if_neg h

/-- The list is empty if nothing was counted. -/
theorem entries_eq_nil_iff : hd.entries = [] ↔ hd.partCount = 0 := by
  unfold HardDisk.entries
  rw [List.map_eq_nil_iff, List.range_eq_nil]

/-- What the loop finds is what is on the disk; a boot sector without signature finds no entries. -/
structure Found (disk : Bytes) (hd : HardDisk) : Prop where
  count : endCheck (sectorBytes disk 0) ≠ MBR_CHECK → hd.partCount = 0
  chain : HasTable (sectorBytes disk 0) →
    foundParts disk hd (lastExtended (mbrEntries (sectorBytes disk 0))) = (diskChain disk).map some

/-- Nothing is counted but what has been read: a boot sector without signature finds no entries, and
the chain does not break off. -/
structure Intact (disk : Bytes) (hd : HardDisk) : Prop where
  count : endCheck (sectorBytes disk 0) ≠ MBR_CHECK → hd.partCount = 0
  chain : HasTable (sectorBytes disk 0) → ∀ e, extendedEntry (mbrEntries (sectorBytes disk 0)) = some e →
    breaksOff (diskSectors disk) e.location (MAX_PARTITIONS - 4) e.location = false

/-- The sectors of the chain can be read by their numbers. -/
def ChainAddressed (disk : Bytes) : Prop := HasTable (sectorBytes disk 0) →
  ∀ e, extendedEntry (mbrEntries (sectorBytes disk 0)) = some e →
    Addressed disk e.location (MAX_PARTITIONS - 4) e.location

/-- For every disk: the table is right if the loop finds the right partitions. -/
theorem entries_iff_found :
    (readPartition disk hd).entries = (partitions disk).map some ↔ Found disk hd := by
  rw [readPartition_eq]
  by_cases htable : HasTable (sectorBytes disk 0)
  · rw [if_pos htable, partitions_of_hasTable htable, List.map_append, List.append_cancel_left_eq]
    exact ⟨fun h => ⟨fun hnot => absurd htable.1 hnot, fun _ => h⟩, fun h => h.chain htable⟩
  · rw [if_neg htable, partitions_of_not_hasTable htable, List.map_nil]
    split
    · next hcheck =>
      rw [entries_eq_nil_iff]
      exact ⟨fun h => ⟨fun _ => h, fun hnot => absurd hnot htable⟩, fun h => h.count hcheck⟩
    · next hcheck => exact iff_of_true rfl ⟨fun hnot => absurd hnot hcheck, fun hnot => absurd hnot htable⟩

/-- Where the sectors can be read by their numbers, it finds them if the chain does not break off. -/
theorem foundParts_iff (haddr : Addressed disk base (MAX_PARTITIONS - 4) base) :
    foundParts disk hd base =
        (chainParts (diskSectors disk) base (MAX_PARTITIONS - 4) base).map some ↔
      breaksOff (diskSectors disk) base (MAX_PARTITIONS - 4) base = false := by
  obtain ⟨hparts, hbreaks⟩ := haddr.chain
  unfold foundParts
  dsimp only
  rw [hparts, hbreaks]
  cases breaksOff (diskSectors disk) base (MAX_PARTITIONS - 4) base with
  | false => exact iff_of_true (List.append_nil _) rfl
  | true =>
    refine iff_of_false (fun h => ?_) Bool.noConfusion
    have hlen := congrArg List.length h
    simp at hlen

/-- Without an extended entry the loop finds nothing. -/
theorem foundParts_zero : foundParts disk hd 0 = [] := rfl

/-- The list is right exactly for an intact disk. -/
theorem found_iff_intact (haddr : ChainAddressed disk) : Found disk hd ↔ Intact disk hd := by
  have hchain : HasTable (sectorBytes disk 0) →
      (foundParts disk hd (lastExtended (mbrEntries (sectorBytes disk 0))) = (diskChain disk).map some ↔
        ∀ e, extendedEntry (mbrEntries (sectorBytes disk 0)) = some e →
          breaksOff (diskSectors disk) e.location (MAX_PARTITIONS - 4) e.location = false) := by
    intro htable
    have haddr := haddr htable
    rw [lastExtended_eq]
    unfold diskChain
    cases hext : extendedEntry (mbrEntries (sectorBytes disk 0)) with
    | none => exact iff_of_true foundParts_zero nofun
    | some e =>
      refine (foundParts_iff (haddr e hext)).trans ⟨fun h e' he' => ?_, fun h => h e rfl⟩
      rwa [← Option.some.inj he']
  exact ⟨fun h => ⟨h.count, fun htable => (hchain htable).mp (h.chain htable)⟩,
    fun h => ⟨h.count, fun htable => (hchain htable).mpr (h.chain htable)⟩⟩

/-- **The partition table** holds the partitions of the disk, and nothing else, if what the loop finds
is on the disk, and only then. Where every sector on the chain has a number below `2 ^ 28` that is not
0, this is when the chain does not break off and a disk without a boot sector finds no entries. -/
theorem readPartition_entries :
    ((readPartition disk hd).entries = (partitions disk).map some ↔ Found disk hd) ∧
    (ChainAddressed disk →
      ((readPartition disk hd).entries = (partitions disk).map some ↔ Intact disk hd)) :=
  ⟨entries_iff_found, fun haddr => entries_iff_found.trans (found_iff_intact haddr)⟩

/-- A disk with one logical partition, in an extended one from sector 1 on. -/
def linkedDisk : Bytes := fun i =>
  if i = 450 then 5 else if i = 454 then 1 else if i = 510 then 0x55 else if i = 511 then 0xAA
  else if i = 962 then 0x6E else if i = 966 then 1 else if i = 970 then 9
  else if i = 1022 then 0x55 else if i = 1023 then 0xAA else 0

/-- A table that has been used before. -/
def usedTable : HardDisk := ⟨0, 0, 7, fun _ => some ⟨1, 2, 3⟩, fun _ _ => rfl⟩

/-- The sector to which an entry refers. -/
theorem location_of_map {n : Nat} {e : MBREntry} {o : Option MBREntry}
    (hmap : o.map MBREntry.location = some n) (he : o = some e) : e.location = n := by
  rw [he] at hmap
  exact Option.some.inj hmap

/-- Its five partitions are listed, whatever was in the table. -/
theorem readPartition_entries_linked : ChainAddressed linkedDisk ∧
    (readPartition linkedDisk usedTable).entries = (partitions linkedDisk).map some := by
  have hsec : (extendedEntry (mbrEntries (sectorBytes linkedDisk 0))).map MBREntry.location = some 1 := by
    decide +kernel
  have haddr : ChainAddressed linkedDisk := by
    intro _ e he
    rw [location_of_map hsec he]
    exact ⟨by decide, by decide, fun _ => ⟨by decide +kernel, fun hlink => absurd hlink (by decide +kernel)⟩⟩
  have hintact : Intact linkedDisk usedTable := by
    refine ⟨fun hnot => absurd hnot (by decide +kernel), fun _ e he => ?_⟩
    rw [location_of_map hsec he]
    decide +kernel
  exact ⟨haddr, (readPartition_entries.2 haddr).mpr hintact⟩

/-- A disk with an extended partition from sector 1 on, which holds nothing. -/
def brokenDisk : Bytes := fun i =>
  if i = 450 then 5 else if i = 454 then 1 else if i = 510 then 0x55 else if i = 511 then 0xAA else 0

/-- A disk with an extended partition from sector `2 ^ 28 + 1` on. Sector 1 has a signature too. -/
def farDisk : Bytes := fun i =>
  if i = 450 then 5 else if i = 454 then 1 else if i = 457 then 0x10
  else if i = 510 then 0x55 else if i = 511 then 0xAA
  else if i = 962 then 7 else if i = 1022 then 0x55 else if i = 1023 then 0xAA
  else if i = 512 * (2 ^ 28 + 1) + 450 then 0x6E
  else if i = 512 * (2 ^ 28 + 1) + 510 then 0x55
  else if i = 512 * (2 ^ 28 + 1) + 511 then 0xAA else 0

/-- What was in the table is counted, both behind the broken chain and when there is no boot sector; and
of a sector behind `2 ^ 28` another one is read. -/
theorem not_entries_broken :
    (readPartition brokenDisk usedTable).entries ≠ (partitions brokenDisk).map some ∧
    (readPartition (fun _ => 0) usedTable).entries ≠ (partitions fun _ => 0).map some ∧
    (readPartition farDisk usedTable).entries ≠ (partitions farDisk).map some := by
  refine ⟨fun h => ?_, fun h => ?_, fun h => ?_⟩
  · have hlen := congrArg List.length h
    exact absurd hlen (by decide +kernel)
  · have hlen := congrArg List.length h
    exact absurd hlen (by decide +kernel)
  · -- the fifth entry has the type that sector 1 gives
    have htype := congrArg (List.map (Option.map Partition.type)) h
    exact absurd htype (by decide +kernel)

end NorlitOS
