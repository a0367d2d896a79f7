import NorlitOS.HardDisk.Partitions

/-!
# The boot sector's search (`hdboot.asm`)

The boot sector looks at its four entries in order. It starts the first partition of NorlitOS, but
the first extended partition in front of one takes it to the chain of that partition for good. The
kernel looks at all four entries first and follows the chain of the last extended partition. So the
two find one partition if the disk has one extended partition behind which no entry is for NorlitOS,
with links that both follow; in general they agree as far as their chains do.
-/

namespace NorlitOS

/-- Where the search has come to. -/
inductive Jump where
  /-- `jmp start` with the partition in `eax`. -/
  | start (lba : Nat)
  /-- `hlt`. -/
  | halt
  /-- Still on the chain. -/
  | running
  deriving DecidableEq

/-- The loop `.0` of `extended`, for `fuel` sectors. -/
def extended (disk : Bytes) (base : Nat) : Nat → Nat → Jump
  | 0, _ => .running
  | fuel + 1, sec =>
    let ebr := sectorBytes disk sec
    if (mbrEntry ebr 0).fileSystem = MAGIC_NORLIT then .start (add32 (mbrEntry ebr 0).location sec)
    else if (mbrEntry ebr 1).fileSystem = MAGIC_EXTENDED then
      extended disk base fuel (add32 base (mbrEntry ebr 1).location)
    else .halt

/-- The comparisons of `LABEL_START`. -/
def bootEntries (disk : Bytes) (fuel : Nat) : List MBREntry → Jump
  | [] => .halt
  | e :: es =>
    if e.fileSystem = MAGIC_NORLIT then .start e.location
    else if e.fileSystem = MAGIC_EXTENDED then extended disk e.location fuel e.location
    else bootEntries disk fuel es

/-- The search of the boot sector. -/
def boot (disk : Bytes) (fuel : Nat) : Jump := bootEntries disk fuel (mbrEntries (sectorBytes disk 0))

/-- The boot sector starts the partition at `lba`. -/
def Boots (disk : Bytes) (lba : Nat) : Prop := ∃ fuel, boot disk fuel = .start lba

variable {disk : Bytes} {hd : HardDisk} {es : List MBREntry} {base sec lba : Nat}

/-! ## The chain of the boot sector

Once the boot sector follows an extended partition it looks at the first two entries of each
sector only. The base of the second entry is the extended partition, in `u32`. -/

/-- The BIOS reads any sector. -/
def bootSector (disk : Bytes) (sec : Nat) : Option Bytes := some (sectorBytes disk sec)

/-- The chain as the boot sector follows it. -/
def BootChain (disk : Bytes) (base : Nat) : Nat → Nat → Prop :=
  EBRChain (bootSector disk) (fun link => link = MAGIC_EXTENDED) base

/-- The chain as the kernel follows it. -/
def KernelChain (disk : Bytes) (base : Nat) : Nat → Nat → Prop :=
  EBRChain (kernelSector disk) (fun link => link ≠ 0) base

/-- One sector of the chain. -/
theorem bootChain_iff : BootChain disk base sec lba ↔
    if (mbrEntry (sectorBytes disk sec) 0).fileSystem = MAGIC_NORLIT then
      add32 (mbrEntry (sectorBytes disk sec) 0).location sec = lba
    else (mbrEntry (sectorBytes disk sec) 1).fileSystem = MAGIC_EXTENDED ∧
      BootChain disk base (add32 base (mbrEntry (sectorBytes disk sec) 1).location) lba :=
  ebrChain_iff rfl

/-- The loop comes to the partition of the chain. Induction on the fuel, and on the chain. -/
theorem extended_iff : (∃ fuel, extended disk base fuel sec = .start lba) ↔
    BootChain disk base sec lba := by
  constructor
  · intro h
    obtain ⟨fuel, hfuel⟩ := h
    induction fuel generalizing sec with
    | zero => exact nomatch hfuel
    | succ fuel ih =>
      rw [bootChain_iff]
      rw [extended] at hfuel
      split at hfuel
      · rw [if_pos ‹_›]
        exact Jump.start.inj hfuel
      · rw [if_neg ‹_›]
        split at hfuel
        · exact ⟨‹_›, ih hfuel⟩
        · exact nomatch hfuel
  · intro h
    induction h with
    | here hread hnorlit =>
      obtain rfl := Option.some.inj hread
      -- each link of the chain is one more round
      exact ⟨1, if_pos hnorlit⟩
    | next hread hnorlit hvalid _ ih =>
      obtain rfl := Option.some.inj hread
      obtain ⟨fuel, hfuel⟩ := ih
      refine ⟨fuel + 1, ?_⟩
      rw [extended, if_neg hnorlit, if_pos hvalid]
      exact hfuel

/-- The entry at which the comparisons end. -/
def bootChoice (es : List MBREntry) : Option MBREntry :=
  es.find? fun e => e.fileSystem = MAGIC_NORLIT ∨ e.fileSystem = MAGIC_EXTENDED

/-- The entry that decides is the first one that is extended or of NorlitOS. -/
theorem bootEntries_eq (fuel : Nat) : bootEntries disk fuel es =
    match bootChoice es with
    | none => .halt
    | some e =>
      if e.fileSystem = MAGIC_NORLIT then .start e.location
      else extended disk e.location fuel e.location := by
  induction es with
  | nil => rfl
  | cons e es ih =>
    unfold bootChoice
    rw [bootEntries]
    split
    · rw [List.find?_cons_of_pos (by simpa using Or.inl ‹_›)]
      exact (if_pos ‹_›).symm
    · split
      · rw [List.find?_cons_of_pos (by simpa using Or.inr ‹_›)]
        exact (if_neg ‹_›).symm
      · rw [List.find?_cons_of_neg (by simpa using ⟨‹_›, ‹_›⟩), ih]
        rfl

/-- **What the boot sector starts.** -/
theorem boots_iff : Boots disk lba ↔
    match bootChoice (mbrEntries (sectorBytes disk 0)) with
    | none => False
    | some e =>
      if e.fileSystem = MAGIC_NORLIT then e.location = lba
      else BootChain disk e.location e.location lba := by
  unfold Boots boot
  simp only [bootEntries_eq]
  cases bootChoice (mbrEntries (sectorBytes disk 0)) with
  | none => simp
  | some e =>
    dsimp only
    split
    · simp
    · exact extended_iff

/-! ## Agreement

The kernel follows the chain of the last extended entry and the boot sector that of the first.
`Coherent` is when this makes no difference. -/

/-- The boot sector's partition is the kernel's, and where the kernel finds one, so does the boot
sector. -/
def Agree (disk : Bytes) (hd : HardDisk) : Prop :=
  (∀ lba, Boots disk lba → kernelStart (readPartition disk hd) = some lba) ∧
    ∀ lba, kernelStart (readPartition disk hd) = some lba → ∃ lba', Boots disk lba'

/-- The first entry of type 0x6E or 5 decides, if there is one. If it is of type 0x6E, there must be
no GPT. If it is of type 5, the chain from it must lead to the first entry of type 0x6E; if there is
none, to the same partition as the chain of the last entry of type 5 leads the kernel to; and with a
GPT, to no partition at all. -/
def Coherent (disk : Bytes) : Prop :=
  match bootChoice (mbrEntries (sectorBytes disk 0)) with
  | none => True
  | some e =>
    if e.fileSystem = MAGIC_NORLIT then
      (mbrEntry (sectorBytes disk 0) 0).fileSystem ≠ MAGIC_GPT
    else if (mbrEntry (sectorBytes disk 0) 0).fileSystem = MAGIC_GPT then
      ∀ lba, ¬ BootChain disk e.location e.location lba
    else
      match firstNorlit (mbrEntries (sectorBytes disk 0)) with
      | some f => BootChain disk e.location e.location f.location
      | none => ∀ lba, BootChain disk e.location e.location lba ↔
          KernelChain disk (lastExtended (mbrEntries (sectorBytes disk 0)))
            (lastExtended (mbrEntries (sectorBytes disk 0))) lba

/-- The boot sector starts one partition at most. -/
theorem Boots.unique {lba' : Nat} (h : Boots disk lba) (h' : Boots disk lba') : lba = lba' := by
  rw [boots_iff] at h h'
  cases hc : bootChoice (mbrEntries (sectorBytes disk 0)) with
  | none =>
    rw [hc] at h
    exact h.elim
  | some e =>
    rw [hc] at h h'
    dsimp only at h h'
    split at h
    · rw [if_pos ‹_›] at h'
      exact h.symm.trans h'
    · rw [if_neg ‹_›] at h'
      exact EBRChain.unique h h'

/-- Both find one partition or none. -/
theorem agree_iff : Agree disk hd ↔
    ∀ lba, Boots disk lba ↔ kernelStart (readPartition disk hd) = some lba := by
  constructor
  · intro h lba
    refine ⟨h.1 lba, fun hkernel => ?_⟩
    obtain ⟨lba', hboots⟩ := h.2 lba hkernel
    obtain rfl : lba' = lba := Option.some.inj ((h.1 lba' hboots).symm.trans hkernel)
    exact hboots
  · intro h
    exact ⟨fun lba => (h lba).mp, fun lba hkernel => ⟨lba, (h lba).mpr hkernel⟩⟩

/-- Without such an entry there is no partition of NorlitOS in the table. -/
theorem firstNorlit_of_choice_none (h : bootChoice es = none) : firstNorlit es = none := by
  have hnone := List.find?_eq_none.mp h
  refine List.find?_eq_none.mpr fun e he hn => ?_
  have hor := hnone e he
  simp only [decide_eq_true_eq] at hor hn
  exact hor (Or.inl hn)

/-- Nor is there a chain. -/
theorem lastExtended_of_choice_none (h : bootChoice es = none) : lastExtended es = 0 := by
  have hnone := List.find?_eq_none.mp h
  clear h
  unfold lastExtended
  induction es with
  | nil => rfl
  | cons e es ih =>
    have he := hnone e List.mem_cons_self
    simp only [decide_eq_true_eq] at he
    rw [List.foldl_cons, if_neg fun hext => he (Or.inr hext)]
    exact ih fun e' he' => hnone e' (List.mem_cons_of_mem e he')

/-- If the entry is of NorlitOS, it is the kernel's too. -/
theorem firstNorlit_of_choice {e : MBREntry} (h : bootChoice es = some e)
    (hn : e.fileSystem = MAGIC_NORLIT) : firstNorlit es = some e := by
  unfold bootChoice at h
  unfold firstNorlit
  induction es with
  | nil => exact nomatch h
  | cons e' es ih =>
    rw [List.find?_cons] at h ⊢
    split at h
    · obtain rfl := Option.some.inj h
      rw [decide_eq_true hn]
    · rename_i hfirst
      have hno : e'.fileSystem ≠ MAGIC_NORLIT := by
        intro hn'
        exact (decide_eq_false_iff_not.mp hfirst) (Or.inl hn')
      rw [decide_eq_false hno]
      exact ih h

/-- **Boot loader and kernel** agree on their partition if and only if the disk is coherent. -/
theorem agree_iff_coherent (hsigned : Signed disk)
    (hcount : (readPartition disk hd).partCount < MAX_PARTITIONS) :
    Agree disk hd ↔ Coherent disk := by
  rw [agree_iff]
  unfold Coherent
  simp only [boots_iff, kernelStart_iff hsigned hcount]
  cases hchoice : bootChoice (mbrEntries (sectorBytes disk 0)) with
  | none =>
    -- the boot loader finds nothing to start from, and so does the kernel
    rw [firstNorlit_of_choice_none hchoice, lastExtended_of_choice_none hchoice]
    refine iff_of_true (fun lba => iff_of_false (fun h => h) fun h => ?_) trivial
    exact not_ebrChain (if_pos rfl) h.2
  | some e =>
    dsimp only
    by_cases hn : e.fileSystem = MAGIC_NORLIT
    · -- both take the entry
      simp only [if_pos hn, firstNorlit_of_choice hchoice hn]
      constructor
      · intro h
        exact ((h e.location).mp rfl).1
      · intro hgpt lba
        rw [and_iff_right hgpt]
    · simp only [if_neg hn]
      -- the boot loader follows the chain; on a GPT disk the kernel has no partition at all
      by_cases hgpt : (mbrEntry (sectorBytes disk 0) 0).fileSystem = MAGIC_GPT
      · rw [if_pos hgpt]
        simp only [hgpt, ne_eq, not_true_eq_false, false_and, iff_false]
      · rw [if_neg hgpt]
        simp only [hgpt, ne_eq, not_false_eq_true, true_and]
        cases firstNorlit (mbrEntries (sectorBytes disk 0)) with
        | some f =>
          constructor
          · intro h
            exact (h f.location).mpr rfl
          · intro h lba
            constructor
            · intro h'
              -- a chain leads to one partition at most
              exact EBRChain.unique h h'
            · intro heq
              rwa [← heq]
        | none => exact Iff.rfl

/-! ## Disks as they are partitioned

Partitioning programs write one extended entry at most, and chains whose second entries are
extended or empty. On such disks the two searches agree. -/

/-- The sectors on the chain of an extended partition. -/
inductive Linked (disk : Bytes) (base : Nat) : Nat → Prop where
  | first : Linked disk base base
  | next {sec : Nat} (h : Linked disk base sec)
      (hlink : (mbrEntry (sectorBytes disk sec) 1).fileSystem ≠ 0) :
      Linked disk base (add32 base (mbrEntry (sectorBytes disk sec) 1).location)

/-- A chain of sectors with addresses of 28 bits, none of them 0, and links of type 5. -/
def RegularChain (disk : Bytes) (base : Nat) : Prop :=
  ∀ sec, Linked disk base sec → 0 < sec ∧ sec < 2 ^ 28 ∧
    ((mbrEntry (sectorBytes disk sec) 1).fileSystem = 0 ∨
      (mbrEntry (sectorBytes disk sec) 1).fileSystem = MAGIC_EXTENDED)

/-- A disk without a GPT, where behind the first extended partition there is neither another one nor
one of NorlitOS, and with a regular chain. -/
structure Regular (disk : Bytes) : Prop where
  noGPT : (mbrEntry (sectorBytes disk 0) 0).fileSystem ≠ MAGIC_GPT
  chain : ∀ e, bootChoice (mbrEntries (sectorBytes disk 0)) = some e →
    e.fileSystem ≠ MAGIC_NORLIT → firstNorlit (mbrEntries (sectorBytes disk 0)) = none ∧
      lastExtended (mbrEntries (sectorBytes disk 0)) = e.location ∧ RegularChain disk e.location

section RegularChain

variable (hR : RegularChain disk base) (hL : Linked disk base sec)

include hR hL

/-- The kernel can read the sectors of such a chain. -/
theorem RegularChain.kernelSector : kernelSector disk sec = some (sectorBytes disk sec) := by
  obtain ⟨hpos, hlt, -⟩ := hR sec hL
  unfold NorlitOS.kernelSector readSector HDProcess.lba28
  rw [if_neg hpos.ne', Nat.mod_eq_of_lt hlt]

/-- Its second entries are extended or empty. -/
theorem RegularChain.link_iff : (mbrEntry (sectorBytes disk sec) 1).fileSystem = MAGIC_EXTENDED ↔
    (mbrEntry (sectorBytes disk sec) 1).fileSystem ≠ 0 := by
  obtain ⟨-, -, hzero | hext⟩ := hR sec hL
  · rw [hzero]
    decide
  · rw [hext]
    decide

/-- Both follow a regular chain to the same partition. -/
theorem RegularChain.boot_iff_kernel : BootChain disk base sec lba ↔ KernelChain disk base sec lba := by
  constructor
  · intro h
    induction h with
    | here hread hnorlit =>
      obtain rfl := Option.some.inj hread
      exact .here (hR.kernelSector hL) hnorlit
    | next hread hnorlit hvalid _ ih =>
      obtain rfl := Option.some.inj hread
      have hlink := (hR.link_iff hL).mp hvalid
      exact .next (hR.kernelSector hL) hnorlit hlink (ih (hL.next hlink))
  · intro h
    induction h with
    | here hread hnorlit =>
      obtain rfl := Option.some.inj ((hR.kernelSector hL).symm.trans hread)
      exact .here rfl hnorlit
    | next hread hnorlit hvalid _ ih =>
      obtain rfl := Option.some.inj ((hR.kernelSector hL).symm.trans hread)
      exact .next rfl hnorlit ((hR.link_iff hL).mpr hvalid) (ih (hL.next hvalid))

end RegularChain

/-- A regular disk is coherent. -/
theorem Regular.coherent (h : Regular disk) : Coherent disk := by
  unfold Coherent
  cases hchoice : bootChoice (mbrEntries (sectorBytes disk 0)) with
  | none => trivial
  | some e =>
    dsimp only
    split
    · exact h.noGPT
    · obtain ⟨hnone, hlast, hR⟩ := h.chain e hchoice ‹_›
      rw [if_neg h.noGPT, hnone, hlast]
      exact fun lba => hR.boot_iff_kernel .first

/-- A disk with the signature in every sector. -/
def signedDisk (bytes : Bytes) : Bytes := fun i =>
  if i % 512 = 510 then 0x55 else if i % 512 = 511 then 0xAA else bytes i

/-- The disk carries the signature. -/
theorem signedDisk_signed (bytes : Bytes) : Signed (signedDisk bytes) := by
  intro lba
  unfold endCheck sectorBytes signedDisk SECTOR_SIZE
  rw [if_pos (by omega), if_neg (by omega), if_pos (by omega)]
  decide

/-- An empty table. -/
def noPartitions : HardDisk := ⟨0, 0, 0, fun _ => some ⟨0, 0, 0⟩, fun _ _ => rfl⟩

/-- A disk with one partition of NorlitOS, from sector 100 on. -/
def norlitDisk : Bytes := signedDisk fun i => if i = 450 then 0x6E else if i = 454 then 100 else 0

/-- A disk with one partition of NorlitOS. -/
theorem agree_iff_coherent_norlit : Agree norlitDisk noPartitions ↔ Coherent norlitDisk :=
  agree_iff_coherent (signedDisk_signed _) (by decide)

/-- An extended partition from sector 100 on, and behind it a partition of NorlitOS from sector 200
on, which the boot sector does not come to. -/
def extendedDisk : Bytes := signedDisk fun i =>
  if i = 450 then 5 else if i = 454 then 100 else if i = 466 then 0x6E else if i = 470 then 200 else 0

/-- A disk on which they disagree: the boot sector follows an extended entry that the kernel's
chain does not contain. -/
theorem not_agree_extended : Signed extendedDisk ∧
    (readPartition extendedDisk noPartitions).partCount < MAX_PARTITIONS ∧
      ¬ Agree extendedDisk noPartitions := by
  refine ⟨signedDisk_signed _, by decide, fun h => ?_⟩
  obtain ⟨lba, fuel, hfuel⟩ := h.2 200 (by decide)
  cases fuel with
  | zero =>
    have hrunning : boot extendedDisk 0 = .running := by decide
    exact nomatch hrunning.symm.trans hfuel
  | succ fuel =>
    -- the first sector of the extended partition is empty
    have hhalt : boot extendedDisk (fuel + 1) = .halt := rfl
    exact nomatch hhalt.symm.trans hfuel

end NorlitOS
