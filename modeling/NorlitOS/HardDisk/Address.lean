import NorlitOS.HardDisk.Confine

/-!
# From a block of the file system to a sector of the disk

A block is four sectors: the file system sends `block * 4`, the driver adds the start of the
partition and spreads the sum over the address registers of the device, 4 bits and three times 8.
-/

namespace NorlitOS

/-- `HDCommand`. The driver leaves `feature` as it is. -/
structure HDCommand where
  device : Nat
  count : Nat
  lbaLow : Nat
  lbaMid : Nat
  lbaHigh : Nat
  command : Nat

def MASTER : Nat := 0xA0

def LBA : Nat := 0b1000000

def ATA_READ : Nat := 0x20

def ATA_WRITE : Nat := 0x30

/-- The command that `readSectors` builds with `ATA_READ` and `writeSectors` with `ATA_WRITE`. -/
def sectorCommand (ata lba count : Nat) : HDCommand where
  command := ata
  count := count % 256
  device := MASTER ||| LBA ||| (lba / 2 ^ 24 % 16)
  lbaLow := lba % 256
  lbaMid := lba / 2 ^ 8 % 256
  lbaHigh := lba / 2 ^ 16 % 256

/-- The sector the registers address. -/
def HDCommand.sector (cmd : HDCommand) : Nat :=
  cmd.device % 16 * 2 ^ 24 + cmd.lbaHigh * 2 ^ 16 + cmd.lbaMid * 2 ^ 8 + cmd.lbaLow

/-- The message of `norlitfs_bottom` for a block; `block * 4` is a `u32`. -/
def blockRequest (command handle block : Nat) (data : Bytes) : FileMessage :=
  ⟨COMMAND_HD, command, handle, block * 4 % 2 ^ 32, 4, data⟩

namespace HDProcess

variable {d : HDProcess} {p : Partition} {msg : FileMessage} {data : Bytes} {a : Access}
  {ata command lba count handle proc b : Nat}

/-! ## The registers -/

/-- `MASTER` and `LBA` leave the low nibble to the address. -/
theorem device_low {x : Nat} (hx : x < 16) : (MASTER ||| LBA ||| x) % 16 = x := by
  -- the upper bits do not reach into the low nibble
  have h := Nat.or_mod_two_pow (a := MASTER ||| LBA) (b := x) (n := 4)
  rw [show (2 : Nat) ^ 4 = 16 by rfl] at h
  rw [h, show (MASTER ||| LBA) % 16 = 0 by decide, Nat.zero_or, Nat.mod_eq_of_lt hx]

/-- The registers hold the low 28 bits. -/
theorem sector_sectorCommand : (sectorCommand ata lba count).sector = lba28 lba := by
  unfold HDCommand.sector sectorCommand lba28
  dsimp only
  rw [device_low (Nat.mod_lt _ (by decide))]
  omega

/-- The accesses of a transfer start at the sector in the registers. -/
theorem transfer_registers (ata : Nat) {base : Nat} (hbase : d.base msg.handle = some base) :
    (d.transfer proc msg).1 = (List.range (moved msg.count)).map fun k =>
      ⟨(sectorCommand ata (add32 msg.offset base) msg.count).sector + k, SECTOR_SIZE * k⟩ := by
  rw [transfer_accesses hbase, sector_sectorCommand]

/-! ## Blocks -/

/-- Block `b` lies in the partition. -/
def HasBlock (p : Partition) (b : Nat) : Prop := 4 * b + 4 ≤ p.size

/-- The sector in the registers of the command `ata` for block `b` of `p`. -/
def registerSector (ata : Nat) (p : Partition) (b : Nat) : Nat :=
  (sectorCommand ata (add32 (b * 4 % 2 ^ 32) p.start) 4).sector

/-- Neither the product nor the sum leaves 32 bits; the registers cut off the upper four. -/
theorem registerSector_eq (hdisk : p.start + p.size ≤ 2 ^ 32) (hb : HasBlock p b) :
    registerSector ata p b = (p.start + 4 * b) % 2 ^ 28 := by
  unfold registerSector
  unfold HasBlock at hb
  rw [sector_sectorCommand, Nat.mod_eq_of_lt (by omega), add32_of_lt (by omega), lba28]
  congr 1
  omega

theorem registerSector_eq_iff (hdisk : p.start + p.size ≤ 2 ^ 32) (hb : HasBlock p b) :
    registerSector ata p b = p.start + 4 * b ↔ p.start + 4 * b < 2 ^ 28 := by
  rw [registerSector_eq hdisk hb]
  omega

/-- A request for a block touches the four sectors from the one in the registers on. -/
theorem mem_serve_block (hpos : 1 ≤ handle) (hlt : handle < 2 ^ 32)
    (hp : d.hd.part (handle - 1) = some p) (hcommand : command = HD_READ ∨ command = HD_WRITE)
    (ha : a ∈ (d.serve proc (blockRequest command handle b data)).1) :
    ∃ k < 4, a.sector = registerSector ATA_READ p b + k := by
  have ht : Transfers (blockRequest command handle b data) := hcommand
  rw [serve_transfers rfl ht, transfer_registers ATA_READ (base_of_part hpos hlt hp)] at ha
  obtain ⟨k, hk, rfl⟩ := List.mem_map.mp ha
  exact ⟨k, List.mem_range.mp hk, rfl⟩

/-- **Blocks and sectors.** For a block of a partition with 32-bit sector numbers the registers
address the low 28 bits of the block's sector, so the sector itself if it is one of the first
`2 ^ 28`. Requests for two blocks among these never touch the same sector. -/
theorem block_address (hdisk : p.start + p.size ≤ 2 ^ 32) :
    (∀ ata b, HasBlock p b → registerSector ata p b = (p.start + 4 * b) % 2 ^ 28 ∧
      (registerSector ata p b = p.start + 4 * b ↔ p.start + 4 * b < 2 ^ 28)) ∧
    ∀ (d : HDProcess) (handle : Nat), 1 ≤ handle → handle < 2 ^ 32 →
      d.hd.part (handle - 1) = some p → ∀ b b', HasBlock p b → HasBlock p b' →
      p.start + 4 * b + 4 ≤ 2 ^ 28 → p.start + 4 * b' + 4 ≤ 2 ^ 28 → b ≠ b' →
      ∀ command command' proc proc' data data', command = HD_READ ∨ command = HD_WRITE →
        command' = HD_READ ∨ command' = HD_WRITE →
        ∀ a ∈ (d.serve proc (blockRequest command handle b data)).1,
        ∀ a' ∈ (d.serve proc' (blockRequest command' handle b' data')).1, a.sector ≠ a'.sector := by
  refine ⟨fun ata b hb => ⟨registerSector_eq hdisk hb, registerSector_eq_iff hdisk hb⟩, ?_⟩
  intro d handle hpos hlt hp b b' hb hb' hlow hlow' hne command command' proc proc' data data' hc hc'
    a ha a' ha'
  obtain ⟨k, hk, hsector⟩ := mem_serve_block hpos hlt hp hc ha
  obtain ⟨k', hk', hsector'⟩ := mem_serve_block hpos hlt hp hc' ha'
  -- both at their true places, which are four sectors apart
  rw [(registerSector_eq_iff hdisk hb).mpr (by omega)] at hsector
  rw [(registerSector_eq_iff hdisk hb').mpr (by omega)] at hsector'
  omega

/-- A partition that ends with the disk. -/
theorem block_address_last : registerSector ATA_WRITE ⟨0x6E, 2 ^ 28 - 8, 8⟩ 1 = 2 ^ 28 - 4 :=
  (((block_address (p := ⟨0x6E, 2 ^ 28 - 8, 8⟩) (by decide)).1 ATA_WRITE 1
    (by unfold HasBlock; decide)).2).mpr (by decide)

/-- Behind the first `2 ^ 28` sectors the device is given another sector: here sector 0. -/
theorem not_exact_beyond : ¬ ∀ (p : Partition) (b : Nat), p.start + p.size ≤ 2 ^ 32 →
    HasBlock p b → registerSector ATA_WRITE p b = p.start + 4 * b := by
  intro hall
  have h := hall ⟨0x6E, 2 ^ 28, 4⟩ 0 (by decide) (by unfold HasBlock; decide)
  exact absurd h (by decide)

end HDProcess

end NorlitOS
