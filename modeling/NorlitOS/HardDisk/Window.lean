import NorlitOS.HardDisk.Replies

/-!
# The partition of the file system

`NorlitFS.fileRead` and `NorlitFS.fileWrite` stand for a request to the hard-disk process and its
answer. Here they are that: for a partition that the address of a command can reach, and for sectors
inside it, the process answers with what `fileRead` leaves in the page, and leaves on the disk what
`fileWrite` leaves there.
-/

namespace NorlitOS

namespace HDProcess

variable {d d' : HDProcess} {p : Partition} {fs : NorlitFS} {lba n count offset handle proc k : Nat}
  {data : Bytes}

/-! ## The sectors in one piece

The loop over the sectors copies what one long copy would. -/

theorem readSectors_eq (hcount : k + count ≤ min n MAPPED_SECTORS) :
    (sectors (fun k => d.readPort (lba + k) k) lba n count k data).2 =
      .ok (d.disk.copy (SECTOR_SIZE * (lba + k)) data (SECTOR_SIZE * k) (SECTOR_SIZE * count)) := by
  induction count generalizing k data with
  | zero =>
    rw [Nat.mul_zero, Bytes.copy_zero]
    rfl
  | succ count ih =>
    rw [sectors, if_neg (by omega), if_neg (by omega)]
    dsimp only
    rw [ih (by omega)]
    unfold readPort
    -- one sector, and behind it the others
    rw [show SECTOR_SIZE * (lba + (k + 1)) = SECTOR_SIZE * (lba + k) + SECTOR_SIZE by ring,
      show SECTOR_SIZE * (k + 1) = SECTOR_SIZE * k + SECTOR_SIZE by ring, Bytes.copy_append,
      show SECTOR_SIZE * (count + 1) = SECTOR_SIZE + SECTOR_SIZE * count by ring]

theorem writeSectors_eq (hcount : k + count ≤ min n MAPPED_SECTORS) :
    (sectors (fun k => writePort data (lba + k) k) lba n count k d).2 = .ok ⟨d.hd,
      data.copy (SECTOR_SIZE * k) d.disk (SECTOR_SIZE * (lba + k)) (SECTOR_SIZE * count)⟩ := by
  induction count generalizing k d with
  | zero =>
    rw [Nat.mul_zero, Bytes.copy_zero]
    rfl
  | succ count ih =>
    rw [sectors, if_neg (by omega), if_neg (by omega)]
    dsimp only
    rw [ih (by omega)]
    unfold writePort
    rw [show SECTOR_SIZE * (lba + (k + 1)) = SECTOR_SIZE * (lba + k) + SECTOR_SIZE by ring,
      show SECTOR_SIZE * (k + 1) = SECTOR_SIZE * k + SECTOR_SIZE by ring, Bytes.copy_append,
      show SECTOR_SIZE * (count + 1) = SECTOR_SIZE + SECTOR_SIZE * count by ring]

/-! ## Requests of the file system

The sectors of the partition are sectors of the disk, moved by its start. A request inside the
partition does on the disk what the file system expects on its own. -/

/-- The disk of `fs` is the partition `p`. -/
def Window (d : HDProcess) (p : Partition) (fs : NorlitFS) : Prop :=
  ∀ i < SECTOR_SIZE * p.size, fs.disk i = d.disk (SECTOR_SIZE * p.start + i)

/-- The partition behind a handle, and sectors of it that fit the data of a message. -/
structure Reaches (d : HDProcess) (handle : Nat) (p : Partition) (offset count : Nat) : Prop where
  pos : 1 ≤ handle
  lt : handle < 2 ^ 32
  part : d.hd.part (handle - 1) = some p
  addressed : p.start + p.size ≤ 2 ^ 28
  inside : offset + count ≤ p.size
  few : count ≤ 4

section Reaches

variable (hR : d.Reaches handle p offset count) (hwin : Window d p fs)

include hR

theorem Reaches.base : d.base handle = some p.start := base_of_part hR.pos hR.lt hR.part

theorem Reaches.address (hpos : 0 < count) : lba28 (add32 offset p.start) = p.start + offset := by
  have haddressed := hR.addressed
  have hinside := hR.inside
  unfold lba28
  -- the sum stays below `2 ^ 28`, so nothing is cut off
  rw [add32_of_lt (by omega), Nat.mod_eq_of_lt (by omega), Nat.add_comm]

theorem Reaches.sectorCount_le : 0 + count ≤ min (sectorCount count) MAPPED_SECTORS := by
  have hfew := hR.few
  unfold sectorCount MAPPED_SECTORS
  split
  · omega
  · omega

include hwin

theorem Reaches.window {i : Nat} (hi : i < SECTOR_SIZE * count) :
    fs.disk (SECTOR_SIZE * offset + i) = d.disk (SECTOR_SIZE * (p.start + offset) + i) := by
  have hinside := hR.inside
  rw [hwin _ (by unfold SECTOR_SIZE at hi ⊢; omega)]
  congr 1
  ring

variable (proc) in
/-- **Reading.** The answer has in its data what `fileRead` leaves in the page. -/
theorem Reaches.fileRead (hpos : 0 < count) :
    (d.serve proc ⟨COMMAND_HD, HD_READ, handle, offset, count, fs.page⟩).2 =
      .ok (d, [(proc, ⟨COMMAND_HD, HD_READ, handle, offset, count,
        (fs.fileRead offset count).page⟩)]) := by
  have hdata : d.disk.copy (SECTOR_SIZE * (p.start + offset)) fs.page 0 (SECTOR_SIZE * count) =
      (fs.fileRead offset count).page := by
    unfold NorlitFS.fileRead
    dsimp only
    funext i
    -- in the sectors that are read, or behind them
    by_cases hi : 0 ≤ i ∧ i < 0 + SECTOR_SIZE * count
    · rw [Bytes.copy_of_mem hi.1 hi.2, Bytes.copy_of_mem hi.1 hi.2]
      exact (hR.window hwin (by omega)).symm
    · rw [Bytes.copy_of_notMem (by omega), Bytes.copy_of_notMem (by omega)]
  rw [serve_transfers rfl (Or.inl rfl)]
  unfold transfer
  rw [hR.base]
  dsimp only
  rw [if_pos rfl]
  unfold readSectors
  rw [hR.address hpos, readSectors_eq hR.sectorCount_le, map_ok]
  exact congrArg (fun data => Except.ok (d, [(proc, FileMessage.mk _ _ _ _ _ data)])) hdata

variable (proc data) in
omit hwin in
/-- A write changes the sectors that it is asked to. -/
theorem Reaches.serve_write (hpos : 0 < count) :
    (d.serve proc ⟨COMMAND_HD, HD_WRITE, handle, offset, count, data⟩).2 =
      .ok (⟨d.hd, data.copy 0 d.disk (SECTOR_SIZE * (p.start + offset)) (SECTOR_SIZE * count)⟩,
        [(proc, ⟨COMMAND_HD, HD_WRITE, handle, offset, count, data⟩)]) := by
  rw [serve_transfers rfl (Or.inr rfl)]
  unfold transfer
  rw [hR.base]
  dsimp only
  rw [if_neg (by decide)]
  unfold writeSectors
  rw [hR.address hpos, writeSectors_eq hR.sectorCount_le, map_ok]
  rfl

omit hR in
/-- The partition then holds what `fileWrite` leaves. -/
theorem Window.fileWrite {hd : HardDisk} : Window ⟨hd,
    fs.page.copy 0 d.disk (SECTOR_SIZE * (p.start + offset)) (SECTOR_SIZE * count)⟩ p
      (fs.fileWrite offset count) := by
  intro i hi
  unfold NorlitFS.fileWrite
  dsimp only
  have hstart : SECTOR_SIZE * (p.start + offset) = SECTOR_SIZE * p.start + SECTOR_SIZE * offset :=
    Nat.mul_add _ _ _
  -- in the sectors that are written, or elsewhere
  by_cases hin : SECTOR_SIZE * offset ≤ i ∧ i < SECTOR_SIZE * offset + SECTOR_SIZE * count
  · rw [Bytes.copy_of_mem hin.1 hin.2, Bytes.copy_of_mem (by omega) (by omega)]
    congr 1
    omega
  · rw [Bytes.copy_of_notMem (by omega), Bytes.copy_of_notMem (by omega)]
    exact hwin i hi

end Reaches

end HDProcess

end NorlitOS
