import NorlitOS.FileSystem.Create
import NorlitOS.FileSystem.Heads

/-!
# The accounts of `mkfs`

`mkfs` composes the super block in the buffer that has just held the last block of the kernel, and
sets every field but the counter of the free blocks. `freeBlock` and `mallocBlock` change the
counter by the size of what they list and take: it stays ahead of the lists by the number that the
four bytes of the kernel made.
-/

namespace NorlitOS

open Dyadic

namespace NorlitFS

variable {fs fs' : NorlitFS} {disk : Bytes} {img : Images} {mbr kernel : Bytes} {L : Nat → List Nat}
  {c k n i o base len psize address size : Nat}

/-- Where the size is on the disk. -/
def sizeAt : Nat := SECTOR_SIZE + SuperBlock.size

/-- Where the root is on the disk. -/
def rootAt : Nat := SECTOR_SIZE + SuperBlock.root

/-- `"$Root"`. -/
def rootName : List UInt8 := [36, 82, 111, 111, 116]

/-- The number that the last block of the kernel has where the super block has its counter. -/
def leftover (img : Images) : Nat := img.kernel.u32 (2048 * (ksize - 1) + SuperBlock.freeSize)

/-- The super block gives account of the partition: the counter is what is on the lists, the size
that of the partition, the root a file that is not on a list, and no more is free than there is. -/
structure Accounts (disk : Bytes) (psize : Nat) : Prop where
  free : ∃ L, (∀ k < 20, Chain (link disk) 0 (.head k) (L k)) ∧
    disk.u32 counterAt = Extents.total 20 L
  size : disk.u32 sizeAt = psize / 4
  root_ne : disk.u32 rootAt ≠ 0
  root_file : ∃ d, FileAt disk (disk.u32 rootAt) rootName d
  root_used : disk.u32 rootAt ∉ freeSet disk
  used : disk.u32 counterAt ≤ disk.u32 sizeAt

/-! ## The super block as it is composed

The buffer holds the last block of the kernel when `mkfs` starts to fill in the super block. Four
fields are set and the lists are cleared. The counter is not, so it starts with bytes of the
kernel. -/

/-- The last block of the kernel stays in the page. -/
theorem copyKernel_page {j : Nat} (hj : j < 2048) :
    (copyKernel kernel (n + 1) i fs).page j = kernel (2048 * (i + n) + j) := by
  induction n generalizing i fs with
  | zero =>
    have hsize : j < 0 + SECTOR_SIZE * 4 := by
      unfold SECTOR_SIZE
      omega
    unfold copyKernel copyKernel fileWrite memcpy
    dsimp only
    rw [Bytes.copy_of_mem (Nat.zero_le j) hsize, Nat.zero_add, Nat.sub_zero]
    rfl
  | succ n ih =>
    rw [copyKernel, ih]
    congr 1
    omega

/-- What is in the buffer after the kernel has been copied. -/
theorem copyFiles_page {j : Nat} (hj : j < 2048) :
    (fs.copyFiles img mbr).2.page j = img.kernel (2048 * (ksize - 1) + j) := by
  refine (copyKernel_page (n := ksize - 1) hj).trans ?_
  rw [Nat.zero_add]

/-- The words of the super block in front of its lists. -/
theorem initSuperBlock_word (hi : 4 ≤ i) (ho : i + 4 ≤ 20) :
    (fs.initSuperBlock psize).disk.u32 (SECTOR_SIZE + i) =
      ((fs.memcpy 0 (fun i => signature.getD i 0) 8).store SuperBlock.size (psize / 4)).page.u32 i := by
  have hread : (fs.initSuperBlock psize).disk.u32 (SECTOR_SIZE + i) =
      (clearLists 20 0 ((fs.memcpy 0 (fun i => signature.getD i 0) 8).store SuperBlock.size
        (psize / 4))).page.u32 (0 + (SECTOR_SIZE + i - SECTOR_SIZE * 1)) := by
    apply Bytes.u32_copy_of_mem
    · omega
    · unfold SECTOR_SIZE
      omega
  have hoff : 0 + (SECTOR_SIZE + i - SECTOR_SIZE * 1) = i := by omega
  rw [hread, hoff]
  exact clearLists_below (by unfold SuperBlock.freeBlock; omega)

theorem initSuperBlock_size (hp : psize < 2 ^ 32) :
    (fs.initSuperBlock psize).disk.u32 sizeAt = psize / 4 := by
  refine (initSuperBlock_word (by decide) (by decide)).trans ?_
  exact Bytes.u32_setU32 (by omega)

/-- The counter is left alone. -/
theorem initSuperBlock_counter :
    (fs.initSuperBlock psize).disk.u32 counterAt = fs.page.u32 SuperBlock.freeSize := by
  refine (initSuperBlock_word (by decide) (by decide)).trans ?_
  refine (Bytes.u32_setU32_of_ne (by decide)).trans ?_
  exact Bytes.u32_copy_of_notMem (by decide)

/-- Nothing is listed, and the counter is ahead by what was in the page. -/
theorem initSuperBlock_ahead : Ahead (leftover img)
    ((fs.copyFiles img mbr).2.initSuperBlock psize).disk fun _ => [] := by
  refine ⟨initSuperBlock_lists, ?_⟩
  have hlt : leftover img < 2 ^ 32 := Bytes.u32_lt
  rw [initSuperBlock_counter, Extents.total_empty, Nat.add_zero, Nat.mod_eq_of_lt hlt]
  apply Bytes.u32_congr
  intro j hj
  rw [copyFiles_page (by unfold SuperBlock.freeSize; omega), Nat.add_assoc]

/-! ## What the release loop leaves of the super block

`freeBlock` writes the heads of the lists and the counter. The words in front of the counter, with
the size in them, stay. -/

/-- The block with which a range begins. -/
theorem releaseLow_word (hlen : len < 20) (ho : 512 ≤ o) (ho' : o + 4 ≤ 528) :
    (fs.releaseLow len address size).1.disk.u32 o = fs.disk.u32 o := by
  unfold releaseLow
  split
  · exact freeBlock_word hlen ho ho'
  · rfl

/-- The block with which a range ends. -/
theorem releaseHigh_word (hlen : len < 20) (ho : 512 ≤ o) (ho' : o + 4 ≤ 528) :
    (fs.releaseHigh len address size).1.disk.u32 o = fs.disk.u32 o := by
  unfold releaseHigh
  split
  · exact freeBlock_word hlen ho ho'
  · rfl

/-- The whole loop. -/
theorem release_word (hn : n + len ≤ 20) (ho : 512 ≤ o) (ho' : o + 4 ≤ 528) :
    (release n len fs address size).disk.u32 o = fs.disk.u32 o := by
  induction n generalizing fs len address size with
  | zero => rfl
  | succ n ih =>
    rw [release]
    split
    · rfl
    · dsimp only
      rw [ih (by omega), releaseHigh_word (by omega) ho ho', releaseLow_word (by omega) ho ho']

/-- So the size survives the release. -/
theorem format_size (hp : psize < 2 ^ 32) :
    (fs.format img mbr psize).disk.u32 sizeAt = psize / 4 := by
  unfold format
  dsimp only
  rw [release_word (Nat.le_refl 20) (by decide) (by decide), initSuperBlock_size hp]

/-! ## The root

The root is an ordinary file, made from two blocks of the lists. Its number is the last field to
be set. -/

/-- Setting it changes one word of the disk. -/
theorem setRoot_disk {v : Nat} : (((fs.fileRead 1 1).store SuperBlock.root v).fileWrite 1 1).disk =
    fs.disk.setU32 rootAt v := by
  unfold fileWrite store fileRead
  dsimp only
  rw [Bytes.copy_setU32 (by decide), Bytes.copy_back]
  rfl

/-- `mkfs` in two steps: the file, and its number in the super block. -/
theorem mkfs_fun : mkfs = fun img mbr fs psize =>
    match (fs.format img mbr psize).createFileBlock [36, 82, 111, 111, 116] with
    | (rootBlock, fs') =>
      have fs' := fs'.fileRead 1 1
      have fs' := fs'.store SuperBlock.root rootBlock
      ((fs.copyFiles img mbr).1, fs'.fileWrite 1 1) := rfl

/-- `mkfs` with the result of `createFileBlock` named: taking that pair apart by computation would
run the release loop. -/
theorem mkfs_eq {g : Nat} (h : (fs.format img mbr psize).createFileBlock rootName = (g, fs')) :
    fs.mkfs img mbr psize = ((fs.copyFiles img mbr).1,
      ((fs'.fileRead 1 1).store SuperBlock.root g).fileWrite 1 1) := by
  unfold rootName at h
  rw [mkfs_fun]
  beta_reduce
  rw [h]

/-- The last write of `mkfs`. -/
theorem mkfs_disk {g : Nat} (h : (fs.format img mbr psize).createFileBlock rootName = (g, fs')) :
    (fs.mkfs img mbr psize).2.disk = fs'.disk.setU32 rootAt g := by
  rw [mkfs_eq h]
  exact setRoot_disk

section Root

variable {name : List UInt8} {d g : Nat} {disk' : Bytes} {L' : Nat → List Nat}
  (hB : Built c disk L name g d disk' L') (hL : Lists disk L)

include hB hL

/-- The store of the root is in front of the counter, in block 0. -/
theorem Built.setRoot : Ahead c (disk'.setU32 rootAt g) L' ∧ FileAt (disk'.setU32 rootAt g) g name d := by
  have hroot : rootAt = 524 := rfl
  have hgb := hL.extents.region_subset hB.file_mem
  constructor
  · refine hB.lists.of_same (fun i hi _ => ?_) fun i hi => ?_
    · exact Bytes.setU32_of_notMem (by omega)
    · have hpos := (hB.lists.extents.region_subset hi).1
      exact Bytes.setU32_of_notMem (by omega)
  · intro i hi
    have hpos := hgb.1
    rw [Bytes.setU32_of_notMem (by omega)]
    exact hB.fileBlock i hi

/-- The root is found where it was put. -/
theorem Built.root_word : (disk'.setU32 rootAt g).u32 rootAt = g := by
  have hgb := hL.extents.region_subset hB.file_mem
  exact Bytes.u32_setU32 (hgb.2.trans (by decide))

/-- Setting it leaves the size. -/
theorem Built.size_word : (disk'.setU32 rootAt g).u32 sizeAt = disk.u32 sizeAt := by
  have hsize : sizeAt = 520 := rfl
  have hroot : rootAt = 524 := rfl
  rw [Bytes.u32_setU32_of_ne (by omega)]
  apply Bytes.u32_congr
  intro j hj
  refine hB.untouched _ (Or.inl (by omega)) fun hmem => ?_
  rw [show (sizeAt + j) / 2048 = 0 by omega] at hmem
  exact hL.not_free_zero hmem

end Root

/-- A counter that is ahead is not what is on the lists. -/
theorem Ahead.eq_zero (h : Ahead c disk L) (hc : c < 2 ^ 32) (hfree : ∃ L, (∀ k < 20,
    Chain (link disk) 0 (.head k) (L k)) ∧ disk.u32 counterAt = Extents.total 20 L) : c = 0 := by
  obtain ⟨L₁, hchain, hcounter⟩ := hfree
  have htotal : Extents.total 20 L₁ = Extents.total 20 L := by
    unfold Extents.total
    refine Finset.sum_congr rfl fun k hk => ?_
    rw [(hchain k (Finset.mem_range.mp hk)).unique (h.chain k (Finset.mem_range.mp hk))]
  have hlt := h.total_lt
  have hahead := h.counter
  rw [hcounter, htotal] at hahead
  omega

/-! ## Partitions with room for the root

From two free blocks on the root is made, and the account is right exactly if the kernel left
zeros where the counter is. With one block or none it is not right, whatever the kernel left. -/

/-- What is on lists in a range is at most the range. -/
theorem total_le_of_subset {lo hi : Nat} (h : Lists disk L)
    (hsub : Extents.region L ⊆ Set.Ico lo hi) : Extents.total 20 L ≤ hi - lo := by
  rw [h.extents.total_eq_ncard blocks_finite, ← Nat.card_Ico, ← Set.ncard_coe_finset, Finset.coe_Ico]
  exact Set.ncard_le_ncard hsub (Set.finite_Ico lo hi)

/-- A range of free blocks bounds the counter from below. -/
theorem le_total_of_subset {lo hi : Nat} (h : Lists disk L)
    (hsub : Set.Ico lo hi ⊆ Extents.region L) : hi - lo ≤ Extents.total 20 L := by
  rw [h.extents.total_eq_ncard blocks_finite, ← Nat.card_Ico, ← Set.ncard_coe_finset, Finset.coe_Ico]
  exact Set.ncard_le_ncard hsub (blocks_finite.subset h.extents.region_subset)

section Large

variable (hp : psize < 2 ^ 32) (hroom : ksize + 2 < psize / 4)

include hp hroom

variable (fs img mbr) in
/-- The lists behind the release loop, in the blocks behind the kernel, with the first of them. -/
theorem format_ahead : ∃ L, Ahead (leftover img) (fs.format img mbr psize).disk L ∧
    Extents.region L ⊆ Set.Ico (ksize + 2) (psize / 4) ∧
    ∀ b < 2 ^ 20, b ∈ Set.Ico (ksize + 2) (psize / 4) → b ∈ Extents.region L := by
  obtain ⟨L, a', size', hR, hlast, hkeep⟩ := format_released fs img mbr hroom hp
  have hregion := hR.region
  have hlow := hR.low
  have hk := ksize_eq
  rw [Extents.region_empty, Set.empty_union, Nat.add_sub_cancel' hroom.le] at hregion
  refine ⟨L, hkeep _ initSuperBlock_ahead, hregion ▸ Set.sdiff_subset, fun b hb hin => ?_⟩
  rw [hregion]
  refine ⟨hin, fun hmem => ?_⟩
  obtain ⟨hlo, hhi⟩ := Set.mem_Ico.mp hmem
  rcases hlast with hz | ⟨⟨c, hc⟩, -⟩
  · omega
  · -- a multiple of `2 ^ 20` from `ksize + 2` on
    have hne : c ≠ 0 := by
      rintro rfl
      omega
    omega

/-- With room for the root the counter decides. -/
theorem accounts_iff_of_large (hlarge : ksize + 4 ≤ psize / 4) :
    Accounts (fs.mkfs img mbr psize).2.disk psize ↔ leftover img = 0 := by
  obtain ⟨L, hA, hsub, hfirst⟩ := format_ahead fs img mbr hp hroom
  have hk := ksize_eq
  -- the two blocks behind the kernel are free, enough for the root
  have htwo : 2 ≤ Extents.total 20 L := by
    have hpair : Set.Ico (ksize + 2) (ksize + 4) ⊆ Extents.region L := by
      intro b hb
      obtain ⟨hlo, hhi⟩ := Set.mem_Ico.mp hb
      exact hfirst b (by omega) (Set.mem_Ico.mpr (by omega))
    exact le_total_of_subset hA.toLists hpair
  obtain ⟨d, L', hB⟩ := createFileBlock_built rootName hA htwo
  rcases hcreate : (fs.format img mbr psize).createFileBlock rootName with ⟨g, fs'⟩
  rw [hcreate] at hB
  rw [mkfs_disk hcreate]
  obtain ⟨hD, hfile⟩ := hB.setRoot hA.toLists
  have hword := hB.root_word hA.toLists
  have hsize := (hB.size_word hA.toLists).trans (format_size hp)
  dsimp only at hD hfile hword hsize
  constructor
  · intro h
    -- what the copied image left in the counter stays in it
    exact hD.eq_zero Bytes.u32_lt h.free
  · intro hz
    rw [hz] at hD
    have hF := freeLists_iff.mpr hD
    have hgb := hA.extents.region_subset hB.file_mem
    have htotal := hB.total
    have hle := total_le_of_subset hA.toLists hsub
    refine ⟨⟨L', hF.chain, hF.counter⟩, hsize, ?_, ⟨d, ?_⟩, ?_, ?_⟩
    · rw [hword]
      exact hgb.1.ne'
    · rw [hword]
      exact hfile
    · rw [hword, hF.freeSet_eq, hB.rest]
      exact fun hmem => hmem.2 (Or.inl rfl)
    · rw [hF.counter, hsize]
      omega

omit hroom in
/-- With room for one block, the root has block 0 for its data, and the super block is wiped. -/
theorem not_accounts_of_one (hone : psize / 4 = ksize + 3) :
    ¬ Accounts (fs.mkfs img mbr psize).2.disk psize := by
  intro h
  obtain ⟨L, hA, hsub, hfirst⟩ := format_ahead fs img mbr hp (by omega)
  have hk := ksize_eq
  have htotal : Extents.total 20 L = 1 := by
    have hle := total_le_of_subset hA.toLists hsub
    have hge : psize / 4 - (ksize + 2) ≤ Extents.total 20 L := by
      refine le_total_of_subset hA.toLists fun b hb => hfirst b ?_ hb
      have hb' := Set.mem_Ico.mp hb
      omega
    omega
  -- the only block goes to the file, and its data block is block 0
  obtain ⟨-, -, hwiped⟩ := createFileBlock_last rootName hA htotal
  rcases hcreate : (fs.format img mbr psize).createFileBlock rootName with ⟨g, fs'⟩
  rw [hcreate] at hwiped
  rw [mkfs_disk hcreate] at h
  have hsize : sizeAt = 520 := rfl
  have hroot : rootAt = 524 := rfl
  have hword : (fs'.disk.setU32 rootAt g).u32 sizeAt = 0 := by
    rw [Bytes.u32_setU32_of_ne (by omega), show (0 : Nat) = Bytes.u32 (fun _ => 0) 0 from rfl]
    exact Bytes.u32_congr fun j hj => hwiped _ (by omega)
  rw [h.size, hone] at hword
  omega

end Large

/-- With no room, there is no root. -/
theorem not_accounts_of_none (hnone : psize / 4 = ksize + 2) :
    ¬ Accounts (fs.mkfs img mbr psize).2.disk psize := by
  intro h
  have hA : Ahead (leftover img) (fs.format img mbr psize).disk fun _ => [] := by
    unfold format
    dsimp only
    rw [hnone]
    exact initSuperBlock_ahead
  obtain ⟨hzero, -⟩ := createFileBlock_none rootName hA Extents.total_empty
  rcases hcreate : (fs.format img mbr psize).createFileBlock rootName with ⟨g, fs'⟩
  rw [hcreate] at hzero
  apply h.root_ne
  rw [mkfs_disk hcreate, show g = 0 from hzero]
  exact Bytes.u32_setU32 (by decide)

/-! ## Partitions smaller than the kernel

The number of blocks to release is a `u32` subtraction that goes below zero. So nearly `2 ^ 32`
blocks get released, far behind the end of the partition, and the account cannot be right. -/

/-- What the release loop frees where the number of blocks left has wrapped around: the lists of the
large orders get one extent each. -/
theorem freed_small : ∀ N < ksize + 2,
    (∀ x ∈ freed 20 0 (ksize + 2) (sub32 N (ksize + 2)), x.1 < 2 ^ 32 ∧ x.2 < 20) ∧
    (∀ k < 20, lastOn (freed 20 0 (ksize + 2) (sub32 N (ksize + 2))) k 0 < 2 ^ 20) ∧
    (∀ k < 20, 17 ≤ k → lastOn (freed 20 0 (ksize + 2) (sub32 N (ksize + 2))) k 0 ≠ 0) ∧
    (N = 0 → lastOn (freed 20 0 (ksize + 2) (sub32 N (ksize + 2))) 0 0 = 0) := by
  decide +kernel

/-- Block 0 behind a file whose data block is not in it. -/
theorem writeFile_kept {name : List UInt8} {g d : Nat} (hg : 0 < g) (hlt : g < 2 ^ 30)
    (hd : SECTOR_SIZE * sector d ≠ 0) (hi : i < 2048) :
    (fs.writeFile name g d).disk i = fs.disk i := by
  have happart := sector_apart d
  unfold writeFile
  dsimp only
  rw [disk_write_other hlt (by omega)]
  exact Bytes.copy_of_notMem (by omega)

/-- A file that is written to block 0 wipes the super block. -/
theorem writeFile_wiped {name : List UInt8} {g d : Nat} (hg : 0 < g) (hlt : g < 2 ^ 30)
    (hd : SECTOR_SIZE * sector d = 0) (hi : i < 2048) : (fs.writeFile name g d).disk i = 0 := by
  unfold writeFile
  dsimp only
  rw [disk_write_other hlt (by omega)]
  have hmem : i < SECTOR_SIZE * sector d + SECTOR_SIZE * 4 := by
    rw [hd]
    unfold SECTOR_SIZE
    omega
  refine (Bytes.copy_of_mem (by omega) hmem).trans ?_
  rw [hd, Nat.zero_add, Nat.sub_zero]
  exact memset_page hi

variable (fs) in
/-- The head of the last list survives `createFileBlock`, or the super block does not. -/
theorem createFileBlock_small (name : List UInt8) (hlt : ∀ k < 20, fs.disk.u32 (headAt k) < 2 ^ 20)
    (hne : ∀ k < 20, 17 ≤ k → fs.disk.u32 (headAt k) ≠ 0) :
    (fs.createFileBlock name).2.disk.u32 (headAt 19) ≠ 0 ∨
    (fs.disk.u32 (headAt 0) ≠ 0 ∧ ∀ i < 2048, (fs.createFileBlock name).2.disk i = 0) := by
  have hS := mallocBlock_served (show 17 < 20 by decide) (hne 17 (by decide) (Nat.le_refl 17))
  set g := (fs.mallocBlock 0).1 with hg
  set fs₁ := (fs.mallocBlock 0).2 with hfs₁
  have hkept := hS.above
  have hS' : Served fs₁ 18 (fs₁.mallocBlock 0).1 (fs₁.mallocBlock 0).2 := by
    refine mallocBlock_served (by decide) ?_
    rw [hkept 18 (by decide) (by decide)]
    exact hne 18 (by decide) (by decide)
  set d := (fs₁.mallocBlock 0).1 with hd
  set fs₂ := (fs₁.mallocBlock 0).2 with hfs₂
  have hlast : fs₂.disk.u32 (headAt 19) ≠ 0 := by
    rw [hS'.above 19 (by decide) (by decide), hkept 19 (by decide) (by decide)]
    exact hne 19 (by decide) (by decide)
  have hdef : fs.createFileBlock name = (g, fs₂.writeFile name g d) := by
    unfold createFileBlock
    exact if_neg hS.ne
  obtain ⟨j, hj, hgj⟩ := hS.head
  have hgb := hlt j (by omega)
  rw [← hgj] at hgb
  have hpos := Nat.pos_of_ne_zero hS.ne
  rw [hdef]
  dsimp only
  by_cases hz : SECTOR_SIZE * sector d = 0
  · refine Or.inr ⟨fun hzero => ?_, fun i hi => writeFile_wiped hpos (by omega) hz hi⟩
    -- the second block is the one behind the first
    have hnext : fs₁.disk.u32 (headAt 0) = g + 1 := by
      rw [hS.next hzero, add32_of_lt (by omega)]
    have hd' : d = g + 1 := (hS'.first (by omega)).trans hnext
    rw [hd', sector_of_lt (by omega)] at hz
    omega
  · refine Or.inl ?_
    rw [Bytes.u32_congr fun j hj => writeFile_kept hpos (by omega) hz (by rw [headAt_eq]; omega)]
    exact hlast

/-- No account holds on such a partition. -/
theorem not_accounts_of_small (hp : psize < 2 ^ 32) (hsmall : psize / 4 < ksize + 2) :
    ¬ Accounts (fs.mkfs img mbr psize).2.disk psize := by
  intro h
  obtain ⟨hxs, hlt, hne, hfirst⟩ := freed_small _ hsmall
  -- the head of each list is the last block that was put on it
  have hheads : ∀ k < 20, (fs.format img mbr psize).disk.u32 (headAt k) =
      lastOn (freed 20 0 (ksize + 2) (sub32 (psize / 4) (ksize + 2))) k 0 := by
    intro k hk
    have hstart : ((fs.copyFiles img mbr).2.initSuperBlock psize).disk.u32 (headAt k) = 0 :=
      initSuperBlock_lists.chain k hk
    unfold format
    dsimp only
    rw [release_eq_foldl, foldl_head hxs hk, hstart]
  have hcases := createFileBlock_small (fs.format img mbr psize) rootName
    (fun k hk => hheads k hk ▸ hlt k hk) fun k hk hk' => hheads k hk ▸ hne k hk hk'
  rcases hcreate : (fs.format img mbr psize).createFileBlock rootName with ⟨g, fs'⟩
  rw [hcreate] at hcases
  rw [mkfs_disk hcreate] at h
  have hsize : sizeAt = 520 := rfl
  have hroot : rootAt = 524 := rfl
  rcases hcases with hhead | ⟨hzero, hwiped⟩
  · -- a block of `2 ^ 19` blocks in the lists is more than the disk has
    obtain ⟨L, hchain, hcounter⟩ := h.free
    have hnil : L 19 ≠ [] := by
      intro hnil
      have hlast := hchain 19 (by decide)
      rw [hnil] at hlast
      apply hhead
      rw [← show (fs'.disk.setU32 rootAt g).u32 (headAt 19) = fs'.disk.u32 (headAt 19) from
        Bytes.u32_setU32_of_ne (by rw [headAt_eq]; omega)]
      exact hlast
    have hlarge : 2 ^ 19 ≤ Extents.total 20 L := by
      have hone : 2 ^ 19 * (L 19).length ≤ Extents.total 20 L :=
        Finset.single_le_sum (f := fun k => 2 ^ k * (L k).length) (fun _ _ => Nat.zero_le _)
          (Finset.mem_range.mpr (by decide))
      have hpos := List.length_pos_iff.mpr hnil
      omega
    have hused := h.used
    rw [hcounter, h.size] at hused
    have hk := ksize_eq
    omega
  · -- the super block has been wiped, the size with it
    have hword : (fs'.disk.setU32 rootAt g).u32 sizeAt = 0 := by
      rw [Bytes.u32_setU32_of_ne (by omega), show (0 : Nat) = Bytes.u32 (fun _ => 0) 0 from rfl]
      exact Bytes.u32_congr fun j hj => hwiped _ (by omega)
    rw [h.size] at hword
    apply hzero
    rw [hheads 0 (by decide)]
    exact hfirst hword

/-- **The accounts of `mkfs`.** They are right if and only if the kernel has zeroes where the counter
will be, and there is room for the root. -/
theorem mkfs_accounts_iff (fs : NorlitFS) (img : Images) (mbr : Bytes) (psize : Nat)
    (hp : psize < 2 ^ 32) : Accounts (fs.mkfs img mbr psize).2.disk psize ↔
      leftover img = 0 ∧ ksize + 4 ≤ psize / 4 := by
  rcases Nat.lt_or_ge (psize / 4) (ksize + 4) with hsmall | hlarge
  · refine iff_of_false ?_ fun h => absurd h.2 (Nat.not_le.mpr hsmall)
    rcases Nat.lt_trichotomy (psize / 4) (ksize + 2) with hlt | heq | hgt
    · exact not_accounts_of_small hp hlt
    · exact not_accounts_of_none heq
    · exact not_accounts_of_one hp (by omega)
  · rw [accounts_iff_of_large hp (by omega) hlarge, and_iff_left hlarge]

/-- A partition of 64 MB. -/
theorem mkfs_accounts_iff_zero :
    Accounts (blank.mkfs noImages (fun _ => 0) 131072).2.disk 131072 ↔
      leftover noImages = 0 ∧ ksize + 4 ≤ 131072 / 4 :=
  mkfs_accounts_iff blank noImages (fun _ => 0) 131072 (by decide)

/-- The same with a kernel that has a one in its last block. -/
theorem not_accounts_marked : ¬ Accounts (blank.mkfs
    { noImages with kernel := fun i => if i = 2048 * 19 + 16 then 1 else 0 } (fun _ => 0)
      131072).2.disk 131072 := by
  rw [accounts_iff_of_large (by decide) (by decide) (by decide)]
  decide

end NorlitFS

end NorlitOS
