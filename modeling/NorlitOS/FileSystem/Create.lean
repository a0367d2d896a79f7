import NorlitOS.FileSystem.Tree

/-!
# `createFileBlock`

With two free blocks, `createFileBlock` takes one for the file and one for its data, and writes
only these two. With one block, the second allocation fails, and block 0 is taken for the data
block: its content, the super block with it, is wiped.
-/

namespace NorlitOS

open Dyadic

namespace NorlitFS

variable {fs fs' : NorlitFS} {disk disk' : Bytes} {L : Nat → List Nat} {c g d b i len rt : Nat}
  {name : List UInt8}

/-! ## The root is no part of the allocator's state

The root is a variable of the driver and never written after the mount. -/

theorem freeBlock_root : (fs.freeBlock b len).root = fs.root := rfl

theorem unlink_root : (fs.unlink len rt).root = fs.root := rfl

/-- The halving leaves the root alone in all its rounds. -/
theorem freeHalves_root {m : Nat} : (fs.freeHalves rt len m).root = fs.root := by
  induction m generalizing fs with
  | zero => rfl
  | succ m ih =>
    rw [freeHalves]
    split
    · exact ih.trans freeBlock_root
    · rfl

/-- So does `mallocBlock`. -/
theorem mallocBlock_root : (fs.mallocBlock len).2.root = fs.root := by
  unfold mallocBlock
  dsimp only
  split
  · split
    · dsimp only
      rw [freeHalves_root, unlink_root]
      rfl
    · rfl
  · dsimp only
    rw [unlink_root]
    rfl

theorem writeFile_root : (fs.writeFile name g d).root = fs.root := rfl

/-- Making a file leaves the root alone. -/
theorem createFileBlock_root : (fs.createFileBlock name).2.root = fs.root := by
  unfold createFileBlock
  dsimp only
  split
  · exact mallocBlock_root
  · dsimp only
    rw [writeFile_root, mallocBlock_root, mallocBlock_root]

/-! ## One block

`mallocBlock(0)` takes a single block, and fails only where there is none. What is needed of it
further on is in `Got`, without the lists. -/

/-- A free block is taken. -/
structure Got (disk : Bytes) (b : Nat) (disk' : Bytes) : Prop where
  free : WellFormed disk'
  mem : b ∈ freeSet disk
  rest : freeSet disk' = freeSet disk \ {b}
  counter : disk'.u32 counterAt + 1 = disk.u32 counterAt
  untouched : Untouched (freeSet disk) disk disk'

/-- Nothing is free, or a block is taken. -/
theorem mallocBlock_one (h : Ahead c fs.disk L) :
    ((fs.mallocBlock 0).1 = 0 ∧ Extents.total 20 L = 0 ∧ (fs.mallocBlock 0).2.disk = fs.disk) ∨
    ∃ L', Cut c fs.disk L 0 (fs.mallocBlock 0).1 (fs.mallocBlock 0).2.disk L' := by
  rcases mallocBlock_cut h (show 0 < 20 by decide) with ⟨hz, hnil, hsame⟩ | hC
  · exact Or.inl ⟨hz, h.extents.total_eq_zero_iff.mpr fun k => hnil k (Nat.zero_le k), hsame⟩
  · exact Or.inr hC

theorem Cut.mem {L' : Nat → List Nat} (hC : Cut c disk L 0 b disk' L') : b ∈ Extents.region L :=
  hC.wasFree (self_mem_block 0 b)

/-- A block is taken, or the counter is zero and nothing has changed. -/
theorem mallocBlock_zero (h : WellFormed fs.disk) :
    ((fs.mallocBlock 0).1 = 0 ∧ fs.disk.u32 counterAt = 0 ∧
      (fs.mallocBlock 0).2.disk = fs.disk) ∨
    Got fs.disk (fs.mallocBlock 0).1 (fs.mallocBlock 0).2.disk := by
  obtain ⟨L, hL⟩ := h
  rcases mallocBlock_one (freeLists_iff.mp hL) with ⟨hz, htotal, hsame⟩ | ⟨L', hC⟩
  · exact Or.inl ⟨hz, hL.counter.trans htotal, hsame⟩
  · have hL' := freeLists_iff.mpr hC.lists
    refine Or.inr ⟨⟨L', hL'⟩, ?_, ?_, ?_, ?_⟩
    · rw [hL.freeSet_eq]
      exact hC.mem
    · rw [hL'.freeSet_eq, hL.freeSet_eq, hC.region, block_zero]
    · rw [hL'.counter, hL.counter]
      exact hC.total
    · rw [hL.freeSet_eq]
      exact hC.untouched

/-- Free blocks are blocks with sectors. -/
theorem WellFormed.mem_blocks (h : WellFormed disk) (hb : b ∈ freeSet disk) : b ∈ blocks := by
  obtain ⟨L, hL⟩ := h
  rw [hL.freeSet_eq] at hb
  exact hL.extents.region_subset hb

/-- The block of the super block is never free. -/
theorem WellFormed.zero_notMem (h : WellFormed disk) : 0 ∉ freeSet disk :=
  fun hz => absurd (h.mem_blocks hz).1 (Nat.lt_irrefl 0)

/-- So a block that was taken is not the result of a failure. -/
theorem Got.ne_zero (hG : Got disk b disk') (h : WellFormed disk) : b ≠ 0 :=
  (h.mem_blocks hG.mem).1.ne'

/-- The lists live in the super block and in the free blocks. -/
theorem Ahead.of_same (h : Ahead c disk L) (hsuper : ∀ i, 528 ≤ i → i < 612 → disk' i = disk i)
    (hfree : ∀ i, i / 2048 ∈ Extents.region L → disk' i = disk i) : Ahead c disk' L := by
  have hcounter : disk'.u32 counterAt = disk.u32 counterAt := by
    apply Bytes.u32_congr
    intro j hj
    exact hsuper _ (by rw [counterAt_eq]; omega) (by rw [counterAt_eq]; omega)
  -- the links are in the free blocks themselves
  have hlink : ∀ k, ∀ b ∈ L k, link disk' (.link b) = link disk (.link b) := by
    intro k b hb
    have hmem := h.mem_blocks hb
    apply Bytes.u32_congr
    intro j hj
    rw [sector_of_lt hmem.2]
    apply hfree
    rw [show (2048 * b + j) / 2048 = b by omega]
    exact Extents.block_subset_region hb (self_mem_block k b)
  refine ⟨⟨h.extents, fun k hk => (h.chain k hk).congr ?_ fun b hb => hlink k b hb⟩, ?_⟩
  · apply Bytes.u32_congr
    intro j hj
    exact hsuper _ (by rw [headAt_eq]; omega) (by rw [headAt_eq]; omega)
  · rw [hcounter, h.counter]

/-- The lists depend on the super block and on the free blocks only. -/
theorem WellFormed.of_same (h : WellFormed disk)
    (hsuper : ∀ i, 528 ≤ i → i < 612 → disk' i = disk i)
    (hfree : ∀ i, i / 2048 ∈ freeSet disk → disk' i = disk i) :
    WellFormed disk' ∧ freeSet disk' = freeSet disk ∧
      disk'.u32 counterAt = disk.u32 counterAt := by
  obtain ⟨L, hL⟩ := h
  rw [hL.freeSet_eq] at hfree
  have hL' := freeLists_iff.mpr ((freeLists_iff.mp hL).of_same hsuper hfree)
  exact ⟨⟨L, hL'⟩, hL'.freeSet_eq.trans hL.freeSet_eq.symm, hL'.counter.trans hL.counter.symm⟩

/-! ## The two blocks of a file

Both are written in full, and nothing else is. -/

theorem memset_page (hi : i < 2048) : (fs.memset 0 2048).page i = 0 := by
  unfold memset memcpy
  dsimp only
  rw [Bytes.copy_of_mem (Nat.zero_le i) (by omega)]

section WriteFile

variable (hg : g < 2 ^ 30) (hd : d < 2 ^ 30)

include hg hd

/-- Blocks other than these two stay as they were. -/
theorem writeFile_other (hig : i / 2048 ≠ g) (hid : i / 2048 ≠ d) :
    (fs.writeFile name g d).disk i = fs.disk i := by
  unfold writeFile
  dsimp only
  rw [disk_write_other hg hig]
  exact disk_write_other hd hid

omit hd in
/-- The block of the file has its name, its hash and the address of its data. -/
theorem writeFile_file : FileAt (fs.writeFile name g d).disk g name d := by
  intro i hi
  unfold writeFile
  dsimp only
  rw [disk_write hg hi]
  exact fillFile_congr (fun j hj => memset_page hj) hi

/-- The data are zeroes. -/
theorem writeFile_data (hne : d ≠ g) (hi : i < 2048) :
    (fs.writeFile name g d).disk (2048 * d + i) = 0 := by
  unfold writeFile
  dsimp only
  rw [disk_write_other hg (by omega)]
  exact (disk_write hd hi).trans (memset_page hi)

end WriteFile

/-- Block `g` is a new file with the data block `d`. -/
structure Created (disk : Bytes) (name : List UInt8) (g d : Nat) (disk' : Bytes) : Prop where
  free : WellFormed disk'
  file_mem : g ∈ freeSet disk
  data_mem : d ∈ freeSet disk
  ne : d ≠ g
  rest : freeSet disk' = freeSet disk \ {g, d}
  counter : disk'.u32 counterAt + 2 = disk.u32 counterAt
  fileBlock : FileAt disk' g name d
  data : ∀ i < 2048, disk' (2048 * d + i) = 0
  untouched : Untouched (freeSet disk) disk disk'

/-- The same over the lists `L` and `L'`, the counter `c` ahead of both. -/
structure Built (c : Nat) (disk : Bytes) (L : Nat → List Nat) (name : List UInt8) (g d : Nat)
    (disk' : Bytes) (L' : Nat → List Nat) : Prop where
  lists : Ahead c disk' L'
  file_mem : g ∈ Extents.region L
  data_mem : d ∈ Extents.region L
  ne : d ≠ g
  rest : Extents.region L' = Extents.region L \ {g, d}
  total : Extents.total 20 L' + 2 = Extents.total 20 L
  fileBlock : FileAt disk' g name d
  data : ∀ i < 2048, disk' (2048 * d + i) = 0
  untouched : Untouched (Extents.region L) disk disk'

variable (name) in
/-- Two blocks are taken, and only they are written. -/
theorem createFileBlock_built (h : Ahead c fs.disk L) (hspace : 2 ≤ Extents.total 20 L) :
    ∃ d L', Built c fs.disk L name (fs.createFileBlock name).1 d (fs.createFileBlock name).2.disk
      L' := by
  -- the block of the file, and after it the block of its data
  rcases mallocBlock_one h with ⟨-, htotal, -⟩ | ⟨L₁, hC⟩
  · omega
  have htotal := hC.total
  rcases mallocBlock_one hC.lists with ⟨-, htotal', -⟩ | ⟨L₂, hC'⟩
  · omega
  have htotal' := hC'.total
  set g := (fs.mallocBlock 0).1 with hgdef
  set fs₁ := (fs.mallocBlock 0).2 with hfs₁
  set d := (fs₁.mallocBlock 0).1 with hddef
  set fs₂ := (fs₁.mallocBlock 0).2 with hfs₂
  have hrest₁ := hC.region
  have hrest₂ := hC'.region
  rw [block_zero] at hrest₁ hrest₂
  have hdmem := hC'.mem
  rw [hrest₁] at hdmem
  obtain ⟨hdfree, hdg⟩ := hdmem
  have hgb := h.extents.region_subset hC.mem
  have hdb := h.extents.region_subset hdfree
  have hdef : fs.createFileBlock name = (g, fs₂.writeFile name g d) := by
    unfold createFileBlock
    exact if_neg hgb.1.ne'
  have hrest : Extents.region L₂ = Extents.region L \ {g, d} := by
    rw [hrest₂, hrest₁, Set.sdiff_sdiff]
    rfl
  -- the writes of the two blocks miss the super block and the free blocks
  have hsuper : ∀ i, 528 ≤ i → i < 612 →
      (fs₂.writeFile name g d).disk i = fs₂.disk i := by
    intro i _ hi
    have hgpos := hgb.1
    have hdpos := hdb.1
    exact writeFile_other hgb.2 hdb.2 (by omega) (by omega)
  have hfree : ∀ i, i / 2048 ∈ Extents.region L₂ →
      (fs₂.writeFile name g d).disk i = fs₂.disk i := by
    intro i hi
    rw [hrest] at hi
    exact writeFile_other hgb.2 hdb.2 (fun heq => hi.2 (Or.inl heq))
      fun heq => hi.2 (Or.inr heq)
  refine ⟨d, L₂, ?_⟩
  rw [hdef]
  dsimp only
  refine ⟨hC'.lists.of_same hsuper hfree, hC.mem, hdfree, hdg, hrest, by omega,
    writeFile_file hgb.2, fun i hi => writeFile_data hgb.2 hdb.2 hdg hi, ?_⟩
  have hsub : Extents.region L₁ ⊆ Extents.region L := hrest₁ ▸ Set.sdiff_subset
  refine (hC.untouched.trans (hC'.untouched.mono hsub)).trans fun i _ hF => ?_
  exact writeFile_other hgb.2 hdb.2 (fun heq => hF (heq ▸ hC.mem)) fun heq => hF (heq ▸ hdfree)

variable (name) in
/-- **`createFileBlock` with two free blocks.** -/
theorem createFileBlock_created (h : WellFormed fs.disk) (hspace : 2 ≤ fs.disk.u32 counterAt) :
    ∃ d, Created fs.disk name (fs.createFileBlock name).1 d (fs.createFileBlock name).2.disk := by
  obtain ⟨L, hL⟩ := h
  rw [hL.counter] at hspace
  obtain ⟨d, L', hB⟩ := createFileBlock_built name (freeLists_iff.mp hL) hspace
  have hL' := freeLists_iff.mpr hB.lists
  have hset := hL.freeSet_eq
  have hset' := hL'.freeSet_eq
  refine ⟨d, ⟨L', hL'⟩, hset ▸ hB.file_mem, hset ▸ hB.data_mem, hB.ne, ?_, ?_, hB.fileBlock, hB.data,
    hset ▸ hB.untouched⟩
  · rw [hset', hset, hB.rest]
  · rw [hL'.counter, hL.counter, hB.total]

variable (name) in
/-- Without a free block nothing happens. -/
theorem createFileBlock_none (h : Ahead c fs.disk L) (hz : Extents.total 20 L = 0) :
    (fs.createFileBlock name).1 = 0 ∧ (fs.createFileBlock name).2.disk = fs.disk := by
  rcases mallocBlock_one h with ⟨hret, -, hsame⟩ | ⟨L', hC⟩
  · have hdef : fs.createFileBlock name = (0, (fs.mallocBlock 0).2) := by
      unfold createFileBlock
      exact if_pos hret
    rw [hdef]
    exact ⟨rfl, hsame⟩
  · have htotal := hC.total
    omega

/-- Without a free block nothing happens. -/
theorem createFileBlock_failed (h : WellFormed fs.disk) (hz : fs.disk.u32 counterAt = 0) :
    (fs.createFileBlock name).1 = 0 ∧ (fs.createFileBlock name).2.disk = fs.disk := by
  obtain ⟨L, hL⟩ := h
  exact createFileBlock_none name (freeLists_iff.mp hL) (hL.counter.symm.trans hz)

variable (name) in
/-- With a single free block, a file is made whose data block is block 0. -/
theorem createFileBlock_last (h : Ahead c fs.disk L) (hone : Extents.total 20 L = 1) :
    (fs.createFileBlock name).1 ∈ Extents.region L ∧
      FileAt (fs.createFileBlock name).2.disk (fs.createFileBlock name).1 name 0 ∧
      ∀ i < 2048, (fs.createFileBlock name).2.disk i = 0 := by
  rcases mallocBlock_one h with ⟨-, htotal, -⟩ | ⟨L₁, hC⟩
  · omega
  have htotal := hC.total
  -- the second call finds the lists empty and returns 0
  have hret : ((fs.mallocBlock 0).2.mallocBlock 0).1 = 0 := by
    rcases mallocBlock_one hC.lists with ⟨hret, -, -⟩ | ⟨L₂, hC'⟩
    · exact hret
    · have htotal' := hC'.total
      omega
  set g := (fs.mallocBlock 0).1 with hgdef
  set fs₁ := (fs.mallocBlock 0).2 with hfs₁
  have hgb := h.extents.region_subset hC.mem
  have hdef : fs.createFileBlock name = (g, (fs₁.mallocBlock 0).2.writeFile name g 0) := by
    have hunfold : fs.createFileBlock name =
        (g, (fs₁.mallocBlock 0).2.writeFile name g (fs₁.mallocBlock 0).1) := by
      unfold createFileBlock
      exact if_neg hgb.1.ne'
    rw [hunfold, hret]
  rw [hdef]
  refine ⟨hC.mem, writeFile_file hgb.2, fun i hi => ?_⟩
  -- so the data block that is cleared is block 0
  have hzero : ((fs₁.mallocBlock 0).2.writeFile name g 0).disk (2048 * 0 + i) = 0 :=
    writeFile_data hgb.2 (by decide) hgb.1.ne hi
  rwa [Nat.mul_zero, Nat.zero_add] at hzero

variable (name) in
/-- With one free block the file is made, and block 0, which the super block is in, is wiped for
its data. -/
theorem createFileBlock_single (h : WellFormed fs.disk) (hone : fs.disk.u32 counterAt = 1) :
    (fs.createFileBlock name).1 ∈ freeSet fs.disk ∧
      FileAt (fs.createFileBlock name).2.disk (fs.createFileBlock name).1 name 0 ∧
      ∀ i < 2048, (fs.createFileBlock name).2.disk i = 0 := by
  obtain ⟨L, hL⟩ := h
  rw [hL.freeSet_eq]
  exact createFileBlock_last name (freeLists_iff.mp hL) (hL.counter.symm.trans hone)

end NorlitFS

end NorlitOS
