import NorlitOS.FileSystem.Accounts
import NorlitOS.FileSystem.Recovery

/-!
# The volume of a new file system

`mkfs` writes the programs, then the super block with empty lists, frees the blocks behind the kernel
and makes the root. The driver that starts from this disk finds the signature and the root. When the
counter of the super block was zero in the page, and there is room for the two blocks of the root,
the disk stands for the volume that has the root and nothing else.
-/

namespace NorlitOS

open Dyadic

namespace NorlitFS

variable {fs fs' : NorlitFS} {img : Images} {mbr disk disk' page : Bytes} {L L' : Nat → List Nat}
  {name : List UInt8} {c d g i n k r len address size psize : Nat}

/-! ## The signature

It is written with the super block, and what comes after that writes behind it. -/

theorem clearLists_byte (hi : i < SuperBlock.freeBlock k) : (clearLists n k fs).page i = fs.page i := by
  induction n generalizing fs k with
  | zero => rfl
  | succ n ih =>
    rw [clearLists, ih (by unfold SuperBlock.freeBlock at hi ⊢; omega)]
    exact Bytes.setU32_of_notMem (Or.inl hi)

theorem initSuperBlock_signed : HasSignature (fs.initSuperBlock psize).disk := by
  intro i hi
  have hoff : 0 + (SECTOR_SIZE + i - SECTOR_SIZE * 1) = i := by omega
  unfold initSuperBlock fileWrite
  dsimp only
  rw [Bytes.copy_of_mem (by omega) (by unfold SECTOR_SIZE; omega), hoff,
    clearLists_byte (by unfold SuperBlock.freeBlock; omega)]
  unfold store memcpy
  dsimp only
  rw [Bytes.setU32_of_notMem (by unfold SuperBlock.size; omega),
    Bytes.copy_of_mem (Nat.zero_le i) (by omega), Nat.sub_zero, Nat.zero_add]

/-- The release loop leaves the two words of the signature. -/
theorem release_byte (hn : n + len ≤ 20) (hi : i < 8) :
    (release n len fs address size).disk (SECTOR_SIZE + i) = fs.disk (SECTOR_SIZE + i) := by
  rcases Nat.lt_or_ge i 4 with hlow | hhigh
  · exact Bytes.eq_of_u32 (release_word hn (by decide) (by decide)) hlow
  · have hword : (release n len fs address size).disk.u32 516 = fs.disk.u32 516 :=
      release_word hn (by decide) (by decide)
    have hbyte := Bytes.eq_of_u32 hword (show i - 4 < 4 by omega)
    rwa [show 516 + (i - 4) = SECTOR_SIZE + i by unfold SECTOR_SIZE; omega] at hbyte

theorem release_signed (hn : n + len ≤ 20) (h : HasSignature fs.disk) :
    HasSignature (release n len fs address size).disk :=
  fun i hi => (release_byte hn hi).trans (h i hi)

theorem format_signed : HasSignature (fs.format img mbr psize).disk := by
  unfold format
  dsimp only
  exact release_signed (Nat.le_refl 20) initSuperBlock_signed

/-! ## A tree with a root only

The smallest tree there is: one file without entries, and no path but the empty one. -/

/-- The tree with the one file `g`, an empty directory. -/
def Tree.single (g d : Nat) (name : List UInt8) : Tree :=
  ⟨[g], fun _ => d, fun _ => name, fun _ => true, fun _ => []⟩

theorem Tree.not_edge_single {a b : Nat} : ¬ (Tree.single g d name).Edge a n b :=
  fun h => List.not_mem_nil h.2

theorem holds_single (hfree : WellFormed disk) (hg : g ∈ blocks \ freeSet disk)
    (hd : d ∈ blocks \ freeSet disk) (hne : d ≠ g) (hfile : FileAt disk g name d)
    (hzero : ∀ i < 2048, disk (2048 * d + i) = 0) :
    Holds (Tree.single g d name) ⟨disk, page, g⟩ where
  free := hfree
  root := List.mem_singleton_self g
  apart := by
    unfold Tree.single
    simpa using hne.symm
  file_used f hf := List.mem_singleton.mp hf ▸ hg
  data_used f _ := hd
  fileBlock f hf := List.mem_singleton.mp hf ▸ hfile
  directory f _ _ := directoryAt_nil hzero
  plain _ _ _ := rfl
  hashes _ _ := List.nodup_nil
  child f _ e he := absurd he List.not_mem_nil
  rooted := ⟨fun a n hE => Tree.not_edge_single hE, fun hE => absurd hE Tree.not_edge_single⟩
  referenced f hf hne := absurd (List.mem_singleton.mp hf) hne

/-! ## `mkfs` and the next start

The disk that `mkfs` leaves holds such a tree, and the driver that starts finds it. -/

/-- The two blocks of the root, and the disk after it. -/
theorem mkfs_built (fs : NorlitFS) (img : Images) (mbr : Bytes) (hp : psize < 2 ^ 32)
    (hlarge : ksize + 4 ≤ psize / 4) (hcounter : leftover img = 0) :
    ∃ L g d disk' L', Ahead 0 (fs.format img mbr psize).disk L ∧
      Extents.region L ⊆ Set.Ico (ksize + 2) (psize / 4) ∧
      (∀ b < 2 ^ 20, b ∈ Set.Ico (ksize + 2) (psize / 4) → b ∈ Extents.region L) ∧
      Built 0 (fs.format img mbr psize).disk L rootName g d disk' L' ∧
      (fs.mkfs img mbr psize).2.disk = disk'.setU32 rootAt g := by
  obtain ⟨L, hA, hsub, hfirst⟩ := format_ahead fs img mbr hp (by omega)
  rw [hcounter] at hA
  have hk := ksize_eq
  have hpair : Set.Ico (ksize + 2) (ksize + 4) ⊆ Extents.region L := by
    intro b hb
    obtain ⟨hlo, hhi⟩ := Set.mem_Ico.mp hb
    exact hfirst b (by omega) (Set.mem_Ico.mpr (by omega))
  have htwo : 2 ≤ Extents.total 20 L := le_total_of_subset hA.toLists hpair
  obtain ⟨d, L', hB⟩ := createFileBlock_built rootName hA htwo
  rcases hcreate : (fs.format img mbr psize).createFileBlock rootName with ⟨g, fs'⟩
  rw [hcreate] at hB
  exact ⟨L, g, d, fs'.disk, L', hA, hsub, hfirst, hB, mkfs_disk hcreate⟩

section Root

variable (hA : Ahead 0 disk L) (hB : Built 0 disk L name g d disk' L')

include hA hB

/-- The store of the root leaves the signature, as the two allocations do. -/
theorem Built.signed (h : HasSignature disk) : HasSignature (disk'.setU32 rootAt g) := by
  intro i hi
  rw [Bytes.setU32_of_notMem (by unfold rootAt SuperBlock.root SECTOR_SIZE; omega),
    hB.untouched _ (Or.inl (by unfold SECTOR_SIZE; omega))
      (by rw [show (SECTOR_SIZE + i) / 2048 = 0 by unfold SECTOR_SIZE; omega]
          exact hA.toLists.not_free_zero)]
  exact h i hi

theorem Built.data_zero : ∀ i < 2048, disk'.setU32 rootAt g (2048 * d + i) = 0 := by
  intro i hi
  have hpos := (hA.extents.region_subset hB.data_mem).1
  rw [Bytes.setU32_of_notMem (by unfold rootAt SuperBlock.root SECTOR_SIZE; omega)]
  exact hB.data i hi

theorem Built.holds : Holds (Tree.single g d name) ⟨disk'.setU32 rootAt g, page, g⟩ := by
  obtain ⟨hahead, hfile⟩ := hB.setRoot hA.toLists
  have hfree := freeLists_iff.mpr hahead
  have hused : ∀ b ∈ Extents.region L, b = g ∨ b = d →
      b ∈ blocks \ freeSet (disk'.setU32 rootAt g) := by
    intro b hb heq
    refine ⟨hA.extents.region_subset hb, ?_⟩
    rw [hfree.freeSet_eq, hB.rest]
    exact fun hmem => hmem.2 heq
  exact holds_single ⟨L', hfree⟩ (hused g hB.file_mem (Or.inl rfl))
    (hused d hB.data_mem (Or.inr rfl)) hB.ne hfile (hB.data_zero hA)

end Root

/-- **A new file system.** The driver that starts after `mkfs` finds the volume with the root only;
up to `2 ^ 20` blocks, all of them behind the kernel are free but the two of the root. -/
theorem mkfs_volume (fs : NorlitFS) (img : Images) (mbr page : Bytes) (r : Nat) (hp : psize < 2 ^ 32)
    (hlarge : ksize + 4 ≤ psize / 4) (hcounter : leftover img = 0)
    (hdisk : disk = (fs.mkfs img mbr psize).2.disk) :
    ∃ fs' V, (⟨disk, page, r⟩ : NorlitFS).mount = some fs' ∧
      Mounted fs' ∧ Represents psize fs' V ∧ V.Bare fs'.root ∧
        (psize / 4 ≤ 2 ^ 20 → V.free + (ksize + 4) = psize / 4) := by
  obtain ⟨L, g, d, disk', L', hA, hsub, hfirst, hB, hbuilt⟩ :=
    mkfs_built fs img mbr hp hlarge hcounter
  rw [hdisk.trans hbuilt]
  have hsigned := hB.signed hA format_signed
  have hword := hB.root_word hA.toLists
  set fs₁ : NorlitFS := ⟨disk'.setU32 rootAt g, page, r⟩ with hfs₁
  have hmount : fs₁.mount = some { fs₁.fileRead 1 1 with root := g } := by
    rw [mount_eq hsigned]
    exact congrArg (fun g => some { fs₁.fileRead 1 1 with root := g }) hword
  have hholds : Holds (Tree.single g d rootName) { fs₁.fileRead 1 1 with root := g } := hB.holds hA
  have hfree := freeLists_iff.mpr (hB.setRoot hA.toLists).1
  -- a free block lies in the partition
  have hfits : ∀ b ∈ Extents.region L, Fits psize b := by
    intro b hb
    have hlt := (Set.mem_Ico.mp (hsub hb)).2
    unfold Fits
    omega
  refine ⟨_, hholds.volume 0, hmount, ⟨hsigned, hword⟩, ⟨_, 0, hholds, rfl, ?_, ?_⟩, ⟨resolve_of_nil rfl, ?_⟩,
    fun hle => ?_⟩
  · intro f _ _ i hi
    exact hB.data_zero hA i hi
  · refine ⟨fun b hb => ?_, fun f hf => ?_, fun f _ => hfits d hB.data_mem⟩
    · change b ∈ freeSet (disk'.setU32 rootAt g) at hb
      rw [hfree.freeSet_eq, hB.rest] at hb
      exact hfits b hb.1
    · rw [List.mem_singleton.mp hf]
      exact hfits g hB.file_mem
  · exact fun h => Bool.false_ne_true h.symm
  -- the counter is the number of the blocks behind the kernel, without those of the root
  · have hrange : Set.Ico (ksize + 2) (psize / 4) ⊆ Extents.region L := by
      intro b hb
      exact hfirst b ((Set.mem_Ico.mp hb).2.trans_le hle) hb
    have hlow := le_total_of_subset hA.toLists hrange
    have hhigh := total_le_of_subset hA.toLists hsub
    have htotal := hB.total
    change (disk'.setU32 rootAt g).u32 counterAt + (ksize + 4) = psize / 4
    rw [hfree.counter]
    omega

/-- The same on a partition of zeroes. -/
theorem mkfs_volume_zero : ∃ disk fs' V, disk = (blank.mkfs noImages (fun _ => 0) 131072).2.disk ∧
    (⟨disk, fun _ => 0, 0⟩ : NorlitFS).mount = some fs' ∧ Represents 131072 fs' V ∧
      V.Bare fs'.root ∧ V.free + (ksize + 4) = 131072 / 4 := by
  generalize hdisk : (blank.mkfs noImages (fun _ => 0) 131072).2.disk = disk
  obtain ⟨fs', V, hmount, -, hR, hbare, hfree⟩ := mkfs_volume blank noImages (fun _ => 0)
    (fun _ => 0) 0 (by decide) (by decide) (by decide) hdisk.symm
  exact ⟨disk, fs', V, rfl, hmount, hR, hbare, hfree (by decide)⟩

end NorlitFS

end NorlitOS
