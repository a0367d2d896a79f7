import NorlitOS.FileSystem.Disk
import NorlitOS.Lib.Chain
import NorlitOS.Lib.Extents
import NorlitOS.Lib.Run

/-!
# The free blocks of NorlitFS

The super block holds the heads of twenty lists; the link of a free extent is the first word of
its first block. `FreeLists disk L` says that the lists spell out `L`, that their extents are
aligned and apart, and that the counter is their total. `unlink` and `freeBlock` pop and push one
extent; `mallocBlock` is one pop, and pushes for the halves it does not need.
-/

namespace NorlitOS

open Dyadic

namespace NorlitFS

variable {fs fs' : NorlitFS} {disk disk' : Bytes} {L : Nat → List Nat} {l : List Nat}
  {c k len base ret rt b i : Nat} {F : Set Nat}

/-! ## The words of the lists

All there is of the lists on the disk are the heads in the super block and the first word of each
free extent. `Lists` says what they spell out, `FreeLists` adds the counter. An intermediate
state, where the counter has to catch up, is `Ahead`. -/

/-- Where the head of a list is on the disk. -/
def headAt (len : Nat) : Nat := SECTOR_SIZE + SuperBlock.freeBlock len

/-- Where the counter is on the disk. -/
def counterAt : Nat := SECTOR_SIZE + SuperBlock.freeSize

/-- The blocks an extent may hold: those that have sectors, except the one of the super block. -/
def blocks : Set Nat := {b | 0 < b ∧ b < 2 ^ 30}

/-- A head, or the link of a free extent. -/
def link (disk : Bytes) : Slot Nat → Nat
  | .head len => disk.u32 (headAt len)
  | .link b => disk.u32 (SECTOR_SIZE * sector b)

/-- A block number below `2 ^ 30` is not cut off by the multiplication that makes it a sector. -/
theorem sector_of_lt (h : b < 2 ^ 30) : SECTOR_SIZE * sector b = 2048 * b := by
  unfold SECTOR_SIZE sector
  rw [Nat.mod_eq_of_lt (by omega)]
  omega

/-- The counter is the fifth word of the super block. -/
theorem counterAt_eq : counterAt = 528 := rfl

theorem headAt_eq : headAt len = 532 + 4 * len := by
  unfold headAt SECTOR_SIZE SuperBlock.freeBlock
  omega

/-- There are as many blocks as 32-bit numbers of sectors allow. -/
theorem blocks_finite : blocks.Finite := by
  apply (Set.finite_Iio (2 ^ 30)).subset
  intro b hb
  exact hb.2

/-- So the counter does not wrap around. -/
theorem blocks_ncard_lt : blocks.ncard < 2 ^ 32 := by
  have hsub : blocks ⊆ ↑(Finset.range (2 ^ 30)) := by
    intro b hb
    rw [Finset.coe_range]
    exact hb.2
  have hle := Set.ncard_le_ncard hsub (Finset.finite_toSet _)
  rw [Set.ncard_coe_finset, Finset.card_range] at hle
  omega

/-- The lists of the super block are `L`. -/
structure Lists (disk : Bytes) (L : Nat → List Nat) : Prop where
  extents : Extents 20 blocks L
  chain : ∀ k < 20, Chain (link disk) 0 (.head k) (L k)

/-- They are, and the counter is what they hold. -/
structure FreeLists (disk : Bytes) (L : Nat → List Nat) : Prop extends Lists disk L where
  counter : disk.u32 counterAt = Extents.total 20 L

/-- They are, and the counter is `c` ahead of what they hold. -/
structure Ahead (c : Nat) (disk : Bytes) (L : Nat → List Nat) : Prop extends Lists disk L where
  counter : disk.u32 counterAt = (c + Extents.total 20 L) % 2 ^ 32

/-- The blocks of the extents on the lists. -/
def freeSet (disk : Bytes) : Set Nat :=
  {x | ∃ k < 20, ∃ l, Chain (link disk) 0 (.head k) l ∧ ∃ a ∈ l, x ∈ block k a}

/-- The free set of the disk is the union of the listed extents. -/
theorem Lists.freeSet_eq (h : Lists disk L) : freeSet disk = Extents.region L := by
  ext x
  constructor
  · intro hx
    obtain ⟨k, hk, l, hl, a, ha, hx⟩ := hx
    exact ⟨k, a, (h.chain k hk).unique hl ▸ ha, hx⟩
  · intro hx
    obtain ⟨k, a, ha, hx⟩ := hx
    exact ⟨k, h.extents.order_lt ha, L k, h.chain k (h.extents.order_lt ha), a, ha, hx⟩

/-- The extents are apart, so their total is below the number of blocks. -/
theorem Lists.total_lt (h : Lists disk L) : Extents.total 20 L < 2 ^ 32 :=
  (h.extents.total_le blocks_finite).trans_lt blocks_ncard_lt

/-- A counter that is right is one that is ahead by nothing. -/
theorem freeLists_iff : FreeLists disk L ↔ Ahead 0 disk L := by
  constructor
  · intro h
    refine ⟨h.toLists, ?_⟩
    rw [h.counter, Nat.zero_add, Nat.mod_eq_of_lt h.toLists.total_lt]
  · intro h
    refine ⟨h.toLists, ?_⟩
    rw [h.counter, Nat.zero_add, Nat.mod_eq_of_lt h.toLists.total_lt]

/-- The first block of a listed extent. -/
theorem Lists.mem_blocks (h : Lists disk L) (hb : b ∈ L k) : b ∈ blocks :=
  h.extents.inside k b hb (self_mem_block k b)

/-- The head of a list is zero exactly where the list is empty. -/
theorem Lists.head_eq_zero_iff (h : Lists disk L) (hk : k < 20) :
    disk.u32 (headAt k) = 0 ↔ L k = [] := by
  have hc := h.chain k hk
  cases hl : L k with
  | nil =>
    rw [hl] at hc
    exact iff_of_true hc rfl
  | cons a l =>
    rw [hl] at hc
    simpa [show disk.u32 (headAt k) = a from hc.1] using hc.2.1

/-- Otherwise it is the first extent. -/
theorem Lists.head_eq (h : Lists disk L) (hk : k < 20) (hl : L k = b :: l) :
    disk.u32 (headAt k) = b := by
  have hc := h.chain k hk
  rw [hl] at hc
  exact hc.1

/-! ## What the two edits write

`unlink` writes the head and the counter. `freeBlock` writes both as well, and then the first
sector of the extent, for which it uses the page that still has the super block in it. -/

/-- The head becomes the link of the extent, and the counter goes down. -/
theorem unlink_disk (hlen : len < 20) : (fs.unlink len ret).disk =
    (fs.disk.setU32 (headAt len) (fs.disk.u32 (SECTOR_SIZE * sector ret))).setU32 counterAt
      (sub32 (fs.disk.u32 counterAt) (2 ^ len)) := by
  have hnxt : (fs.disk.copy (SECTOR_SIZE * sector ret) fs.page 0 (SECTOR_SIZE * 1)).u32 0 =
      fs.disk.u32 (SECTOR_SIZE * sector ret) :=
    Bytes.u32_copy_of_mem (by omega) (by decide)
  have hcounter : ∀ page v, (((fs.disk.copy (SECTOR_SIZE * 1) page 0 (SECTOR_SIZE * 1)).setU32
      (SuperBlock.freeBlock len) v).u32 SuperBlock.freeSize) = fs.disk.u32 counterAt := by
    intro page v
    rw [Bytes.u32_setU32_of_ne (by unfold SuperBlock.freeBlock SuperBlock.freeSize; omega)]
    exact Bytes.u32_copy_of_mem (by omega) (by decide)
  unfold unlink fileWrite store fileRead
  simp only [hnxt, hcounter]
  rw [Bytes.copy_setU32 (by decide), Bytes.copy_setU32 (by
    unfold SuperBlock.freeBlock SECTOR_SIZE
    omega), Bytes.copy_back]
  rfl

variable (fs base) in
/-- The head becomes the extent, the counter goes up, and the extent gets a page whose first word
is the old head. -/
theorem freeBlock_disk (hlen : len < 20) : ∃ page : Bytes,
    page.u32 0 = fs.disk.u32 (headAt len) ∧ (fs.freeBlock base len).disk =
      page.copy 0 ((fs.disk.setU32 counterAt (add32 (fs.disk.u32 counterAt) (2 ^ len))).setU32
        (headAt len) base) (SECTOR_SIZE * sector base) SECTOR_SIZE := by
  have hcid : (fs.disk.copy (SECTOR_SIZE * 1) fs.page 0 (SECTOR_SIZE * 1)).u32
      (SuperBlock.freeBlock len) = fs.disk.u32 (headAt len) :=
    Bytes.u32_copy_of_mem (by omega) (by unfold SuperBlock.freeBlock SECTOR_SIZE; omega)
  have hcounter : (fs.disk.copy (SECTOR_SIZE * 1) fs.page 0 (SECTOR_SIZE * 1)).u32
      SuperBlock.freeSize = fs.disk.u32 counterAt :=
    Bytes.u32_copy_of_mem (by omega) (by decide)
  -- the page holds the sector with the super block, so a store to it is one to the disk
  have hsuper : ∀ v, (((fs.disk.copy (SECTOR_SIZE * 1) fs.page 0 (SECTOR_SIZE * 1)).setU32
      SuperBlock.freeSize v).setU32 (SuperBlock.freeBlock len) base).copy 0 fs.disk (SECTOR_SIZE * 1)
      (SECTOR_SIZE * 1) = (fs.disk.setU32 counterAt v).setU32 (headAt len) base := by
    intro v
    rw [Bytes.copy_setU32 (by unfold SuperBlock.freeBlock SECTOR_SIZE; omega),
      Bytes.copy_setU32 (by decide), Bytes.copy_back]
    rfl
  refine ⟨(((fs.disk.copy (SECTOR_SIZE * 1) fs.page 0 (SECTOR_SIZE * 1)).setU32
    SuperBlock.freeSize (add32 (fs.disk.u32 counterAt) (2 ^ len))).setU32 (SuperBlock.freeBlock len)
    base).setU32 0 (fs.disk.u32 (headAt len)), Bytes.u32_setU32 Bytes.u32_lt, ?_⟩
  unfold freeBlock fileWrite store fileRead
  simp only [hcid, hcounter, hsuper]
  rfl

/-! ## The edits on the lists

What the edits do to the words of the lists, they do to the lists: one extent less, or one more.
The other nineteen lists are chains of words that have not been written. -/

/-- What an edit of the lists leaves alone: the super block beside its counter and heads, and the
blocks outside `F`. -/
def Untouched (F : Set Nat) (disk disk' : Bytes) : Prop :=
  ∀ i, (i < 528 ∨ 612 ≤ i) → i / 2048 ∉ F → disk' i = disk i

theorem Untouched.refl : Untouched F disk disk := fun _ _ _ => rfl

theorem Untouched.trans {disk₁ disk₂ disk₃ : Bytes} (h₁ : Untouched F disk₁ disk₂)
    (h₂ : Untouched F disk₂ disk₃) : Untouched F disk₁ disk₃ :=
  fun i hi hF => (h₂ i hi hF).trans (h₁ i hi hF)

/-- The set of blocks that may change can be larger. -/
theorem Untouched.mono {G : Set Nat} (h : Untouched F disk disk') (hFG : F ⊆ G) :
    Untouched G disk disk' :=
  fun i hi hG => h i hi fun hF => hG (hFG hF)

/-- The block of the super block is never listed. -/
theorem Lists.not_free_zero (h : Lists disk L) : 0 ∉ Extents.region L :=
  fun hz => absurd (h.extents.region_subset hz).1 (Nat.lt_irrefl 0)

/-- The counter goes down without regard to how often it has wrapped. -/
theorem sub32_mod {a p : Nat} (hp : p ≤ 2 ^ 32) : sub32 ((a + p) % 2 ^ 32) p = a % 2 ^ 32 := by
  unfold sub32
  omega

theorem add32_mod {a p : Nat} : add32 (a % 2 ^ 32) p = (a + p) % 2 ^ 32 := Nat.mod_add_mod _ _ _

/-- `unlink` pops the head of a list. -/
theorem Ahead.unlink (h : Ahead c fs.disk L) (hlen : len < 20) (hl : L len = ret :: l) :
    Ahead c (fs.unlink len ret).disk (Function.update L len l) := by
  have hmem : ret ∈ L len := hl ▸ List.mem_cons_self
  -- the links stay; of the heads only the one of this list changes
  have hsector : ∀ j, ∀ b ∈ L j, (fs.unlink len ret).disk.u32 (SECTOR_SIZE * sector b) =
      fs.disk.u32 (SECTOR_SIZE * sector b) := by
    intro j b hb
    obtain ⟨hpos, hlt⟩ := h.mem_blocks hb
    rw [unlink_disk hlen, sector_of_lt hlt, Bytes.u32_setU32_of_ne (by rw [counterAt_eq]; omega),
      Bytes.u32_setU32_of_ne (by rw [headAt_eq]; omega)]
  have hother : ∀ k ≠ len, (fs.unlink len ret).disk.u32 (headAt k) = fs.disk.u32 (headAt k) := by
    intro k hk
    rw [unlink_disk hlen, Bytes.u32_setU32_of_ne (by rw [counterAt_eq, headAt_eq]; omega),
      Bytes.u32_setU32_of_ne (by rw [headAt_eq, headAt_eq]; omega)]
  have hself : (fs.unlink len ret).disk.u32 (headAt len) =
      fs.disk.u32 (SECTOR_SIZE * sector ret) := by
    rw [unlink_disk hlen, Bytes.u32_setU32_of_ne (by rw [counterAt_eq, headAt_eq]; omega),
      Bytes.u32_setU32 Bytes.u32_lt]
  refine ⟨⟨h.extents.pop hl, fun k hk => ?_⟩, ?_⟩
  · rcases eq_or_ne k len with rfl | hk'
    · have hc := h.chain k hk
      rw [hl] at hc
      rw [Function.update_self]
      exact hc.2.2.congr hself fun a ha => hsector k a (hl ▸ List.mem_cons_of_mem ret ha)
    · rw [Function.update_of_ne hk']
      exact (h.chain k hk).congr (hother k hk') fun a ha => hsector k a ha
  · have htotal := Extents.total_pop hlen hl
    have hpow : 2 ^ len ≤ 2 ^ 32 := Nat.pow_le_pow_right (by decide) (by omega)
    rw [unlink_disk hlen, h.counter, htotal, ← Nat.add_assoc, sub32_mod hpow,
      Bytes.u32_setU32 (Nat.mod_lt _ (by decide))]

/-- `unlink` writes no block but that of the super block. -/
theorem unlink_untouched (hlen : len < 20) : Untouched F fs.disk (fs.unlink len ret).disk := by
  intro i hi _
  rw [unlink_disk hlen, Bytes.setU32_of_notMem (by rw [counterAt_eq]; omega),
    Bytes.setU32_of_notMem (by rw [headAt_eq]; omega)]

/-- `freeBlock` pushes an extent. -/
theorem Lists.freeBlock (h : Lists fs.disk L) (hlen : len < 20) (ha : 2 ^ len ∣ base)
    (hin : block len base ⊆ blocks) (hd : Disjoint (block len base) (Extents.region L)) :
    Lists (fs.freeBlock base len).disk (Function.update L len (base :: L len)) := by
  obtain ⟨hpos, hlt⟩ := hin (self_mem_block len base)
  obtain ⟨page, hlink, hdisk⟩ := freeBlock_disk fs base hlen
  rw [sector_of_lt hlt] at hdisk
  -- the links of the other free blocks stay
  have hsector : ∀ j, ∀ b ∈ L j, (fs.freeBlock base len).disk.u32 (SECTOR_SIZE * sector b) =
      fs.disk.u32 (SECTOR_SIZE * sector b) := by
    intro j b hb
    obtain ⟨hpos', hlt'⟩ := h.mem_blocks hb
    have hne : b ≠ base := fun heq => Set.disjoint_left.mp hd (self_mem_block len base)
      (heq ▸ Extents.block_subset_region hb (self_mem_block j b))
    rw [hdisk, sector_of_lt hlt', Bytes.u32_copy_of_notMem (by unfold SECTOR_SIZE; omega),
      Bytes.u32_setU32_of_ne (by rw [headAt_eq]; omega),
      Bytes.u32_setU32_of_ne (by rw [counterAt_eq]; omega)]
  have hother : ∀ k < 20, k ≠ len →
      (fs.freeBlock base len).disk.u32 (headAt k) = fs.disk.u32 (headAt k) := by
    intro k hk hne
    rw [hdisk, Bytes.u32_copy_of_notMem (by rw [headAt_eq]; omega),
      Bytes.u32_setU32_of_ne (by rw [headAt_eq, headAt_eq]; omega),
      Bytes.u32_setU32_of_ne (by rw [counterAt_eq, headAt_eq]; omega)]
  have hself : (fs.freeBlock base len).disk.u32 (headAt len) = base := by
    rw [hdisk, Bytes.u32_copy_of_notMem (by rw [headAt_eq]; omega), Bytes.u32_setU32 (by omega)]
  -- the new block points to the old head
  have hnext : (fs.freeBlock base len).disk.u32 (SECTOR_SIZE * sector base) =
      fs.disk.u32 (headAt len) := by
    rw [hdisk, sector_of_lt hlt, Bytes.u32_copy_of_mem (by omega) (by unfold SECTOR_SIZE; omega),
      Nat.sub_self, Nat.add_zero, hlink]
  refine ⟨h.extents.push hlen ha hin hd, fun k hk => ?_⟩
  rcases eq_or_ne k len with rfl | hk'
  · rw [Function.update_self]
    exact ⟨hself, by omega, (h.chain k hk).congr hnext fun a ha => hsector k a ha⟩
  · rw [Function.update_of_ne hk']
    exact (h.chain k hk).congr (hother k hk hk') fun a ha => hsector k a ha

/-- `freeBlock` counts what it lists. -/
theorem Ahead.freeBlock (h : Ahead c fs.disk L) (hlen : len < 20) (ha : 2 ^ len ∣ base)
    (hin : block len base ⊆ blocks) (hd : Disjoint (block len base) (Extents.region L)) :
    Ahead c (fs.freeBlock base len).disk (Function.update L len (base :: L len)) := by
  refine ⟨h.toLists.freeBlock hlen ha hin hd, ?_⟩
  obtain ⟨hpos, hlt⟩ := hin (self_mem_block len base)
  obtain ⟨page, -, hdisk⟩ := freeBlock_disk fs base hlen
  rw [hdisk, sector_of_lt hlt, Bytes.u32_copy_of_notMem (by rw [counterAt_eq]; omega),
    Bytes.u32_setU32_of_ne (by rw [counterAt_eq, headAt_eq]; omega), h.counter, add32_mod,
    Bytes.u32_setU32 (Nat.mod_lt _ (by decide)), Extents.total_push hlen, Nat.add_assoc]

/-- Of the extent only the first block is written. -/
theorem freeBlock_untouched (hlen : len < 20) (hbase : base ∈ F) (hlt : base < 2 ^ 30) :
    Untouched F fs.disk (fs.freeBlock base len).disk := by
  obtain ⟨page, -, hdisk⟩ := freeBlock_disk fs base hlen
  intro i hi hF
  have hne : i / 2048 ≠ base := fun heq => hF (heq ▸ hbase)
  rw [hdisk, sector_of_lt hlt, Bytes.copy_of_notMem (by unfold SECTOR_SIZE; omega),
    Bytes.setU32_of_notMem (by rw [headAt_eq]; omega),
    Bytes.setU32_of_notMem (by rw [counterAt_eq]; omega)]

/-! ## `mallocBlock`

The list of the order is tried first, and then those of larger orders from below. An extent from
one of these is halved down to the order, and the upper halves are given back with `freeBlock`. -/

/-- The upper halves of `rt` go back, from the largest down to the order asked for. Induction on
the order: each round frees one half and keeps the other. -/
theorem freeHalves_spec {m : Nat} (h : Ahead c fs.disk L) (hm : m ≤ 20) (hlen : len ≤ m)
    (ha : 2 ^ m ∣ rt) (hin : block m rt ⊆ blocks) (hd : Disjoint (block m rt) (Extents.region L)) :
    ∃ L', Ahead c (fs.freeHalves rt len m).disk L' ∧
      Extents.region L' = Extents.region L ∪ (block m rt \ block len rt) ∧
      Extents.total 20 L' + 2 ^ len = Extents.total 20 L + 2 ^ m ∧
      Untouched (block m rt) fs.disk (fs.freeHalves rt len m).disk := by
  -- on the order of what is left: each round frees the upper half of it
  induction m generalizing fs L with
  | zero =>
    obtain rfl : len = 0 := by omega
    exact ⟨L, h, by simp, rfl, Untouched.refl⟩
  | succ m ih =>
    rcases Nat.lt_or_eq_of_le hlen with hlt | rfl
    · have hle : len ≤ m := by omega
      obtain ⟨hunion, hhalves⟩ := block_halves ha
      have hlo : block m rt ⊆ block (m + 1) rt := hunion ▸ Set.subset_union_left
      have hhi : block m (rt + 2 ^ m) ⊆ block (m + 1) rt := hunion ▸ Set.subset_union_right
      have ham : 2 ^ m ∣ rt := (pow_dvd_pow 2 (Nat.le_succ m)).trans ha
      have hbase := hin (hhi (self_mem_block m (rt + 2 ^ m)))
      have hadd : add32 rt (2 ^ m) = rt + 2 ^ m := add32_of_lt (by
        have hbound := hbase.2
        omega)
      -- the upper half goes to the list of its order
      have hfree : Ahead c (fs.freeBlock (rt + 2 ^ m) m).disk
          (Function.update L m ((rt + 2 ^ m) :: L m)) :=
        h.freeBlock (by omega) (Nat.dvd_add ham dvd_rfl) (hhi.trans hin) (hd.mono_left hhi)
      have hrest : Disjoint (block m rt) (Extents.region (Function.update L m ((rt + 2 ^ m) :: L m))) := by
        rw [Extents.region_push, Set.disjoint_union_right]
        exact ⟨hd.mono_left hlo, hhalves⟩
      obtain ⟨L', hL', hregion, htotal, hkept⟩ :=
        ih hfree (by omega) hle ham (hlo.trans hin) hrest
      rw [freeHalves, if_pos hle, hadd]
      refine ⟨L', hL', ?_, ?_, ?_⟩
      · -- the half that was freed, and what the rounds below have freed of the other
        have hsmall : Disjoint (block m (rt + 2 ^ m)) (block len rt) :=
          (hhalves.mono_left (block_mono hle rt)).symm
        rw [hregion, Extents.region_push, hunion, Set.union_sdiff_distrib,
          hsmall.sdiff_eq_left, Set.union_assoc, Set.union_comm (block m (rt + 2 ^ m))]
      · rw [htotal, Extents.total_push (by omega), pow_succ]
        omega
      · exact (freeBlock_untouched (by omega) (hhi (self_mem_block m _)) hbase.2).trans
          (hkept.mono hlo)
    · rw [freeHalves, if_neg (by omega)]
      exact ⟨L, h, by simp, rfl, Untouched.refl⟩

/-- The list heads as `mallocBlock` reads them. -/
theorem page_freeBlock (hk : k < 20) : (fs.fileRead 1 1).page.u32 (SuperBlock.freeBlock k) =
    fs.disk.u32 (headAt k) :=
  Bytes.u32_copy_of_mem (by omega) (by unfold SuperBlock.freeBlock SECTOR_SIZE; omega)

/-- An extent of order `len` is taken out of the lists. -/
structure Cut (c : Nat) (disk : Bytes) (L : Nat → List Nat) (len ret : Nat) (disk' : Bytes)
    (L' : Nat → List Nat) : Prop where
  lists : Ahead c disk' L'
  aligned : 2 ^ len ∣ ret
  wasFree : block len ret ⊆ Extents.region L
  region : Extents.region L' = Extents.region L \ block len ret
  total : Extents.total 20 L' + 2 ^ len = Extents.total 20 L
  untouched : Untouched (Extents.region L) disk disk'

/-- The same with a counter that is right. -/
structure Taken (disk : Bytes) (L : Nat → List Nat) (len ret : Nat) (disk' : Bytes)
    (L' : Nat → List Nat) : Prop where
  lists : FreeLists disk' L'
  aligned : 2 ^ len ∣ ret
  wasFree : block len ret ⊆ Extents.region L
  region : Extents.region L' = Extents.region L \ block len ret
  total : Extents.total 20 L' + 2 ^ len = Extents.total 20 L
  untouched : Untouched (Extents.region L) disk disk'

/-- What is taken was free, so it is not the block of the super block, and the result of a success
is not that of a failure. -/
theorem Taken.ne_zero {L' : Nat → List Nat} (hT : Taken disk L len ret disk' L')
    (h : FreeLists disk L) : ret ≠ 0 := by
  intro hz
  exact h.not_free_zero (hz ▸ hT.wasFree (self_mem_block len ret))

/-- The first extent of a list that is not empty is taken off and cut down. -/
theorem Ahead.cut (h : Ahead c fs.disk L) (hk : k < 20) (hlen : len ≤ k) (hl : L k = rt :: l) :
    ∃ L', Cut c fs.disk L len rt ((fs.unlink k rt).freeHalves rt len k).disk L' := by
  have hmem : rt ∈ L k := hl ▸ List.mem_cons_self
  have hcov : block k rt ⊆ Extents.region L := Extents.block_subset_region hmem
  have ha := h.extents.aligned k rt hmem
  have hpop := h.extents.region_pop hl
  obtain ⟨L', hL', hregion, htotal, hkept⟩ := freeHalves_spec (h.unlink hk hl) hk.le hlen ha
    (h.extents.inside k rt hmem) (by rw [hpop]; exact Set.disjoint_sdiff_right)
  have hsmall := block_mono hlen rt
  refine ⟨L', hL', (pow_dvd_pow 2 hlen).trans ha, hsmall.trans hcov, ?_, ?_, ?_⟩
  · rw [hregion, hpop]
    ext x
    simp only [Set.mem_union, Set.mem_sdiff]
    have hx := @hcov x
    have hx' := @hsmall x
    tauto
  · rw [htotal, Extents.total_pop hk hl]
  · exact (unlink_untouched hk).trans (hkept.mono hcov)

/-- **`mallocBlock`.** Nothing of the order or above is free and nothing changes, or an extent of
the order is taken. -/
theorem mallocBlock_cut (h : Ahead c fs.disk L) (hlen : len < 20) :
    ((fs.mallocBlock len).1 = 0 ∧ (∀ k, len ≤ k → L k = []) ∧
      (fs.mallocBlock len).2.disk = fs.disk) ∨
    ∃ L', Cut c fs.disk L len (fs.mallocBlock len).1 (fs.mallocBlock len).2.disk L' := by
  have hread : Ahead c (fs.fileRead 1 1).disk L := h
  unfold mallocBlock
  dsimp only
  simp only [page_freeBlock hlen]
  cases hl : L len with
  | cons ret l =>
    -- the list of the order itself is not empty
    have hhead := h.head_eq hlen hl
    have hne : ret ≠ 0 := (h.mem_blocks (hl ▸ List.mem_cons_self)).1.ne'
    rw [hhead, if_neg hne]
    obtain ⟨L', hT⟩ := hread.cut hlen (Nat.le_refl len) hl
    have hself : ((fs.fileRead 1 1).unlink len ret).freeHalves ret len len =
        (fs.fileRead 1 1).unlink len ret := by
      cases len with
      | zero => rfl
      | succ len => exact if_neg (by omega)
    rw [hself] at hT
    exact Or.inr ⟨L', hT⟩
  | nil =>
    rw [if_pos ((h.head_eq_zero_iff hlen).mpr hl)]
    -- the search for a larger order, which fails only if all of these lists are empty
    cases hfind : (List.range' (len + 1) (19 - len)).find? fun l2 =>
        decide ((fs.fileRead 1 1).page.u32 (SuperBlock.freeBlock l2) ≠ 0) with
    | none =>
      refine Or.inl ⟨rfl, fun k hk => ?_, rfl⟩
      rcases Nat.eq_or_lt_of_le hk with rfl | hlt
      · exact hl
      · rcases Nat.lt_or_ge k 20 with hk20 | hk20
        · have hnone := List.find?_eq_none.mp hfind k (List.mem_range'_1.mpr ⟨hlt, by omega⟩)
          rw [page_freeBlock hk20] at hnone
          exact (h.head_eq_zero_iff hk20).mp (by simpa using hnone)
        · exact h.extents.beyond k hk20
    | some l2 =>
      have hmem := List.mem_range'_1.mp (List.mem_of_find?_eq_some hfind)
      have hk : l2 < 20 := by omega
      have hne := List.find?_some hfind
      simp only [page_freeBlock hk, decide_eq_true_eq] at hne
      obtain ⟨rt, l, hl2⟩ := List.exists_cons_of_ne_nil
        fun hnil => hne ((h.head_eq_zero_iff hk).mpr hnil)
      have hhead : (fs.fileRead 1 1).page.u32 (SuperBlock.freeBlock l2) = rt :=
        (page_freeBlock hk).trans (h.head_eq hk hl2)
      simp only [hhead]
      exact Or.inr (hread.cut hk (by omega) hl2)

/-- With a counter that is right at the start it is right at the end. -/
theorem mallocBlock_spec (h : FreeLists fs.disk L) (hlen : len < 20) :
    ((fs.mallocBlock len).1 = 0 ∧ (∀ k, len ≤ k → L k = []) ∧
      (fs.mallocBlock len).2.disk = fs.disk) ∨
    ∃ L', Taken fs.disk L len (fs.mallocBlock len).1 (fs.mallocBlock len).2.disk L' := by
  rcases mallocBlock_cut (freeLists_iff.mp h) hlen with hfailed | ⟨L', hC⟩
  · exact Or.inl hfailed
  · exact Or.inr ⟨L', freeLists_iff.mpr hC.lists, hC.aligned, hC.wasFree, hC.region, hC.total,
      hC.untouched⟩

/-! ## Runs of the allocator

The state is the disk. A call is admitted if it names an order of the lists and, for `freeBlock`,
an extent of which no block is free; then it keeps the lists and does what it should. -/

/-- The lists of the disk are well formed. -/
def WellFormed (disk : Bytes) : Prop := ∃ L, FreeLists disk L

/-- A call of the allocator. -/
inductive Call where
  | mallocBlock (len : Nat)
  | freeBlock (base len : Nat)

/-- The calls the callers may make: orders of the lists, and of `freeBlock` only an aligned extent
of blocks none of which is free. -/
def Admits (disk : Bytes) : Call → Prop
  | .mallocBlock len => len < 20
  | .freeBlock base len =>
    len < 20 ∧ 2 ^ len ∣ base ∧ block len base ⊆ blocks ∧ Disjoint (block len base) (freeSet disk)

/-- What a call leaves. -/
def after (fs : NorlitFS) : Call → NorlitFS
  | .mallocBlock len => (fs.mallocBlock len).2
  | .freeBlock base len => fs.freeBlock base len

/-- One call. -/
def Allocates (fs : NorlitFS) (c : Call) (fs' : NorlitFS) : Prop :=
  Admits fs.disk c ∧ fs' = fs.after c

/-- What is asked of `mallocBlock(len)` that returns `ret`. -/
structure Malloced (disk : Bytes) (len ret : Nat) (disk' : Bytes) : Prop where
  failed : ret = 0 → (∀ k < 20, len ≤ k → disk.u32 (headAt k) = 0) ∧ disk' = disk
  aligned : ret ≠ 0 → 2 ^ len ∣ ret
  wasFree : ret ≠ 0 → block len ret ⊆ freeSet disk
  taken : ret ≠ 0 → freeSet disk' = freeSet disk \ block len ret
  counter : ret ≠ 0 → disk'.u32 counterAt + 2 ^ len = disk.u32 counterAt

/-- What is asked of `freeBlock(base, len)`. -/
structure Freed (disk : Bytes) (base len : Nat) (disk' : Bytes) : Prop where
  given : freeSet disk' = freeSet disk ∪ block len base
  counter : disk'.u32 counterAt = disk.u32 counterAt + 2 ^ len

/-- What is asked of one call. -/
def Settles (fs : NorlitFS) : Call → Prop
  | .mallocBlock len => Malloced fs.disk len (fs.mallocBlock len).1 (fs.mallocBlock len).2.disk
  | .freeBlock base len => Freed fs.disk base len (fs.freeBlock base len).disk

/-- What is known of the lists, read off the disk. -/
theorem Taken.malloced {L' : Nat → List Nat} (h : FreeLists disk L)
    (hT : Taken disk L len ret disk' L') : Malloced disk len ret disk' where
  failed hz := absurd hz (hT.ne_zero h)
  aligned _ := hT.aligned
  wasFree _ := h.freeSet_eq.symm ▸ hT.wasFree
  taken _ := by rw [hT.lists.freeSet_eq, h.freeSet_eq, hT.region]
  counter _ := by rw [hT.lists.counter, h.counter, hT.total]

/-- One call of `mallocBlock`. -/
theorem FreeLists.malloced (h : FreeLists fs.disk L) (hlen : len < 20) :
    WellFormed (fs.mallocBlock len).2.disk ∧
      Malloced fs.disk len (fs.mallocBlock len).1 (fs.mallocBlock len).2.disk := by
  rcases mallocBlock_spec h hlen with ⟨hz, hnil, hsame⟩ | ⟨L', hT⟩
  · refine ⟨hsame.symm ▸ ⟨L, h⟩, fun _ => ⟨fun k hk hlen => ?_, hsame⟩, fun hne => absurd hz hne,
      fun hne => absurd hz hne, fun hne => absurd hz hne, fun hne => absurd hz hne⟩
    exact (h.head_eq_zero_iff hk).mpr (hnil k hlen)
  · exact ⟨⟨L', hT.lists⟩, hT.malloced h⟩

/-- One call of `freeBlock`. -/
theorem FreeLists.freed (h : FreeLists fs.disk L) (hc : Admits fs.disk (.freeBlock base len)) :
    WellFormed (fs.freeBlock base len).disk ∧
      Freed fs.disk base len (fs.freeBlock base len).disk := by
  obtain ⟨hlen, ha, hin, hd⟩ := hc
  rw [h.freeSet_eq] at hd
  have hfree := freeLists_iff.mpr ((freeLists_iff.mp h).freeBlock hlen ha hin hd)
  refine ⟨⟨_, hfree⟩, ?_, ?_⟩
  · rw [hfree.freeSet_eq, h.freeSet_eq, Extents.region_push]
  · rw [hfree.counter, h.counter, Extents.total_push hlen]

/-- Every call keeps the lists well formed and does what is asked of it. -/
theorem WellFormed.call {c : Call} (h : WellFormed fs.disk) (hc : Admits fs.disk c) :
    WellFormed (fs.after c).disk ∧ Settles fs c := by
  obtain ⟨L, hL⟩ := h
  cases c with
  | mallocBlock len => exact hL.malloced hc
  | freeBlock base len => exact hL.freed hc

/-- **The free-space invariant.** Over every sequence of admissible calls the lists stay well
formed, and every call on the way does what is asked of it. -/
theorem run_freeSpace {cs : List Call} (h : WellFormed fs.disk) (hrun : Run Allocates fs cs fs') :
    WellFormed fs'.disk ∧ Run (fun fs c fs' => Settles fs c ∧ Allocates fs c fs') fs cs fs' := by
  induction hrun with
  | nil fs => exact ⟨h, .nil fs⟩
  | cons first rest ih =>
    obtain ⟨hc, rfl⟩ := first
    obtain ⟨hwf, hsettles⟩ := h.call hc
    obtain ⟨hlast, hrest⟩ := ih hwf
    exact ⟨hlast, .cons ⟨hsettles, hc, rfl⟩ hrest⟩

/-- A partition of zeroes: every list is empty. -/
def blank : NorlitFS := ⟨fun _ => 0, fun _ => 0, 0⟩

theorem blank_freeLists : FreeLists blank.disk fun _ => [] where
  extents := Extents.empty
  chain _ _ := rfl
  counter := Extents.total_empty.symm

/-- The blocks 24 to 31 can be freed there. -/
theorem blank_admits : Admits blank.disk (.freeBlock 24 3) := by
  refine ⟨by decide, by decide, fun b hb => ?_, ?_⟩
  · have hb' := (mem_block_iff (by decide)).mp hb
    exact ⟨by omega, by omega⟩
  · rw [blank_freeLists.freeSet_eq, Extents.region_empty]
    exact Set.disjoint_empty _

/-- An extent of eight blocks is freed, and one block taken out of it. -/
theorem run_freeSpace_split :
    WellFormed ((blank.freeBlock 24 3).mallocBlock 0).2.disk ∧
      Run (fun fs c fs' => Settles fs c ∧ Allocates fs c fs') blank
        [.freeBlock 24 3, .mallocBlock 0] ((blank.freeBlock 24 3).mallocBlock 0).2 := by
  have hfirst : Allocates blank (.freeBlock 24 3) (blank.freeBlock 24 3) := ⟨blank_admits, rfl⟩
  have hsecond : Allocates (blank.freeBlock 24 3) (.mallocBlock 0)
      ((blank.freeBlock 24 3).mallocBlock 0).2 := ⟨show 0 < 20 by decide, rfl⟩
  exact run_freeSpace ⟨_, blank_freeLists⟩ (.cons hfirst (.single hsecond))

end NorlitFS

end NorlitOS
