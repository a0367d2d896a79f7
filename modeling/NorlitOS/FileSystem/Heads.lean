import NorlitOS.FileSystem.Format

/-!
# The heads of the lists

What the allocator does to the words of the super block, whatever the lists are like: a block it
frees may lie behind the partition, or be on a list already. `mkfs` gets there on a partition
that is smaller than the kernel, where the number of the blocks left wraps around.
-/

namespace NorlitOS

namespace NorlitFS

variable {fs : NorlitFS} {xs : List (Nat × Nat)} {k m n o base len rt ret address size : Nat}

/-! ## One call

The head of one list changes, and the other heads stay; the first bytes of a block that is freed
may be anywhere on the disk, but not in the middle of the super block. -/

theorem sector_apart (b : Nat) : SECTOR_SIZE * sector b = 0 ∨ 2048 ≤ SECTOR_SIZE * sector b := by
  unfold SECTOR_SIZE sector
  omega

/-- `freeBlock` of any block sets the counter and the head. -/
theorem freeBlock_word (hlen : len < 20) (ho : 512 ≤ o) (ho' : o + 4 ≤ 528) :
    (fs.freeBlock base len).disk.u32 o = fs.disk.u32 o := by
  obtain ⟨page, -, hdisk⟩ := freeBlock_disk fs base hlen
  have happart := sector_apart base
  rw [hdisk, Bytes.u32_copy_of_notMem (by unfold SECTOR_SIZE at happart ⊢; omega),
    Bytes.u32_setU32_of_ne (by rw [headAt_eq]; omega),
    Bytes.u32_setU32_of_ne (by rw [counterAt_eq]; omega)]

theorem freeBlock_head (hlen : len < 20) (hk : k < 20) (hbase : base < 2 ^ 32) :
    (fs.freeBlock base len).disk.u32 (headAt k) =
      if k = len then base else fs.disk.u32 (headAt k) := by
  obtain ⟨page, -, hdisk⟩ := freeBlock_disk fs base hlen
  have happart := sector_apart base
  rw [hdisk, Bytes.u32_copy_of_notMem (by rw [headAt_eq]; unfold SECTOR_SIZE at happart ⊢; omega)]
  split
  · rename_i heq
    rw [heq, Bytes.u32_setU32 hbase]
  · rw [Bytes.u32_setU32_of_ne (by rw [headAt_eq, headAt_eq]; omega),
      Bytes.u32_setU32_of_ne (by rw [counterAt_eq, headAt_eq]; omega)]

theorem add32_lt {a b : Nat} : add32 a b < 2 ^ 32 := Nat.mod_lt _ (by decide)

theorem unlink_head (hlen : len < 20) (hk : k < 20) (hne : k ≠ len) :
    (fs.unlink len ret).disk.u32 (headAt k) = fs.disk.u32 (headAt k) := by
  rw [unlink_disk hlen, Bytes.u32_setU32_of_ne (by rw [counterAt_eq, headAt_eq]; omega),
    Bytes.u32_setU32_of_ne (by rw [headAt_eq, headAt_eq]; omega)]

/-- The halves go to lists of smaller orders. -/
theorem freeHalves_head (hm : m ≤ k) (hk : k < 20) :
    (fs.freeHalves rt len m).disk.u32 (headAt k) = fs.disk.u32 (headAt k) := by
  induction m generalizing fs with
  | zero => rfl
  | succ m ih =>
    rw [freeHalves]
    split
    · rw [ih (by omega), freeBlock_head (by omega) hk add32_lt, if_neg (by omega)]
    · rfl

/-- The last half is the block behind `rt`. -/
theorem freeHalves_head_zero (hm : m < 20) :
    (fs.freeHalves rt 0 (m + 1)).disk.u32 (headAt 0) = add32 rt 1 := by
  induction m generalizing fs with
  | zero =>
    rw [freeHalves, if_pos (Nat.zero_le 0), freeHalves, freeBlock_head hm hm add32_lt, if_pos rfl,
      Nat.pow_zero]
  | succ m ih =>
    rw [freeHalves, if_pos (Nat.zero_le _), ih (by omega)]

/-- `mallocBlock` takes the first head that is not 0, and changes no list of a larger order. -/
structure Served (fs : NorlitFS) (m : Nat) (ret : Nat) (fs' : NorlitFS) : Prop where
  ne : ret ≠ 0
  head : ∃ j ≤ m, ret = fs.disk.u32 (headAt j)
  first : fs.disk.u32 (headAt 0) ≠ 0 → ret = fs.disk.u32 (headAt 0)
  next : fs.disk.u32 (headAt 0) = 0 → fs'.disk.u32 (headAt 0) = add32 ret 1
  above : ∀ k < 20, m < k → fs'.disk.u32 (headAt k) = fs.disk.u32 (headAt k)

theorem mallocBlock_served (hm : m < 20) (hne : fs.disk.u32 (headAt m) ≠ 0) :
    Served fs m (fs.mallocBlock 0).1 (fs.mallocBlock 0).2 := by
  have hread : (fs.fileRead 1 1).disk = fs.disk := rfl
  unfold mallocBlock
  dsimp only
  rw [page_freeBlock (show 0 < 20 by decide)]
  by_cases hzero : fs.disk.u32 (headAt 0) = 0
  · rw [if_pos hzero]
    -- order 0 is empty, so the search goes up and stops at `m` at the latest
    have hpos : 0 < m := by
      rcases Nat.eq_zero_or_pos m with rfl | hpos
      · exact absurd hzero hne
      · exact hpos
    cases hfind : (List.range' (0 + 1) (19 - 0)).find? fun l2 =>
        decide ((fs.fileRead 1 1).page.u32 (SuperBlock.freeBlock l2) ≠ 0) with
    | none =>
      have hnone := List.find?_eq_none.mp hfind m (List.mem_range'_1.mpr (by omega))
      rw [page_freeBlock hm] at hnone
      exact absurd hne (by simpa using hnone)
    | some l2 =>
      obtain ⟨hp, hrange, hbefore⟩ := List.find?_range'_eq_some.mp hfind
      have hl2 := List.mem_range'_1.mp hrange
      have hl20 : l2 < 20 := by omega
      have hle : l2 ≤ m := by
        refine Nat.le_of_not_lt fun hlt => ?_
        have hnot := hbefore m (by omega) hlt
        rw [page_freeBlock hm] at hnot
        exact hne (by simpa using hnot)
      dsimp only
      rw [page_freeBlock hl20] at hp ⊢
      refine ⟨by simpa using hp, ⟨l2, hle, rfl⟩, fun h => absurd hzero h, fun _ => ?_,
        fun k hk hmk => ?_⟩
      · -- the upper half of order 0 is freed last
        obtain ⟨j, rfl⟩ : ∃ j, l2 = j + 1 := ⟨l2 - 1, by omega⟩
        exact freeHalves_head_zero (by omega)
      · rw [freeHalves_head (by omega) hk, unlink_head hl20 hk (by omega), hread]
  · rw [if_neg hzero]
    -- order 0 serves the request itself
    refine ⟨hzero, ⟨0, Nat.zero_le m, rfl⟩, fun _ => rfl, fun h => absurd h hzero, fun k hk hmk => ?_⟩
    rw [unlink_head (by decide) hk (by omega), hread]

/-! ## The release loop

After the loop the head of a list is the last block that was put on it. -/

/-- The extents that the release loop frees, each with its order. -/
def freed : Nat → Nat → Nat → Nat → List (Nat × Nat)
  | 0, _, _, _ => []
  | n + 1, len, address, size =>
    if size < 2 ^ len then []
    else if address &&& 2 ^ len ≠ 0 then
      if sub32 size (2 ^ len) &&& 2 ^ len ≠ 0 then
        (address, len) ::
          (sub32 (add32 (add32 address (2 ^ len)) (sub32 size (2 ^ len))) (2 ^ len), len) ::
            freed n (len + 1) (add32 address (2 ^ len)) (sub32 (sub32 size (2 ^ len)) (2 ^ len))
      else (address, len) :: freed n (len + 1) (add32 address (2 ^ len)) (sub32 size (2 ^ len))
    else if size &&& 2 ^ len ≠ 0 then
      (sub32 (add32 address size) (2 ^ len), len) ::
        freed n (len + 1) address (sub32 size (2 ^ len))
    else freed n (len + 1) address size

/-- One round, from what its two halves give. -/
theorem release_round {fs₁ fs₂ : NorlitFS} {a₁ size₁ size₂ : Nat} (hle : ¬ size < 2 ^ len)
    (hlow : fs.releaseLow len address size = (fs₁, a₁, size₁))
    (hhigh : fs₁.releaseHigh len a₁ size₁ = (fs₂, size₂)) :
    release (n + 1) len fs address size = release n (len + 1) fs₂ a₁ size₂ := by
  rw [release, if_neg hle, hlow]
  dsimp only
  rw [hhigh]

/-- The loop is these calls of `freeBlock`. -/
theorem release_eq_foldl : release n len fs address size =
    (freed n len address size).foldl (fun fs x => fs.freeBlock x.1 x.2) fs := by
  induction n generalizing fs len address size with
  | zero => rfl
  | succ n ih =>
    rw [freed]
    by_cases hsmall : size < 2 ^ len
    · rw [release, if_pos hsmall, if_pos hsmall, List.foldl_nil]
    · rw [if_neg hsmall]
      by_cases hlow : address &&& 2 ^ len ≠ 0
      · -- a round frees at the low end, at the high end, at both or at none
        have hstep : fs.releaseLow len address size =
            (fs.freeBlock address len, add32 address (2 ^ len), sub32 size (2 ^ len)) := by
          rw [releaseLow, if_pos hlow]
        rw [if_pos hlow]
        by_cases hhigh : sub32 size (2 ^ len) &&& 2 ^ len ≠ 0
        · rw [release_round hsmall hstep (by rw [releaseHigh, if_pos hhigh]), if_pos hhigh, ih,
            List.foldl_cons, List.foldl_cons]
        · rw [release_round hsmall hstep (by rw [releaseHigh, if_neg hhigh]), if_neg hhigh, ih,
            List.foldl_cons]
      -- nothing sticks out at the low end
      · have hstep : fs.releaseLow len address size = (fs, address, size) := by
          rw [releaseLow, if_neg hlow]
        rw [if_neg hlow]
        by_cases hhigh : size &&& 2 ^ len ≠ 0
        · rw [release_round hsmall hstep (by rw [releaseHigh, if_pos hhigh]), if_pos hhigh, ih,
            List.foldl_cons]
        · rw [release_round hsmall hstep (by rw [releaseHigh, if_neg hhigh]), if_neg hhigh, ih]

/-- The extent that was put on a list last. -/
def lastOn (xs : List (Nat × Nat)) (k h : Nat) : Nat :=
  xs.foldl (fun h x => if k = x.2 then x.1 else h) h

theorem foldl_head (hxs : ∀ x ∈ xs, x.1 < 2 ^ 32 ∧ x.2 < 20) (hk : k < 20) :
    (xs.foldl (fun fs x => fs.freeBlock x.1 x.2) fs).disk.u32 (headAt k) =
      lastOn xs k (fs.disk.u32 (headAt k)) := by
  induction xs generalizing fs with
  | nil => rfl
  | cons x xs ih =>
    obtain ⟨hx, hxs⟩ := List.forall_mem_cons.mp hxs
    rw [List.foldl_cons, ih hxs, freeBlock_head hx.2 hk hx.1]
    rfl

end NorlitFS

end NorlitOS
