import NorlitOS.FileSystem.FreeSpace

/-!
# The release loop of `mkfs`

The loop frees, order by order, what sticks out of the range at its low and at its high end: what
remains is aligned to the next order at both ends. It stops after order 19, so that an aligned
piece of `2 ^ 20` blocks inside the range is never freed, and everything else is.
-/

namespace NorlitOS

open Dyadic

namespace NorlitFS

variable {fs fs' fs₁ : NorlitFS} {L L₁ L' : Nat → List Nat} {len a a₁ a' size size₁ size' : Nat}

/-- The range at `a` is freed but for the range at `a'`, which keeps all aligned pieces of
`2 ^ 20` blocks. -/
structure Released (L : Nat → List Nat) (a size : Nat) (fs' : NorlitFS) (L' : Nat → List Nat)
    (a' size' : Nat) : Prop where
  lists : Lists fs'.disk L'
  region : Extents.region L' = Extents.region L ∪ (Set.Ico a (a + size) \ Set.Ico a' (a' + size'))
  low : a ≤ a'
  high : a' + size' ≤ a + size
  whole : ∀ c, 2 ^ 20 ∣ c → a ≤ c → c + 2 ^ 20 ≤ a + size → a' ≤ c ∧ c + 2 ^ 20 ≤ a' + size'

theorem Released.refl (h : Lists fs.disk L) : Released L a size fs L a size where
  lists := h
  region := by rw [Set.sdiff_self, Set.union_empty]
  low := Nat.le_refl a
  high := Nat.le_refl (a + size)
  whole _ _ hlow hhigh := ⟨hlow, hhigh⟩

theorem Released.trans (h₁ : Released L a size fs₁ L₁ a₁ size₁)
    (h₂ : Released L₁ a₁ size₁ fs' L' a' size') : Released L a size fs' L' a' size' where
  lists := h₂.lists
  region := by
    have hlow₁ := h₁.low
    have hhigh₁ := h₁.high
    have hlow₂ := h₂.low
    have hhigh₂ := h₂.high
    rw [h₂.region, h₁.region]
    ext x
    simp only [Set.mem_union, Set.mem_sdiff, Set.mem_Ico]
    -- what was free before is free in both
    by_cases hx : x ∈ Extents.region L
    · simp [hx]
    · simp only [hx, false_or]
      omega
  low := h₁.low.trans h₂.low
  high := h₂.high.trans h₁.high
  whole c hc hlow hhigh := by
    obtain ⟨hlow', hhigh'⟩ := h₁.whole c hc hlow hhigh
    exact h₂.whole c hc hlow' hhigh'

/-- What remains is still apart from the free extents. -/
theorem Released.disjoint (h : Released L a size fs' L' a' size')
    (hd : Disjoint (Set.Ico a (a + size)) (Extents.region L)) :
    Disjoint (Set.Ico a' (a' + size')) (Extents.region L') := by
  have hsub : Set.Ico a' (a' + size') ⊆ Set.Ico a (a + size) :=
    Set.Ico_subset_Ico h.low h.high
  rw [h.region, Set.disjoint_union_right]
  exact ⟨hd.mono_left hsub, Set.disjoint_sdiff_right⟩

/-- Multiples of `2 ^ 20` are multiples of every smaller order. -/
theorem dvd_of_dvd_top {c : Nat} (hlen : len < 20) (hc : 2 ^ 20 ∣ c) : 2 ^ (len + 1) ∣ c :=
  (pow_dvd_pow 2 hlen).trans hc

/-- A multiple of `2 ^ k` above another one is at least `2 ^ k` above. -/
theorem add_le_of_dvd {k c d : Nat} (hc : 2 ^ k ∣ c) (hd : 2 ^ k ∣ d) (hlt : c < d) :
    c + 2 ^ k ≤ d := by
  obtain ⟨m, rfl⟩ := hc
  obtain ⟨n, rfl⟩ := hd
  rw [← Nat.mul_succ]
  exact Nat.mul_le_mul_left _ (Nat.lt_of_mul_lt_mul_left hlt)

theorem not_dvd_succ_of_testBit {k c : Nat} (h : c.testBit k = true) : ¬ 2 ^ (k + 1) ∣ c := by
  intro hc
  obtain ⟨m, rfl⟩ := hc
  rw [Nat.testBit_two_pow_mul] at h
  simp at h

section Ends

variable (h : Lists fs.disk L) (hlen : len < 20) (ha : 2 ^ len ∣ a) (hs : 2 ^ len ∣ size)
  (hin : Set.Ico a (a + size) ⊆ blocks) (hd : Disjoint (Set.Ico a (a + size)) (Extents.region L))

include h hlen ha hs hin hd

/-- The low end: afterwards the address is aligned for the next order. -/
theorem releaseLow_spec (hle : 2 ^ len ≤ size) : ∃ fs' L' a' size',
    fs.releaseLow len a size = (fs', a', size') ∧ Released L a size fs' L' a' size' ∧
      2 ^ (len + 1) ∣ a' ∧ 2 ^ len ∣ size' ∧
        ∀ c, Ahead c fs.disk L → Ahead c fs'.disk L' := by
  cases htest : a.testBit len with
  | false =>
    refine ⟨fs, L, a, size, ?_, Released.refl h, aligned_succ ha htest, hs, fun _ hc => hc⟩
    rw [releaseLow, if_neg (not_not.mpr (and_two_pow_eq_zero.mpr htest))]
  | true =>
    have hpos := Nat.two_pow_pos len
    have hlast := (hin (Set.mem_Ico.mpr ⟨show a ≤ a + size - 1 by omega, by omega⟩)).2
    have hblock : block len a = Set.Ico a (a + 2 ^ len) := by
      rw [block_eq_Ico ha, Finset.coe_Ico]
    have hsub : block len a ⊆ Set.Ico a (a + size) := by
      rw [hblock]
      exact Set.Ico_subset_Ico (Nat.le_refl a) (by omega)
    have hnext := dvd_succ_add ha htest
    refine ⟨fs.freeBlock a len, _, a + 2 ^ len, size - 2 ^ len, ?_,
      ⟨h.freeBlock hlen ha (hsub.trans hin) (hd.mono_left hsub), ?_, by omega, by omega, ?_⟩, hnext,
      Nat.dvd_sub hs dvd_rfl,
      fun _ hc => hc.freeBlock hlen ha (hsub.trans hin) (hd.mono_left hsub)⟩
    · rw [releaseLow, if_pos (and_two_pow_ne_zero.mpr htest), add32_of_lt (by omega),
        sub32_of_le hle (by omega)]
    · rw [Extents.region_push, hblock]
      congr 1
      ext x
      simp only [Set.mem_Ico, Set.mem_sdiff]
      omega
    · intro c hc hlow hhigh
      -- `a` is an odd multiple of `2 ^ len`, and `c` is not
      have hne : a ≠ c := fun heq =>
        not_dvd_succ_of_testBit htest (heq ▸ dvd_of_dvd_top hlen hc)
      have hgap := add_le_of_dvd ha ((pow_dvd_pow 2 (by omega)).trans (dvd_of_dvd_top hlen hc))
        (Nat.lt_of_le_of_ne hlow hne)
      omega

/-- The high end: afterwards the size is a multiple of the next power of two. -/
theorem releaseHigh_spec (hnext : 2 ^ (len + 1) ∣ a) : ∃ fs' L' size',
    fs.releaseHigh len a size = (fs', size') ∧ Released L a size fs' L' a size' ∧
      2 ^ (len + 1) ∣ size' ∧ ∀ c, Ahead c fs.disk L → Ahead c fs'.disk L' := by
  cases htest : size.testBit len with
  | false =>
    refine ⟨fs, L, size, ?_, Released.refl h, aligned_succ hs htest, fun _ hc => hc⟩
    rw [releaseHigh, if_neg (not_not.mpr (and_two_pow_eq_zero.mpr htest))]
  | true =>
    have hle := testBit_sub_le htest
    have hpos := Nat.two_pow_pos len
    have hlast := (hin (Set.mem_Ico.mpr ⟨show a ≤ a + size - 1 by omega, by omega⟩)).2
    have hrest := dvd_succ_sub hs htest
    have hbase : 2 ^ len ∣ a + (size - 2 ^ len) := Nat.dvd_add ha (Nat.dvd_sub hs dvd_rfl)
    have hblock : block len (a + (size - 2 ^ len)) = Set.Ico (a + (size - 2 ^ len)) (a + size) := by
      rw [block_eq_Ico hbase, Finset.coe_Ico, show a + (size - 2 ^ len) + 2 ^ len = a + size by omega]
    have hsub : block len (a + (size - 2 ^ len)) ⊆ Set.Ico a (a + size) := by
      rw [hblock]
      exact Set.Ico_subset_Ico (by omega) (Nat.le_refl _)
    refine ⟨fs.freeBlock (a + (size - 2 ^ len)) len, _, size - 2 ^ len, ?_,
      ⟨h.freeBlock hlen hbase (hsub.trans hin) (hd.mono_left hsub), ?_, Nat.le_refl a, by omega, ?_⟩,
      hrest, fun _ hc => hc.freeBlock hlen hbase (hsub.trans hin) (hd.mono_left hsub)⟩
    · rw [releaseHigh, if_pos (and_two_pow_ne_zero.mpr htest), add32_of_lt (by omega),
        sub32_of_le (by omega) (by omega), sub32_of_le hle (by omega), Nat.add_sub_assoc hle]
    · rw [Extents.region_push, hblock]
      congr 1
      ext x
      simp only [Set.mem_Ico, Set.mem_sdiff]
      omega
    · intro c hc hlow hhigh
      -- the end of the range is an odd multiple of `2 ^ len`, and `c + 2 ^ 20` is not
      have hend : 2 ^ (len + 1) ∣ a + (size - 2 ^ len) := Nat.dvd_add hnext hrest
      have htop : 2 ^ (len + 1) ∣ c + 2 ^ 20 :=
        Nat.dvd_add (dvd_of_dvd_top hlen hc) (pow_dvd_pow 2 hlen)
      refine ⟨hlow, Nat.le_of_not_lt fun hlt => ?_⟩
      have hgap := add_le_of_dvd hend htop hlt
      rw [pow_succ] at hgap
      omega

end Ends

/-- **The release loop.** It leaves nothing, or a range aligned to `2 ^ 20` at both ends. Induction
on the orders left. -/
theorem release_spec {n : Nat} (h : Lists fs.disk L) (hn : n + len = 20) (ha : 2 ^ len ∣ a)
    (hs : 2 ^ len ∣ size) (hin : Set.Ico a (a + size) ⊆ blocks)
    (hd : Disjoint (Set.Ico a (a + size)) (Extents.region L)) :
    ∃ L' a' size', Released L a size (release n len fs a size) L' a' size' ∧
      (size' = 0 ∨ 2 ^ 20 ∣ a' ∧ 2 ^ 20 ∣ size') ∧
        ∀ c, Ahead c fs.disk L → Ahead c (release n len fs a size).disk L' := by
  induction n generalizing fs L len a size with
  | zero =>
    obtain rfl : len = 20 := by omega
    exact ⟨L, a, size, Released.refl h, Or.inr ⟨ha, hs⟩, fun _ hc => hc⟩
  | succ n ih =>
    rw [release]
    rcases Nat.lt_or_ge size (2 ^ len) with hlt | hle
    · -- the `break`: a multiple of `2 ^ len` below `2 ^ len` is zero
      rw [if_pos hlt]
      exact ⟨L, a, size, Released.refl h, Or.inl (Nat.eq_zero_of_dvd_of_lt hs hlt), fun _ hc => hc⟩
    · obtain ⟨fs₁, L₁, a₁, size₁, hok₁, hR₁, ha₁, hs₁, hcount₁⟩ :=
        releaseLow_spec h (by omega) ha hs hin hd hle
      have hsub₁ : Set.Ico a₁ (a₁ + size₁) ⊆ Set.Ico a (a + size) :=
        Set.Ico_subset_Ico hR₁.low hR₁.high
      obtain ⟨fs₂, L₂, size₂, hok₂, hR₂, hs₂, hcount₂⟩ := releaseHigh_spec hR₁.lists (by omega)
        ((pow_dvd_pow 2 (Nat.le_succ len)).trans ha₁) hs₁ (hsub₁.trans hin) (hR₁.disjoint hd) ha₁
      have hR := hR₁.trans hR₂
      have hsub : Set.Ico a₁ (a₁ + size₂) ⊆ Set.Ico a (a + size) :=
        Set.Ico_subset_Ico hR.low hR.high
      -- what is left is aligned to the next order at both ends
      obtain ⟨L', a', size', hR₃, hlast, hcount₃⟩ :=
        ih hR.lists (by omega) ha₁ hs₂ (hsub.trans hin) (hR.disjoint hd)
      rw [if_neg (Nat.not_lt.mpr hle), hok₁]
      dsimp only
      rw [hok₂]
      exact ⟨L', a', size', hR.trans hR₃, hlast, fun c hc => hcount₃ c (hcount₂ c (hcount₁ c hc))⟩

/-! ## The super block before the loop

Clearing the heads of the lists leaves the fields in front of them as they were in the page. -/

theorem clearLists_below {n i o : Nat} (ho : o + 4 ≤ SuperBlock.freeBlock i) :
    (clearLists n i fs).page.u32 o = fs.page.u32 o := by
  induction n generalizing fs i with
  | zero => rfl
  | succ n ih =>
    rw [clearLists, ih (by unfold SuperBlock.freeBlock at ho ⊢; omega)]
    exact Bytes.u32_setU32_of_ne (Or.inr ho)

theorem clearLists_zero {n i k : Nat} (hik : i ≤ k) (hk : k < i + n) :
    (clearLists n i fs).page.u32 (SuperBlock.freeBlock k) = 0 := by
  induction n generalizing fs i with
  | zero => omega
  | succ n ih =>
    rw [clearLists]
    rcases Nat.eq_or_lt_of_le hik with rfl | hlt
    · rw [clearLists_below (by unfold SuperBlock.freeBlock; omega)]
      exact Bytes.u32_setU32 (by decide)
    · exact ih hlt (by omega)

/-- Every list is empty. -/
theorem initSuperBlock_lists {psize : Nat} : Lists (fs.initSuperBlock psize).disk fun _ => [] where
  extents := Extents.empty
  chain k hk := by
    have hread : (fs.initSuperBlock psize).disk.u32 (headAt k) =
        (clearLists 20 0 ((fs.memcpy 0 (fun i => signature.getD i 0) 8).store SuperBlock.size
          (psize / 4))).page.u32 (0 + (headAt k - SECTOR_SIZE * 1)) := by
      apply Bytes.u32_copy_of_mem <;> rw [headAt_eq] <;> unfold SECTOR_SIZE <;> omega
    have hoff : 0 + (headAt k - SECTOR_SIZE * 1) = SuperBlock.freeBlock k := by
      rw [headAt_eq]
      unfold SECTOR_SIZE SuperBlock.freeBlock
      omega
    rw [hoff] at hread
    exact hread.trans (clearLists_zero (Nat.zero_le k) (by omega))

/-! ## Coverage

What is inside the range is free after the loop, up to the piece that is left over. That piece is
empty as long as the partition has less than `2 ^ 21` blocks. -/

/-- The free lists are well formed but for the counter, and their extents make up the blocks from
`lo` to `hi`. -/
def Covers (disk : Bytes) (lo hi : Nat) : Prop :=
  ∃ L, Lists disk L ∧ Extents.region L = Set.Ico lo hi

theorem ksize_eq : ksize = 20 := rfl

section Format

variable {img : Images} {mbr : Bytes} {psize : Nat} (hsize : ksize + 2 < psize / 4)
  (hp : psize < 2 ^ 32)

include hsize hp

variable (fs img mbr) in
theorem format_released : ∃ L' a' size', Released (fun _ => []) (ksize + 2)
    (psize / 4 - (ksize + 2)) (fs.format img mbr psize) L' a' size' ∧
      (size' = 0 ∨ 2 ^ 20 ∣ a' ∧ 2 ^ 20 ∣ size') ∧
        ∀ c, Ahead c ((fs.copyFiles img mbr).2.initSuperBlock psize).disk (fun _ => []) →
          Ahead c (fs.format img mbr psize).disk L' := by
  have hin : Set.Ico (ksize + 2) (ksize + 2 + (psize / 4 - (ksize + 2))) ⊆ blocks := by
    intro b hb
    obtain ⟨hlo, hhi⟩ := Set.mem_Ico.mp hb
    exact ⟨by omega, by omega⟩
  unfold format
  dsimp only
  rw [sub32_of_le hsize.le (by omega)]
  refine release_spec initSuperBlock_lists rfl (one_dvd _) (one_dvd _) hin ?_
  rw [Extents.region_empty]
  exact Set.disjoint_empty _

theorem format_covers (hsmall : psize < 2 ^ 23) :
    Covers (fs.format img mbr psize).disk (ksize + 2) (psize / 4) := by
  obtain ⟨L', a', size', hR, hlast, -⟩ := format_released fs img mbr hsize hp
  have hlow := hR.low
  have hhigh := hR.high
  have hk := ksize_eq
  have hz : size' = 0 := by
    rcases hlast with hz | ⟨⟨c, hc⟩, ⟨d, hd⟩⟩
    · exact hz
    · -- a whole piece would end above `2 ^ 21`
      have hc' : c ≠ 0 := by
        rintro rfl
        omega
      omega
  refine ⟨L', hR.lists, ?_⟩
  rw [hR.region, hz, Extents.region_empty, Set.empty_union, Nat.add_zero a', Set.Ico_self,
    Set.sdiff_empty, Nat.add_sub_cancel' hsize.le]

/-- In a larger partition the blocks from `2 ^ 20` on are lost. -/
theorem not_format_covers (hlarge : 2 ^ 23 ≤ psize) :
    ¬ Covers (fs.format img mbr psize).disk (ksize + 2) (psize / 4) := by
  intro hcov
  obtain ⟨L, hL, hregion⟩ := hcov
  obtain ⟨L', a', size', hR, -⟩ := format_released fs img mbr hsize hp
  have hk := ksize_eq
  obtain ⟨hlo, hhi⟩ := hR.whole (2 ^ 20) dvd_rfl (by omega) (by omega)
  have hmem : 2 ^ 20 ∈ Extents.region L' := by
    rw [← hR.lists.freeSet_eq, hL.freeSet_eq, hregion, Set.mem_Ico]
    omega
  rw [hR.region, Extents.region_empty, Set.empty_union] at hmem
  exact hmem.2 (Set.mem_Ico.mpr ⟨hlo, by omega⟩)

end Format

/-- **Coverage.** The release loop lists every block behind the kernel area once, exactly for the
partitions of less than 4 GB. -/
theorem format_covers_iff (fs : NorlitFS) (img : Images) (mbr : Bytes) (psize : Nat)
    (hp : psize < 2 ^ 32) (hsize : ksize + 2 < psize / 4) :
    Covers (fs.format img mbr psize).disk (ksize + 2) (psize / 4) ↔ psize < 2 ^ 23 := by
  constructor
  · intro hcov
    exact Nat.lt_of_not_le fun hlarge => not_format_covers hsize hp hlarge hcov
  · exact format_covers hsize hp

/-- No programs. -/
def noImages : Images := ⟨fun _ => 0, fun _ => 0, fun _ => 0, fun _ => 0⟩

/-- A partition of 64 MB. -/
theorem format_covers_iff_small :
    Covers (blank.format noImages (fun _ => 0) 131072).disk (ksize + 2) (131072 / 4) ↔
      131072 < 2 ^ 23 :=
  format_covers_iff blank noImages (fun _ => 0) 131072 (by decide) (by decide)

/-- A partition of 4 GB is the smallest that loses blocks. -/
theorem not_covers_of_4GB : ¬ ∀ psize < 2 ^ 32, ksize + 2 < psize / 4 →
    Covers (blank.format noImages (fun _ => 0) psize).disk (ksize + 2) (psize / 4) := by
  intro hall
  have hsize : ksize + 2 < 2 ^ 23 / 4 := by decide
  exact not_format_covers hsize (by decide) (Nat.le_refl _) (hall (2 ^ 23) (by decide) hsize)

end NorlitFS

end NorlitOS
