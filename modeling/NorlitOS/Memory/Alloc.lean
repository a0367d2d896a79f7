import NorlitOS.Memory.FreeList

/-!
# Ranges, allocation, `malloc` and `free`

`memory_free_nocheck` cuts a word-aligned range into aligned blocks from both ends;
`memory_alloc` takes the first block of the first list that has one and gives the rest back.
Each function has one specification in terms of the free set, and later modules use only these.
-/

namespace NorlitOS

open Dyadic

namespace Heap

variable {h h₁ h₂ : Heap} {F A B : Set Nat} {bit a size : Nat}

/-! ## `memory_free_nocheck`

Freeing block by block adds the range to the free set, whatever the order of the blocks. -/

/-- The addresses of a range. -/
def range (a size : Nat) : Set Nat := {x | a ≤ x ∧ x < a + size}

theorem block_eq_range (ha : 2 ^ bit ∣ a) : block bit a = range a (2 ^ bit) := by
  ext x
  exact mem_block_iff ha

theorem range_zero (a : Nat) : range a 0 = ∅ := by
  ext x
  simp only [range, Set.mem_ofPred_eq, Set.mem_empty_iff_false, iff_false]
  omega

theorem range_add (a m n : Nat) : range a (m + n) = range a m ∪ range (a + m) n := by
  ext x
  simp only [range, Set.mem_ofPred_eq, Set.mem_union]
  omega

theorem Freed.refl (hR : Rep h F) : Freed h F ∅ h :=
  ⟨by rwa [Set.union_empty], fun _ _ => rfl⟩

theorem Freed.trans (h₁₂ : Freed h F A h₁) (h₂₃ : Freed h₁ (F ∪ A) B h₂) :
    Freed h F (A ∪ B) h₂ := by
  refine ⟨by rw [← Set.union_assoc]; exact h₂₃.rep, fun x hx => ?_⟩
  rw [← Set.union_assoc] at hx
  exact (h₂₃.frame x hx).trans (h₁₂.frame x fun hxA => hx (Or.inl hxA))

/-- A range in the managed memory ends below `2 ^ 32` and is shorter than `2 ^ 30`. -/
theorem range_bound (hin : range a size ⊆ managed) :
    size = 0 ∨ (PAGE_OFFSET ≤ a ∧ a + size ≤ PAGE_OFFSET + MAX_MAPPING) := by
  by_cases hz : size = 0
  · exact Or.inl hz
  have hlo : a ∈ managed := hin ⟨le_rfl, by omega⟩
  have hhi : a + size - 1 ∈ managed := hin ⟨by omega, by omega⟩
  exact Or.inr ⟨hlo.1, by have := hhi.2; omega⟩

/-- The low end: afterwards the base is aligned for the next order. -/
theorem freeLow_spec (hR : Rep h F) (hlo : 2 ≤ bit) (ha : 2 ^ bit ∣ a) (hs : 2 ^ bit ∣ size)
    (hle : 2 ^ bit ≤ size) (hin : range a size ⊆ managed) (hd : Disjoint (range a size) F) :
    ∃ h' m a' size', h.freeLow bit a size = .ok (h', a', size') ∧ Freed h F (range a m) h' ∧
      a' = a + m ∧ size = m + size' ∧ 2 ^ (bit + 1) ∣ a' ∧ 2 ^ bit ∣ size' := by
  cases htest : a.testBit bit with
  | false =>
    refine ⟨h, 0, a, size, ?_, range_zero a ▸ Freed.refl hR, rfl, (Nat.zero_add size).symm,
      aligned_succ ha htest, hs⟩
    rw [freeLow, if_neg (not_not.mpr (and_two_pow_eq_zero.mpr htest))]
  -- the range begins with a block of this order
  | true =>
    have hsplit : range a size = range a (2 ^ bit) ∪ range (a + 2 ^ bit) (size - 2 ^ bit) := by
      rw [← range_add, Nat.add_sub_cancel' hle]
    rw [hsplit] at hin hd
    have hblock := block_eq_range ha
    obtain ⟨h', hok, hfreed⟩ := memoryBlockFree_spec hR hlo ha
      (hblock ▸ Set.subset_union_left.trans hin) (hblock ▸ (Set.disjoint_union_left.mp hd).1)
    have hbound := range_bound (hsplit ▸ hin)
    have hpos := Nat.two_pow_pos bit
    unfold PAGE_OFFSET MAX_MAPPING at hbound
    refine ⟨h', 2 ^ bit, a + 2 ^ bit, size - 2 ^ bit, ?_, hblock ▸ hfreed, rfl, by omega,
      dvd_succ_add ha htest, Nat.dvd_sub hs dvd_rfl⟩
    rw [freeLow, if_pos (and_two_pow_ne_zero.mpr htest), hok, add32_of_lt (by omega),
      sub32_of_le hle (by omega), ok_bind]

/-- The high end: afterwards the size is divisible by the next power of two. -/
theorem freeHigh_spec (hR : Rep h F) (hlo : 2 ≤ bit) (ha : 2 ^ bit ∣ a) (hs : 2 ^ bit ∣ size)
    (hin : range a size ⊆ managed) (hd : Disjoint (range a size) F) :
    ∃ h' m size', h.freeHigh bit a size = .ok (h', size') ∧ Freed h F (range (a + size') m) h' ∧
      size = size' + m ∧ 2 ^ (bit + 1) ∣ size' := by
  cases htest : size.testBit bit with
  | false =>
    refine ⟨h, 0, size, ?_, range_zero (a + size) ▸ Freed.refl hR, rfl, aligned_succ hs htest⟩
    rw [freeHigh, if_neg (not_not.mpr (and_two_pow_eq_zero.mpr htest))]
  -- the range ends with a block of this order
  | true =>
    have hle := testBit_sub_le htest
    have hsplit : range a size
        = range a (size - 2 ^ bit) ∪ range (a + (size - 2 ^ bit)) (2 ^ bit) := by
      rw [← range_add, Nat.sub_add_cancel hle]
    have hbound := range_bound hin
    have hpos := Nat.two_pow_pos bit
    unfold PAGE_OFFSET MAX_MAPPING at hbound
    rw [hsplit] at hin hd
    have hbase : 2 ^ bit ∣ a + (size - 2 ^ bit) := Nat.dvd_add ha (Nat.dvd_sub hs dvd_rfl)
    have hblock := block_eq_range hbase
    obtain ⟨h', hok, hfreed⟩ := memoryBlockFree_spec hR hlo hbase
      (hblock ▸ Set.subset_union_right.trans hin) (hblock ▸ (Set.disjoint_union_left.mp hd).2)
    refine ⟨h', 2 ^ bit, size - 2 ^ bit, ?_, hblock ▸ hfreed, by omega, dvd_succ_sub hs htest⟩
    rw [freeHigh, if_pos (and_two_pow_ne_zero.mpr htest), add32_of_lt (by omega),
      sub32_of_le (by omega) (by omega), Nat.add_sub_assoc hle, hok, sub32_of_le hle (by omega), ok_bind]

/-- The decomposition loop frees the whole range. Induction on the orders left. -/
theorem freeNocheckLoop_spec {n : Nat} (hR : Rep h F) (hlo : 2 ≤ bit) (hn : n + bit = 32)
    (ha : 2 ^ bit ∣ a) (hs : 2 ^ bit ∣ size) (hin : range a size ⊆ managed)
    (hd : Disjoint (range a size) F) :
    ∃ h', freeNocheckLoop n bit h a size = .ok h' ∧ Freed h F (range a size) h' := by
  induction n generalizing h F bit a size with
  | zero =>
    have hbit : bit = 32 := by omega
    subst hbit
    have hbound := range_bound hin
    unfold PAGE_OFFSET MAX_MAPPING at hbound
    have hz : size = 0 := Nat.eq_zero_of_dvd_of_lt hs (by omega)
    subst hz
    exact ⟨h, rfl, range_zero a ▸ Freed.refl hR⟩
  | succ n ih =>
    rw [freeNocheckLoop]
    by_cases hlt : size < 2 ^ bit
    · -- nothing is left
      have hz : size = 0 := Nat.eq_zero_of_dvd_of_lt hs hlt
      subst hz
      rw [if_pos hlt]
      exact ⟨h, rfl, range_zero a ▸ Freed.refl hR⟩
    rw [if_neg hlt]
    obtain ⟨h₁, m, a', size₁, hok₁, hf₁, rfl, rfl, ha', hs₁⟩ :=
      freeLow_spec hR hlo ha hs (by omega) hin hd
    rw [range_add] at hin hd ⊢
    obtain ⟨hd₁, hd₂⟩ := Set.disjoint_union_left.mp hd
    -- the two pieces freed in this round and the rest are apart
    have hd₁₂ : Disjoint (range (a + m) size₁) (range a m) := by
      rw [Set.disjoint_left]
      intro x hx hx'
      exact Nat.lt_irrefl _ (lt_of_lt_of_le hx'.2 hx.1)
    obtain ⟨h₂, m₂, size₂, hok₂, hf₂, rfl, hs₂⟩ := freeHigh_spec hf₁.rep hlo
      ((pow_dvd_pow 2 (Nat.le_succ bit)).trans ha') hs₁ (Set.subset_union_right.trans hin)
      (Set.disjoint_union_right.mpr ⟨hd₂, hd₁₂⟩)
    rw [range_add] at hin hd₂ hd₁₂ ⊢
    obtain ⟨hdl, -⟩ := Set.disjoint_union_left.mp hd₂
    have hlast : Disjoint (range (a + m) size₂) (range (a + m + size₂) m₂) := by
      rw [Set.disjoint_left]
      intro x hx hx'
      exact Nat.lt_irrefl _ (lt_of_lt_of_le hx.2 hx'.1)
    obtain ⟨h', hok, hf⟩ := ih hf₂.rep (by omega) (by omega) ha' hs₂
      (Set.subset_union_left.trans (Set.subset_union_right.trans hin))
      (Set.disjoint_union_right.mpr ⟨Set.disjoint_union_right.mpr
        ⟨hdl, (Set.disjoint_union_left.mp hd₁₂).1⟩, hlast⟩)
    refine ⟨h', ?_, ?_⟩
    · rw [hok₁]
      simp only [ok_bind, hok₂]
      exact hok
    · rw [Set.union_comm (range (a + m) size₂)]
      exact hf₁.trans (hf₂.trans hf)

/-- **`memory_free_nocheck`.** A word-aligned range of the managed memory that is not free
joins the free set. -/
theorem memoryFreeNocheck_spec (hR : Rep h F) (ha : 4 ∣ a) (hs : 4 ∣ size)
    (hin : range a size ⊆ managed) (hd : Disjoint (range a size) F) :
    ∃ h', h.memoryFreeNocheck a size = .ok h' ∧ Freed h F (range a size) h' :=
  freeNocheckLoop_spec hR le_rfl rfl ha hs hin hd

/-! ## `memory_alloc`

The block is aligned and was free, and the rest of the larger block it came from is free again. -/

/-- What a call that hands out the addresses `B` does to the heap: `B` leaves the free set,
and no word outside the free memory is written. -/
structure Taken (h : Heap) (F B : Set Nat) (h' : Heap) : Prop where
  free : B ⊆ F
  rep : Rep h' (F \ B)
  frame : ∀ x, x ∉ F → h'.word x = h.word x

/-- A list is empty exactly when the set has no maximal block of its order. -/
theorem Rep.head_eq_empty_iff {k : Nat} (hR : Rep h F) (hk : k < 28) :
    h.memoryBlocks k = EMPTY ↔ ∀ a, ¬ Maximal F (k + 2) a := by
  obtain ⟨l, hc, -, hm⟩ := hR.lists k hk
  cases l with
  | nil => exact ⟨fun _ a ha => absurd ((hm a).mpr ha) List.not_mem_nil, fun _ => hc⟩
  | cons b l =>
    refine ⟨fun he => ?_, fun hn => absurd ((hm b).mp List.mem_cons_self) (hn b)⟩
    exact absurd (hc.1.symm.trans he) hc.2.1

/-- The head of a non-empty list is a maximal block, with the rest of the list behind it. -/
theorem Rep.head {k : Nat} (hR : Rep h F) (hk : k < 28) (hne : h.memoryBlocks k ≠ EMPTY) :
    Maximal F (k + 2) (h.memoryBlocks k) ∧
      ∃ l, Chain h.load EMPTY (.head k) (h.memoryBlocks k :: l) := by
  obtain ⟨l, hc, -, hm⟩ := hR.lists k hk
  cases l with
  | nil => exact absurd hc hne
  | cons b l =>
    have hb : h.memoryBlocks k = b := hc.1
    rw [hb]
    exact ⟨(hm b).mp List.mem_cons_self, l, hc⟩

/-- `*head = *getit; freeMemoryCounter -= 1 << bit;` on a non-empty list takes its first block. -/
theorem Rep.detachHead {k : Nat} (hR : Rep h F) (hk : k < 28) (hne : h.memoryBlocks k ≠ EMPTY)
    {g : Heap} (hload : g.load = (h.store (.head k) (h.load (.link (h.memoryBlocks k)))).load)
    (hcount : g.freeMemoryCounter = sub32 h.freeMemoryCounter (2 ^ (k + 2))) :
    Taken h F (block (k + 2) (h.memoryBlocks k)) g := by
  obtain ⟨hm, l, hc⟩ := hR.head hk hne
  refine ⟨hm.covered, ⟨Set.sdiff_subset.trans hR.inside, fun x hx y hy => ?_, ?_, ?_⟩, ?_⟩
  · refine ⟨hR.words x hx.1 hy, fun hya => hx.2 ?_⟩
    exact block_subset_of_meet (by omega) hy hya (self_mem_block 2 x)
  · have hc' : Chain h.load EMPTY (.head k) ([] ++ h.memoryBlocks k :: l) := hc
    exact (hR.lists.detach hk hc').of_load hload
  · have hle := free_ncard_le hR.inside
    have hblock := Set.ncard_le_ncard hm.covered (free_finite hR.inside)
    rw [block_ncard hm.aligned] at hblock
    unfold MAX_MAPPING at hle
    rw [hcount, hR.counter, Set.ncard_sdiff hm.covered (block_finite hm.aligned),
      block_ncard hm.aligned, sub32_of_le hblock (by omega)]
  · intro x hx
    rw [← load_link, hload, load_store_of_ne _ _ (by simp), load_link]

/-- The search for a bigger block ends at the next non-empty list, or runs out of lists. -/
theorem higherList_spec {n k : Nat} (hn : 28 ≤ n + k) (hk : k < 28) :
    (∃ m, h.higherList n k = .ok m ∧ k < m ∧ m < 28 ∧ h.memoryBlocks m ≠ EMPTY) ∨
      (h.higherList n k = .error .outOfMemory ∧
        ∀ m, k < m → m < 28 → h.memoryBlocks m = EMPTY) := by
  induction n generalizing k with
  | zero => omega
  | succ n ih =>
    rw [higherList]
    by_cases hlast : k = 27
    · rw [if_pos hlast]
      exact Or.inr ⟨rfl, fun m hkm hm => by omega⟩
    rw [if_neg hlast]
    by_cases hempty : h.memoryBlocks (k + 1) = EMPTY
    · rw [if_pos hempty]
      -- this list is empty, the search goes on above it
      rcases ih (k := k + 1) (by omega) (by omega) with ⟨m, hok, hlt, hm⟩ | ⟨herr, hall⟩
      · exact Or.inl ⟨m, hok, by omega, hm⟩
      · refine Or.inr ⟨herr, fun m hkm hm => ?_⟩
        rcases Nat.lt_or_eq_of_le (Nat.succ_le_of_lt hkm) with hlt | rfl
        · exact hall m hlt hm
        · exact hempty
    · rw [if_neg hempty]
      exact Or.inl ⟨k + 1, rfl, by omega, by omega, hempty⟩

/-- Cutting a block of order `bit` off a bigger one and giving back the rest leaves just the
cut-off block allocated. -/
theorem Taken.giveBack {k : Nat} (hT : Taken h F (block (k + 2) a) h₁)
    (hlt : bit < k + 2) (ha : 2 ^ (k + 2) ∣ a)
    (hF : Freed h₁ (F \ block (k + 2) a) (range (a + 2 ^ bit) (2 ^ (k + 2) - 2 ^ bit)) h₂) :
    Taken h F (block bit a) h₂ := by
  have hpow : 2 ^ bit ≤ 2 ^ (k + 2) := Nat.pow_le_pow_right (by omega) hlt.le
  have hbit : 2 ^ bit ∣ a := (pow_dvd_pow 2 hlt.le).trans ha
  have hsplit : block (k + 2) a = block bit a ∪ range (a + 2 ^ bit) (2 ^ (k + 2) - 2 ^ bit) := by
    rw [block_eq_range ha, block_eq_range hbit, ← range_add, Nat.add_sub_cancel' hpow]
  -- what is taken in the end is the lowest block of the one that was split
  have hset : F \ block (k + 2) a ∪ range (a + 2 ^ bit) (2 ^ (k + 2) - 2 ^ bit)
      = F \ block bit a := by
    have hsub := hT.free
    rw [hsplit] at hsub ⊢
    ext x
    have hx := @hsub x
    rw [block_eq_range hbit] at hx ⊢
    simp only [Set.mem_union, Set.mem_sdiff, range, Set.mem_ofPred_eq] at hx ⊢
    by_cases hxF : x ∈ F
    · simp only [hxF, true_and]
      omega
    · simp only [hxF, imp_false] at hx
      simp only [hxF, false_and, false_or, iff_false]
      omega
  refine ⟨fun x hx => hT.free (hsplit ▸ Or.inl hx), hset ▸ hF.rep, fun x hx => ?_⟩
  rw [hF.frame x, hT.frame x hx]
  rw [hset]
  exact fun hxd => hx hxd.1

/-- Taking a bigger block: the block of order `bit` at its base is allocated. -/
theorem splitBigger_spec {m : Nat} (hR : Rep h F) (hlo : 2 ≤ bit) (hlt : bit < m + 2) (hm : m < 28)
    (hne : h.memoryBlocks m ≠ EMPTY) :
    ∃ a h', h.splitBigger bit m = .ok (a, h') ∧ 2 ^ bit ∣ a ∧ Taken h F (block bit a) h' := by
  obtain ⟨hmax, -⟩ := hR.head hm hne
  have hT := hR.detachHead hm hne (load_withCounter _ (sub32 h.freeMemoryCounter (2 ^ (m + 2)))) rfl
  have hpow : 2 ^ bit ≤ 2 ^ (m + 2) := Nat.pow_le_pow_right (by omega) hlt.le
  have hbase : (2 : Nat) ^ bit ∣ 2 ^ (m + 2) := pow_dvd_pow 2 hlt.le
  have hfour : 4 ∣ (2 : Nat) ^ bit := pow_dvd_pow 2 hlo
  have hrest : range (h.memoryBlocks m + 2 ^ bit) (2 ^ (m + 2) - 2 ^ bit)
      ⊆ block (m + 2) (h.memoryBlocks m) := by
    rw [block_eq_range hmax.aligned]
    conv_rhs => rw [← Nat.add_sub_cancel' hpow, range_add]
    exact Set.subset_union_right
  obtain ⟨h', hfree, hF⟩ := memoryFreeNocheck_spec hT.rep
    (Nat.dvd_add ((hfour.trans hbase).trans hmax.aligned) hfour)
    (Nat.dvd_sub (hfour.trans hbase) hfour)
    (hrest.trans (hmax.covered.trans hR.inside))
    (Set.disjoint_of_subset_left hrest Set.disjoint_sdiff_right)
  refine ⟨h.memoryBlocks m, h', ?_, hbase.trans hmax.aligned, hT.giveBack hlt hmax.aligned hF⟩
  have hm29 : 2 ^ (m + 2) ≤ 2 ^ 29 := Nat.pow_le_pow_right (by omega) (by omega)
  have hadd : add32 (h.memoryBlocks m) (2 ^ bit) = h.memoryBlocks m + 2 ^ bit := by
    -- the cut lies inside the block, which ends below the top of the managed memory
    have hmem : h.memoryBlocks m + 2 ^ bit ∈ block (m + 2) (h.memoryBlocks m) := by
      refine (mem_block_iff hmax.aligned).mpr ⟨Nat.le_add_right _ _, ?_⟩
      exact Nat.add_lt_add_left (Nat.pow_lt_pow_right (by omega) hlt) _
    have htop := (hR.inside (hmax.covered hmem)).2
    unfold PAGE_OFFSET MAX_MAPPING at htop
    exact add32_of_lt (by omega)
  have hsub : sub32 (2 ^ (m + 2)) (2 ^ bit) = 2 ^ (m + 2) - 2 ^ bit :=
    sub32_of_le hpow (by omega)
  rw [splitBigger, hadd, hsub]
  simp only [store_counter, hfree, ok_bind]

/-- **`memory_alloc`.** It returns an aligned block that was free and takes exactly this block
from the free set; or every list from its order up is empty and it stops the machine. -/
theorem memoryAlloc_spec (hR : Rep h F) (hlo : 2 ≤ bit) (hhi : bit ≤ 29) :
    (∃ a h', h.memoryAlloc bit = .ok (a, h') ∧ 2 ^ bit ∣ a ∧ Taken h F (block bit a) h') ∨
      (h.memoryAlloc bit = .error .outOfMemory ∧
        ∀ m, bit - 2 ≤ m → m < 28 → h.memoryBlocks m = EMPTY) := by
  obtain ⟨k, rfl⟩ : ∃ k, bit = k + 2 := ⟨bit - 2, by omega⟩
  rw [memoryAlloc, if_neg (by omega), Nat.add_sub_cancel]
  by_cases hempty : h.memoryBlocks k = EMPTY
  · rw [if_pos hempty]
    -- the list of this order is empty: a larger block is split, or there is none
    rcases higherList_spec (h := h) (n := 28) (k := k) (by omega) (by omega) with
      ⟨m, hok, hkm, hm, hne⟩ | ⟨herr, hall⟩
    · left
      rw [hok, ok_bind]
      exact splitBigger_spec hR hlo (by omega) hm hne
    · right
      rw [herr, error_bind]
      refine ⟨rfl, fun m hkm hm => ?_⟩
      rcases Nat.lt_or_eq_of_le hkm with hlt | rfl
      · exact hall m hlt hm
      · exact hempty
  · rw [if_neg hempty]
    left
    set c := sub32 h.freeMemoryCounter (2 ^ (k + 2)) with hc
    set g : Heap := { h with freeMemoryCounter := c }
    refine ⟨h.memoryBlocks k, g.store (.head k) (g.load (.link (h.memoryBlocks k))), rfl,
      (hR.head (by omega) hempty).1.aligned, ?_⟩
    have hgl : g.load = h.load := load_withCounter h c
    have hload := load_store_congr hgl (.head k) (g.load (.link (h.memoryBlocks k)))
    rw [hgl] at hload ⊢
    exact hR.detachHead (by omega) hempty hload ((store_counter g _ _).trans hc)

/-! ## Words outside the free memory

The allocator writes links into free blocks and nothing else, so allocated words keep their
values. -/

/-- The allocator does not look at memory it has handed out. -/
theorem Rep.store_word {x v : Nat} (hR : Rep h F) (hx : x ∉ F) : Rep (h.store (.link x) v) F := by
  refine ⟨hR.inside, hR.words, fun k hk => ?_, hR.counter⟩
  obtain ⟨l, hc, hs, hm⟩ := hR.lists k hk
  refine ⟨l, hc.congr (load_store_of_ne h v (by simp)) fun b hb => load_store_of_ne h v ?_, hs, hm⟩
  intro heq
  obtain rfl := Slot.link.inj heq
  exact hx (((hm b).mp hb).covered (self_mem_block _ b))

/-! ## `malloc`

The size of the block is kept in its first word. `free` reads it there, and finds the order again.
-/

theorem le_mallocBit (n bit sized : Nat) : bit ≤ mallocBit n bit sized := by
  induction n generalizing bit sized with
  | zero => exact le_rfl
  | succ n ih =>
    rw [mallocBit]
    split
    · exact le_rfl
    · exact (Nat.le_succ bit).trans (ih _ _)

/-- The order `malloc` computes for a request. -/
def mallocOrder (size : Nat) : Nat := mallocBit 32 2 (sub32 (mallocSize size) 1 / 4)

theorem malloc_eq : h.malloc size = if 29 < mallocOrder size then .error .outOfMemory
    else h.memoryAlloc (mallocOrder size) >>= fun r =>
      .ok (add32 r.1 4, r.2.store (.link r.1) (2 ^ mallocOrder size)) := rfl

/-- **`malloc`.** It takes one block, stores the block size in its first word and returns the
address behind that word; or it stops for lack of memory. -/
theorem malloc_spec (hR : Rep h F) :
    (∃ a h', h.malloc size = .ok (add32 a 4, h') ∧ 2 ^ mallocOrder size ∣ a ∧
      Taken h F (block (mallocOrder size) a) h' ∧ h'.word a = 2 ^ mallocOrder size) ∨
      h.malloc size = .error .outOfMemory := by
  have hlo : 2 ≤ mallocOrder size := le_mallocBit _ _ _
  rw [malloc_eq]
  generalize mallocOrder size = bit at hlo
  by_cases hhi : 29 < bit
  · rw [if_pos hhi]
    exact Or.inr rfl
  rw [if_neg hhi]
  rcases memoryAlloc_spec hR hlo (by omega) with ⟨a, h', hok, ha, hT⟩ | ⟨herr, -⟩
  · left
    rw [hok, ok_bind]
    have haF : a ∈ F := hT.free (self_mem_block _ a)
    refine ⟨a, h'.store (.link a) (2 ^ bit), rfl, ha,
      ⟨hT.free, hT.rep.store_word fun hm => hm.2 (self_mem_block _ a), ?_⟩,
      load_store_self h' (.link a) _⟩
    intro x hx
    -- the size is stored into the block that was taken, so no link changes
    have hxa : (Slot.link x : Slot Nat) ≠ .link a := by
      intro heq
      exact hx (Slot.link.inj heq ▸ haF)
    rw [← load_link, load_store_of_ne _ _ hxa, load_link]
    exact hT.frame x hx
  · rw [herr, error_bind]
    exact Or.inr rfl

end Heap

end NorlitOS
