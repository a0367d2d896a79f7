import NorlitOS.Memory.Canonical

/-!
# How a range is cut into blocks

The loop of `memory_free_nocheck` peels a block off each end of the range while it goes through the
orders. `blocks` lists the blocks it passes to `memory_block_free`; they tile the range.
`memory_free` first cuts the range down to its whole words.
-/

namespace NorlitOS

open Dyadic

namespace Heap

variable {h h' : Heap} {F S S' : Set Nat} {n bit a address size : Nat} {bs bs' : List (Nat × Nat)}

/-! ## The blocks of the loop

Each order takes at most one block from the beginning of the range and one from its end. The list
of them does not depend on the heap. -/

/-- The block `freeLow` frees. -/
def lowBlock (bit address : Nat) : List (Nat × Nat) :=
  if address &&& 2 ^ bit ≠ 0 then [(address, bit)] else []

/-- The range that `freeLow` leaves. -/
def behindLow (bit address size : Nat) : Nat × Nat :=
  if address &&& 2 ^ bit ≠ 0 then (add32 address (2 ^ bit), sub32 size (2 ^ bit)) else (address, size)

/-- The block `freeHigh` frees. -/
def highBlock (bit address size : Nat) : List (Nat × Nat) :=
  if size &&& 2 ^ bit ≠ 0 then [(sub32 (add32 address size) (2 ^ bit), bit)] else []

/-- The size that `freeHigh` leaves. -/
def beforeHigh (bit size : Nat) : Nat :=
  if size &&& 2 ^ bit ≠ 0 then sub32 size (2 ^ bit) else size

/-- The calls of `memory_block_free` of the loop, with `n` values of `bit` left. -/
def blocksFrom : Nat → Nat → Nat → Nat → List (Nat × Nat)
  | 0, _, _, _ => []
  | n + 1, bit, address, size =>
    if size < 2 ^ bit then []
    else
      let rest := behindLow bit address size
      lowBlock bit address ++
        (highBlock bit rest.1 rest.2 ++ blocksFrom n (bit + 1) rest.1 (beforeHigh bit rest.2))

/-- The blocks `memory_free_nocheck` cuts a range into. -/
def blocks (address size : Nat) : List (Nat × Nat) := blocksFrom 30 2 address size

/-- `memory_block_free` of one block after the other. -/
def freeBlocks : List (Nat × Nat) → Heap → Except Stop Heap
  | [], h => .ok h
  | b :: bs, h => h.memoryBlockFree b.1 b.2 >>= freeBlocks bs

/-- Freeing one list of blocks after the other. -/
theorem freeBlocks_append : freeBlocks (bs ++ bs') h = freeBlocks bs h >>= freeBlocks bs' := by
  induction bs generalizing h with
  | nil => rfl
  | cons b bs ih =>
    rw [List.cons_append, freeBlocks, freeBlocks]
    cases h.memoryBlockFree b.1 b.2 with
    | error e => rfl
    | ok g => exact ih

/-- The block at the beginning. -/
theorem freeLow_eq : h.freeLow bit address size =
    freeBlocks (lowBlock bit address) h >>= fun h => .ok (h, behindLow bit address size) := by
  unfold freeLow lowBlock behindLow
  split
  · simp only [freeBlocks]
    cases h.memoryBlockFree address bit <;> rfl
  · rfl

/-- The block at the end. -/
theorem freeHigh_eq : h.freeHigh bit address size =
    freeBlocks (highBlock bit address size) h >>= fun h => .ok (h, beforeHigh bit size) := by
  unfold freeHigh highBlock beforeHigh
  split
  · simp only [freeBlocks]
    cases h.memoryBlockFree (sub32 (add32 address size) (2 ^ bit)) bit <;> rfl
  · rfl

/-- The loop frees the blocks it lists, in order. Induction on the orders left. -/
theorem freeNocheckLoop_eq :
    freeNocheckLoop n bit h address size = freeBlocks (blocksFrom n bit address size) h := by
  induction n generalizing bit h address size with
  | zero => rfl
  | succ n ih =>
    rw [freeNocheckLoop, blocksFrom]
    by_cases hlt : size < 2 ^ bit
    · rw [if_pos hlt, if_pos hlt]
      rfl
    rw [if_neg hlt, if_neg hlt, freeBlocks_append, freeLow_eq]
    cases freeBlocks (lowBlock bit address) h with
    | error e => rfl
    | ok g =>
      simp only [ok_bind]
      rw [freeBlocks_append, freeHigh_eq]
      cases freeBlocks (highBlock bit (behindLow bit address size).1
        (behindLow bit address size).2) g with
      | error e => rfl
      | ok g => exact ih

/-- **The decomposition.** `memory_free_nocheck` frees the blocks of the range, in order. -/
theorem memoryFreeNocheck_eq : h.memoryFreeNocheck address size = freeBlocks (blocks address size) h :=
  freeNocheckLoop_eq

/-! ## The blocks tile the range

Before order `bit` the rest of the range begins and ends on multiples of `2 ^ bit`, and it is
shorter than what higher orders can take. So at the end nothing is left. -/

/-- Aligned blocks that do not meet and together are the set `S`. -/
structure Tiles (bs : List (Nat × Nat)) (S : Set Nat) : Prop where
  aligned : ∀ b ∈ bs, 2 ≤ b.2 ∧ 2 ^ b.2 ∣ b.1
  apart : bs.Pairwise fun b b' => Disjoint (range b.1 (2 ^ b.2)) (range b'.1 (2 ^ b'.2))
  cover : ∀ x, x ∈ S ↔ ∃ b ∈ bs, x ∈ range b.1 (2 ^ b.2)

theorem Tiles.nil : Tiles [] (range a 0) := by
  refine ⟨by simp, List.Pairwise.nil, fun x => ?_⟩
  rw [range_zero]
  simp

/-- One block. -/
theorem Tiles.single (hbit : 2 ≤ bit) (ha : 2 ^ bit ∣ a) : Tiles [(a, bit)] (range a (2 ^ bit)) := by
  refine ⟨?_, List.pairwise_singleton _ _, fun x => by simp⟩
  intro b hb
  rw [List.mem_singleton.mp hb]
  exact ⟨hbit, ha⟩

/-- Two ranges that do not overlap. -/
theorem Tiles.append (hT : Tiles bs S) (hT' : Tiles bs' S') (hd : Disjoint S S') :
    Tiles (bs ++ bs') (S ∪ S') := by
  refine ⟨?_, List.pairwise_append.mpr ⟨hT.apart, hT'.apart, fun b hb b' hb' => ?_⟩, fun x => ?_⟩
  · intro b hb
    rcases List.mem_append.mp hb with hb | hb
    · exact hT.aligned b hb
    · exact hT'.aligned b hb
  · refine hd.mono (fun x hx => ?_) fun x hx => ?_
    · exact (hT.cover x).mpr ⟨b, hb, hx⟩
    · exact (hT'.cover x).mpr ⟨b', hb', hx⟩
  · rw [Set.mem_union, hT.cover, hT'.cover]
    simp only [List.mem_append]
    constructor
    · rintro (⟨b, hb, hx⟩ | ⟨b, hb, hx⟩)
      · exact ⟨b, Or.inl hb, hx⟩
      · exact ⟨b, Or.inr hb, hx⟩
    · rintro ⟨b, hb | hb, hx⟩
      · exact Or.inl ⟨b, hb, hx⟩
      · exact Or.inr ⟨b, hb, hx⟩

theorem range_disjoint {m k : Nat} : Disjoint (range a m) (range (a + m) k) := by
  rw [Set.disjoint_left]
  intro x hx hx'
  exact absurd hx.2 (Nat.not_lt.mpr hx'.1)

/-- The low end. -/
theorem lowBlock_tiles (hbit : 2 ≤ bit) (ha : 2 ^ bit ∣ a) (hs : 2 ^ bit ∣ size)
    (hle : 2 ^ bit ≤ size) (htop : a + size < 2 ^ 32) :
    ∃ m, m ≤ size ∧ Tiles (lowBlock bit a) (range a m) ∧
      behindLow bit a size = (a + m, size - m) ∧ 2 ^ (bit + 1) ∣ a + m ∧ 2 ^ bit ∣ size - m := by
  unfold lowBlock behindLow
  cases htest : a.testBit bit with
  | false =>
    refine ⟨0, Nat.zero_le _, ?_, ?_, aligned_succ ha htest, hs⟩
    · rw [if_neg (not_not.mpr (and_two_pow_eq_zero.mpr htest))]
      exact Tiles.nil
    · rw [if_neg (not_not.mpr (and_two_pow_eq_zero.mpr htest))]
      rfl
  | true =>
    refine ⟨2 ^ bit, hle, ?_, ?_, dvd_succ_add ha htest, Nat.dvd_sub hs dvd_rfl⟩
    · rw [if_pos (and_two_pow_ne_zero.mpr htest)]
      exact Tiles.single hbit ha
    · rw [if_pos (and_two_pow_ne_zero.mpr htest), add32_of_lt (by omega),
        sub32_of_le hle (by omega)]

/-- The high end. -/
theorem highBlock_tiles (hbit : 2 ≤ bit) (ha : 2 ^ bit ∣ a) (hs : 2 ^ bit ∣ size)
    (htop : a + size < 2 ^ 32) :
    ∃ m, m ≤ size ∧ Tiles (highBlock bit a size) (range (a + m) (size - m)) ∧
      beforeHigh bit size = m ∧ 2 ^ (bit + 1) ∣ m := by
  unfold highBlock beforeHigh
  cases htest : size.testBit bit with
  | false =>
    refine ⟨size, le_rfl, ?_, ?_, aligned_succ hs htest⟩
    · rw [if_neg (not_not.mpr (and_two_pow_eq_zero.mpr htest)), Nat.sub_self]
      exact Tiles.nil
    · rw [if_neg (not_not.mpr (and_two_pow_eq_zero.mpr htest))]
  | true =>
    have hle := testBit_sub_le htest
    refine ⟨size - 2 ^ bit, Nat.sub_le _ _, ?_, ?_, dvd_succ_sub hs htest⟩
    · rw [if_pos (and_two_pow_ne_zero.mpr htest), add32_of_lt htop,
        sub32_of_le (by omega) htop, Nat.add_sub_assoc hle, Nat.sub_sub_self hle]
      exact Tiles.single hbit (Nat.dvd_add ha (Nat.dvd_sub hs dvd_rfl))
    · rw [if_pos (and_two_pow_ne_zero.mpr htest), sub32_of_le hle (by omega)]

/-- Every byte of the range is in exactly one block. Induction on the orders left: the range between
the two ends is aligned for the next order. -/
theorem blocksFrom_tiles (hbit : 2 ≤ bit) (hn : n + bit = 32) (ha : 2 ^ bit ∣ a)
    (hs : 2 ^ bit ∣ size) (htop : a + size < 2 ^ 32) :
    Tiles (blocksFrom n bit a size) (range a size) := by
  induction n generalizing bit a size with
  | zero =>
    have h32 : bit = 32 := by omega
    subst h32
    have hzero : size = 0 := Nat.eq_zero_of_dvd_of_lt hs (by omega)
    subst hzero
    exact Tiles.nil
  | succ n ih =>
    rw [blocksFrom]
    by_cases hlt : size < 2 ^ bit
    · have hzero : size = 0 := Nat.eq_zero_of_dvd_of_lt hs hlt
      subst hzero
      rw [if_pos hlt]
      exact Tiles.nil
    rw [if_neg hlt]
    obtain ⟨m, hm, hlow, hbehind, ha', hs'⟩ := lowBlock_tiles hbit ha hs (by omega) htop
    obtain ⟨m', hm', hhigh, hbefore, hs''⟩ := highBlock_tiles hbit
      ((pow_dvd_pow 2 (Nat.le_succ bit)).trans ha') hs' (by omega)
    have hrest := ih (by omega) (by omega) ha' hs'' (by omega)
    have hmiddle : range (a + m) (size - m) =
        range (a + m + m') (size - m - m') ∪ range (a + m) m' := by
      rw [Set.union_comm, ← range_add, Nat.add_sub_cancel' hm']
    -- the low block, the middle and the high block make up the range
    have hwhole : range a size = range a m ∪ range (a + m) (size - m) := by
      rw [← range_add, Nat.add_sub_cancel' hm]
    rw [hbehind]
    dsimp only
    rw [hbefore, hwhole]
    refine hlow.append ?_ range_disjoint
    rw [hmiddle]
    exact hhigh.append hrest range_disjoint.symm

/-- The blocks of the loop tile the range. -/
theorem blocks_tiles (ha : 4 ∣ a) (hs : 4 ∣ size) (htop : a + size < 2 ^ 32) :
    Tiles (blocks a size) (range a size) :=
  blocksFrom_tiles le_rfl rfl ha hs htop

/-! ## `memory_free`

Rounding the start up and the end down leaves the largest range of whole words. It may be empty,
and the code sees this before it subtracts. -/

/-- The range of `n` bytes from `b` on is the largest range of whole words inside the given one. -/
structure LargestWords (address size b n : Nat) : Prop where
  base : 4 ∣ b
  length : 4 ∣ n
  inside : range b n ⊆ range address size
  largest : ∀ b' n', 4 ∣ b' → 4 ∣ n' → range b' n' ⊆ range address size → range b' n' ⊆ range b n

/-- The first word that starts in the range. -/
def firstWord (address : Nat) : Nat := (address + 3) / 4 * 4

/-- The bytes of whole words. -/
def wordBytes (address size : Nat) : Nat := (address + size) / 4 * 4 - firstWord address

/-- The rounding is that range. -/
theorem largestWords : LargestWords address size (firstWord address) (wordBytes address size) := by
  unfold wordBytes firstWord
  refine ⟨Nat.dvd_mul_left _ _, ?_, fun x hx => ?_, fun b' n' hb' hn' hsub x hx => ?_⟩
  · exact Nat.dvd_sub (Nat.dvd_mul_left _ _) (Nat.dvd_mul_left _ _)
  · obtain ⟨hlo, hhi⟩ := hx
    constructor <;> omega
  · -- both ends of the other range lie in the given one
    obtain ⟨hlo, hhi⟩ := hx
    have hfirst := hsub (show b' ∈ range b' n' from ⟨le_rfl, by omega⟩)
    have hlast := hsub (show b' + n' - 1 ∈ range b' n' from ⟨by omega, by omega⟩)
    have hfirst : address ≤ b' := hfirst.1
    have hlast : b' + n' - 1 < address + size := hlast.2
    constructor <;> omega

/-- `memory_free` releases the whole words of the range. -/
theorem memoryFree_eq (htop : 4 ≤ size → address + size < 2 ^ 32) :
    h.memoryFree address size =
      h.memoryFreeNocheck (firstWord address) (wordBytes address size) := by
  unfold memoryFree
  by_cases hsmall : size < 4
  · have hzero : wordBytes address size = 0 := by
      unfold wordBytes firstWord
      omega
    rw [if_pos hsmall, hzero]
    rfl
  have htop := htop (by omega)
  rw [if_neg hsmall]
  by_cases halign : address % 4 ≠ 0
  · -- an address inside a word: the rest of that word is lost
    have hfirst : add32 (address / 4 * 4) 4 = firstWord address := by
      rw [add32_of_lt (by omega)]
      unfold firstWord
      omega
    have hle : firstWord address ≤ address + size := by
      unfold firstWord
      omega
    have hsize : sub32 (add32 size address) (firstWord address) =
        address + size - firstWord address := by
      rw [add32_of_lt (by omega), sub32_of_le (by omega) (by omega), Nat.add_comm size]
    have hbytes : wordBytes address size = (address + size - firstWord address) / 4 * 4 := by
      unfold wordBytes firstWord
      omega
    rw [if_pos halign]
    dsimp only
    rw [hfirst, hsize, hbytes]
    by_cases hshort : address + size - firstWord address < 4
    · rw [if_pos hshort, Nat.div_eq_of_lt hshort]
      rfl
    · rw [if_neg hshort]
  · -- an aligned address
    have hfirst : firstWord address = address := by
      unfold firstWord
      omega
    have hbytes : wordBytes address size = size / 4 * 4 := by
      unfold wordBytes firstWord
      omega
    rw [if_neg halign, hfirst, hbytes]

/-- A range has as many bytes as its size. -/
theorem range_ncard : (range a n).ncard = n := by
  have h : range a n = ↑(Finset.Ico a (a + n)) := by
    ext x
    rw [Finset.coe_Ico]
    exact Iff.rfl
  rw [h, Set.ncard_coe_finset, Nat.card_Ico, Nat.add_sub_cancel_left]

/-- **`memory_free`** adds exactly the whole words of the range to the free memory; the loop frees
them as aligned blocks, each byte in one of them. -/
theorem memoryFree_exact (hw : h.WellFormed) (hin : range address size ⊆ managed)
    (hused : Disjoint (range address size) h.freeSet) :
    ∃ b n h', LargestWords address size b n ∧ h.memoryFree address size = .ok h' ∧ h'.WellFormed ∧
      h'.freeSet = h.freeSet ∪ range b n ∧ h'.freeMemoryCounter = h.freeMemoryCounter + n ∧
      h.memoryFree address size = freeBlocks (blocks b n) h ∧ Tiles (blocks b n) (range b n) := by
  have hR := wellFormed_iff_rep.mp hw
  have hL : LargestWords address size _ _ := largestWords
  have heq : h.memoryFree address size =
      h.memoryFreeNocheck (firstWord address) (wordBytes address size) := memoryFree_eq fun hfour => by
    have hbound := range_bound hin
    unfold PAGE_OFFSET MAX_MAPPING at hbound
    omega
  have hin' := hL.inside.trans hin
  have hbound := range_bound hin'
  -- from here on the whole words are a range like any other
  generalize firstWord address = b at hL heq hin' hbound
  generalize wordBytes address size = n at hL heq hin' hbound
  have hd := hused.mono_left hL.inside
  obtain ⟨h', hok, hF⟩ := memoryFreeNocheck_spec hR hL.base hL.length hin' hd
  obtain ⟨hw', hfree⟩ := hF.rep.wellFormed
  refine ⟨b, n, h', hL, heq.trans hok, hw', hfree, ?_, heq.trans memoryFreeNocheck_eq, ?_⟩
  · rw [hF.rep.counter, hR.counter, Set.ncard_union_eq hd.symm (free_finite hR.inside)
      (free_finite hin'), range_ncard]
  · rcases hbound with hzero | ⟨hlo, hhi⟩
    · rw [hzero]
      exact Tiles.nil
    · unfold PAGE_OFFSET MAX_MAPPING at hhi
      exact blocks_tiles hL.base hL.length (by omega)

/-- Thirty bytes from an odd address on. -/
theorem memoryFree_exact_thirty : ∃ b n h', LargestWords 0xC0201003 30 b n ∧
    (init fun _ => 0).memoryFree 0xC0201003 30 = .ok h' ∧ h'.WellFormed ∧
    h'.freeSet = (init fun _ => 0).freeSet ∪ range b n ∧
    h'.freeMemoryCounter = (init fun _ => 0).freeMemoryCounter + n ∧
    (init fun _ => 0).memoryFree 0xC0201003 30 = freeBlocks (blocks b n) (init fun _ => 0) ∧
    Tiles (blocks b n) (range b n) := by
  refine memoryFree_exact (init_rep _).wellFormed.1 (fun x hx => ?_) ?_
  · exact ⟨le_trans (by decide) hx.1, lt_of_lt_of_le hx.2 (by decide)⟩
  · rw [(init_rep _).wellFormed.2]
    exact Set.disjoint_empty _

end Heap

end NorlitOS
