import NorlitOS.Memory.Decompose

/-!
# The sizes `malloc` can serve

`malloc` rounds a request up to words, adds a word for the size of the block and takes a block of
the next power of two. The sums are `u32`: the three largest requests wrap around and get a block of
one word. All others get what they ask for, or stop the machine.
-/

namespace NorlitOS

open Dyadic

namespace Heap

variable {h h' : Heap} {F : Set Nat} {n bit sized size a p : Nat}

/-! ## The order of a request -/

/-- The loop goes round once for every bit of `sized`. -/
theorem lt_mallocBit (hn : sized < 2 ^ n) : sized < 2 ^ (mallocBit n bit sized - bit) := by
  induction n generalizing bit sized with
  | zero =>
    rw [mallocBit, Nat.sub_self]
    exact hn
  | succ n ih =>
    rw [mallocBit]
    by_cases hz : sized = 0
    · rw [if_pos hz, hz]
      exact Nat.two_pow_pos _
    rw [if_neg hz]
    have hhalf : sized / 2 < 2 ^ (mallocBit n (bit + 1) (sized / 2) - (bit + 1)) := ih (by omega)
    have hle := le_mallocBit n (bit + 1) (sized / 2)
    rw [show mallocBit n (bit + 1) (sized / 2) - bit =
      mallocBit n (bit + 1) (sized / 2) - (bit + 1) + 1 by omega, Nat.pow_succ]
    omega

/-- A request that does not wrap around: the words of the request and one more. -/
theorem mallocSize_eq (hsize : size < 2 ^ 32 - 7) : mallocSize size = (size + 3) / 4 * 4 + 4 := by
  unfold mallocSize
  by_cases hz : size = 0
  · subst hz
    rfl
  rw [sub32_of_le (by omega) (by omega), add32_of_lt (a := size - 1) (by omega),
    add32_of_lt (by omega)]
  omega

/-- The largest requests that are still rounded up have no order with a list. -/
theorem mallocOrder_large (hlo : 2 ^ 32 - 7 ≤ size) (hhi : size < 2 ^ 32 - 3) :
    29 < mallocOrder size := by
  have hcases : size = 2 ^ 32 - 7 ∨ size = 2 ^ 32 - 6 ∨ size = 2 ^ 32 - 5 ∨ size = 2 ^ 32 - 4 := by
    omega
  rcases hcases with rfl | rfl | rfl | rfl <;> decide

/-- The three requests that wrap around get one word. -/
theorem mallocOrder_wraps (hlo : 2 ^ 32 - 3 ≤ size) (hhi : size < 2 ^ 32) : mallocOrder size = 2 := by
  have hcases : size = 2 ^ 32 - 3 ∨ size = 2 ^ 32 - 2 ∨ size = 2 ^ 32 - 1 := by omega
  rcases hcases with rfl | rfl | rfl <;> decide

/-- A block with a list has room for the request and the word in front of it. -/
theorem le_mallocOrder (hsize : size < 2 ^ 32 - 3) (horder : mallocOrder size ≤ 29) :
    size + 4 ≤ 2 ^ mallocOrder size := by
  by_cases hlarge : 2 ^ 32 - 7 ≤ size
  · have hlt := mallocOrder_large hlarge hsize
    omega
  have hle : 2 ≤ mallocOrder size := le_mallocBit _ _ _
  have hpow : 2 ^ mallocOrder size = 4 * 2 ^ (mallocOrder size - 2) := by
    rw [show (4 : Nat) = 2 ^ 2 by rfl, ← Nat.pow_add, Nat.add_sub_cancel' hle]
  have hlt : sub32 (mallocSize size) 1 / 4 < 2 ^ (mallocOrder size - 2) := by
    refine lt_mallocBit ?_
    rw [mallocSize_eq (by omega), sub32_of_le (by omega) (by omega)]
    omega
  rw [mallocSize_eq (by omega), sub32_of_le (by omega) (by omega)] at hlt
  rw [hpow]
  omega

/-! ## What `malloc` grants -/

/-- The pointer `p` returned for `size` bytes. `a` and `bit` are the block it belongs to. -/
structure Granted (h : Heap) (size p : Nat) (h' : Heap) (a bit : Nat) : Prop where
  pointer : p = a + 4
  words : 4 ∣ p
  taken : range a (2 ^ bit) ⊆ h.freeSet ∧ h'.freeSet = h.freeSet \ range a (2 ^ bit)
  room : p + size ≤ a + 2 ^ bit
  header : h'.word a = 2 ^ bit
  /-- Whatever happens meanwhile, as long as the block is in use and its header is kept. -/
  release : ∀ g : Heap, g.WellFormed → Disjoint (range a (2 ^ bit)) g.freeSet →
    g.word a = h'.word a →
    ∃ g', g.free p = .ok g' ∧ g'.freeSet = g.freeSet ∪ range a (2 ^ bit)

/-- The request is granted, or the machine stops for lack of memory. -/
def Adequate (h : Heap) (size : Nat) : Prop :=
  h.malloc size = .error .outOfMemory ∨
    ∃ p h' a bit, h.malloc size = .ok (p, h') ∧ h.Granted size p h' a bit

theorem granted_of_taken (hR : Rep h h.freeSet) (ha : 2 ^ mallocOrder size ∣ a)
    (hT : Taken h h.freeSet (block (mallocOrder size) a) h')
    (hword : h'.word a = 2 ^ mallocOrder size) (hsize : size < 2 ^ 32 - 3) :
    h.Granted size (add32 a 4) h' a (mallocOrder size) := by
  have hlo : 2 ≤ mallocOrder size := le_mallocBit _ _ _
  have hfour : 4 ∣ (2 : Nat) ^ mallocOrder size := pow_dvd_pow 2 hlo
  have hblock := block_eq_range ha
  have hin := hT.free.trans hR.inside
  have horder := bit_le_of_managed hin
  have hroom := le_mallocOrder hsize horder
  have hmanaged := hin (self_mem_block _ a)
  have htop := hmanaged.2
  unfold PAGE_OFFSET MAX_MAPPING at htop
  have hptr : add32 a 4 = a + 4 := add32_of_lt (by omega)
  refine ⟨hptr, ?_, ⟨hblock ▸ hT.free, hblock ▸ hT.rep.wellFormed.2⟩, ?_, hword, ?_⟩
  · rw [hptr]
    exact Nat.dvd_add (hfour.trans ha) dvd_rfl
  · rw [hptr]
    omega
  -- `free` finds the size in front of the memory that it is given back
  · intro g hw hd hhead
    rw [free_eq hmanaged, hhead, hword]
    obtain ⟨g', hok, hF⟩ := memoryFreeNocheck_spec (wellFormed_iff_rep.mp hw) (hfour.trans ha)
      hfour (hblock ▸ hin) hd
    exact ⟨g', hok, hF.rep.wellFormed.2⟩

/-- Without free memory `malloc` stops. -/
theorem malloc_of_empty (hR : Rep h ∅) : h.malloc size = .error .outOfMemory := by
  rcases @malloc_spec h _ size hR with ⟨a, h', -, -, hT, -⟩ | herr
  · exact absurd (hT.free (self_mem_block _ a)) (Set.notMem_empty a)
  · exact herr

/-- A free word is enough for a block of one word. -/
theorem malloc_word (hR : Rep h F) (hne : F.Nonempty) (horder : mallocOrder size = 2) :
    ∃ a h', h.malloc size = .ok (add32 a 4, h') ∧ 4 ∣ a ∧ a ∈ managed ∧ h'.word a = 4 := by
  rcases @malloc_spec h _ size hR with ⟨a, h', hok, ha, hT, hword⟩ | herr
  · rw [horder] at ha hT hword
    exact ⟨a, h', hok, ha, hR.inside (hT.free (self_mem_block _ a)), hword⟩
  · -- some list holds a block
    obtain ⟨x, hx⟩ := hne
    obtain ⟨k, hk, b, hb, -⟩ := hR.exists_listed hx
    rcases memoryAlloc_spec hR (le_refl 2) (by decide) with ⟨a, h', hok, -, -⟩ | ⟨-, hall⟩
    · rw [malloc_eq, horder, if_neg (by decide), hok, ok_bind] at herr
      exact nomatch herr
    · exact absurd hb ((hR.head_eq_empty_iff hk).mp (hall k (Nat.zero_le k) hk) b)

/-- A request that wraps around gets a block that is too small. -/
theorem not_adequate (hw : h.WellFormed) (hlarge : 2 ^ 32 - 3 ≤ size) (hsize : size < 2 ^ 32)
    (hne : h.freeSet.Nonempty) : ¬ h.Adequate size := by
  obtain ⟨a, h', hok, -, hmanaged, hword⟩ :=
    malloc_word (wellFormed_iff_rep.mp hw) hne (mallocOrder_wraps hlarge hsize)
  have htop := hmanaged.2
  unfold PAGE_OFFSET MAX_MAPPING at htop
  rintro (herr | ⟨p, g, b, bit, hok', hG⟩)
  · exact nomatch herr.symm.trans hok
  · obtain ⟨rfl, rfl⟩ := Prod.mk.inj (Except.ok.inj (hok.symm.trans hok'))
    have hptr := hG.pointer
    have hroom := hG.room
    rw [add32_of_lt (by omega)] at hptr hroom
    obtain rfl : a = b := by omega
    rw [← hG.header, hword] at hroom
    omega

/-- **The sizes `malloc` serves.** A request is served, or the machine stops, unless it is one of the
three largest `u32` and there is free memory. -/
theorem adequate_iff (hw : h.WellFormed) (hsize : size < 2 ^ 32) :
    h.Adequate size ↔ size < 2 ^ 32 - 3 ∨ h.freeSet = ∅ := by
  have hR := wellFormed_iff_rep.mp hw
  constructor
  · intro hA
    by_contra hnot
    obtain ⟨hlarge, hne⟩ := not_or.mp hnot
    exact not_adequate hw (by omega) hsize (Set.nonempty_iff_ne_empty.mpr hne) hA
  · rintro (hsmall | hempty)
    · rcases @malloc_spec h _ size hR with ⟨a, h', hok, ha, hT, hword⟩ | herr
      · exact Or.inr ⟨_, _, _, _, hok, granted_of_taken hR ha hT hword hsmall⟩
      · exact Or.inl herr
    · rw [hempty] at hR
      exact Or.inl (malloc_of_empty hR)

/-- The largest request that is not cut down. -/
theorem adequate_iff_large : ∃ h : Heap, h.freeSet.Nonempty ∧ h.Adequate (2 ^ 32 - 4) := by
  obtain ⟨h, -, hw, hfree⟩ := exists_pool
  refine ⟨h, ⟨0xC0201000, ?_⟩, (adequate_iff hw (by decide)).mpr (Or.inl (by decide))⟩
  rw [hfree]
  exact ⟨le_rfl, by decide⟩

/-- With free memory, `malloc` of the largest `u32` returns a block of one word. -/
theorem not_adequate_largest :
    ¬ ∀ (h : Heap) (size : Nat), h.WellFormed → size < 2 ^ 32 → h.Adequate size := by
  intro hall
  obtain ⟨h, -, hw, hfree⟩ := exists_pool
  refine not_adequate hw (show 2 ^ 32 - 3 ≤ 2 ^ 32 - 1 by decide) (by decide) ⟨0xC0201000, ?_⟩
    (hall h _ hw (by decide))
  rw [hfree]
  exact ⟨le_rfl, by decide⟩

end Heap

end NorlitOS
