import NorlitOS.Memory.BootMap
import Mathlib.Data.List.Sort

/-!
# The free memory determines the lists

The lists of a well-formed heap are the maximal blocks of its free memory in ascending order, so
two heaps with the same free memory have the same lists, whatever calls have led to them. Hence the
order in which ranges are released does not matter, nor how they are cut, and an allocation that is
given back leaves no trace.
-/

namespace NorlitOS

open Dyadic

namespace Heap

variable {h h' : Heap} {F : Set Nat} {k : Nat} {l l' : List Nat} {rs ps : List (Nat × Nat)}

/-- The lists hold the same blocks in the same order, and the counters agree. -/
structure SameBlocks (h h' : Heap) : Prop where
  lists : ∀ k < 28, ∀ l, Chain h.load EMPTY (.head k) l ↔ Chain h'.load EMPTY (.head k) l
  counter : h.freeMemoryCounter = h'.freeMemoryCounter

/-- An ascending list is determined by its members. -/
theorem eq_of_maximal (hs : l.Pairwise (· < ·)) (hs' : l'.Pairwise (· < ·))
    (hm : ∀ a, a ∈ l ↔ Maximal F k a) (hm' : ∀ a, a ∈ l' ↔ Maximal F k a) : l = l' :=
  hs.eq_of_mem_iff hs' fun a => (hm a).trans (hm' a).symm

/-- **The canonical form.** Heaps that represent the same free set have the same lists. -/
theorem Rep.sameBlocks (hR : Rep h F) (hR' : Rep h' F) : SameBlocks h h' := by
  refine ⟨fun k hk m => ?_, hR.counter.trans hR'.counter.symm⟩
  obtain ⟨l, hc, hs, hm⟩ := hR.lists k hk
  obtain ⟨l', hc', hs', hm'⟩ := hR'.lists k hk
  have hl : l = l' := eq_of_maximal hs hs' hm hm'
  constructor
  · intro hcm
    rw [hcm.unique hc, hl]
    exact hc'
  · intro hcm
    rw [hcm.unique hc', ← hl]
    exact hc

/-! ## Allocating and giving back -/

variable {size bit a p : Nat}

theorem Taken.sdiff_union {B : Set Nat} (hT : Taken h F B h') : F \ B ∪ B = F :=
  Set.sdiff_union_of_subset hT.free

/-- Giving back the block that has been taken. -/
theorem Taken.free_block (hR : Rep h F) (hT : Taken h F (block bit a) h') (hlo : 2 ≤ bit)
    (ha : 2 ^ bit ∣ a) : ∃ h'', h'.memoryBlockFree a bit = .ok h'' ∧ SameBlocks h h'' := by
  obtain ⟨h'', hok, hF⟩ := memoryBlockFree_spec hT.rep hlo ha (hT.free.trans hR.inside)
    Set.disjoint_sdiff_right
  have hR'' := hF.rep
  rw [hT.sdiff_union] at hR''
  exact ⟨h'', hok, hR.sameBlocks hR''⟩

/-- `free` looks for the size of the block in the word in front of the pointer. -/
theorem free_eq (hin : a ∈ managed) : h'.free (add32 a 4) = h'.memoryFreeNocheck a (h'.word a) := by
  have hlt := hin.2
  unfold PAGE_OFFSET MAX_MAPPING at hlt
  unfold Heap.free
  rw [add32_of_lt (by omega), sub32_of_le (by omega) (by omega), Nat.add_sub_cancel]
  rfl

/-- Giving back the block that `malloc` has taken. -/
theorem Taken.free_pointer (hR : Rep h F) (hT : Taken h F (block bit a) h') (hlo : 2 ≤ bit)
    (ha : 2 ^ bit ∣ a) (hword : h'.word a = 2 ^ bit) :
    ∃ h'', h'.free (add32 a 4) = .ok h'' ∧ SameBlocks h h'' := by
  have hin := hT.free.trans hR.inside
  have hfour : 4 ∣ (2 : Nat) ^ bit := pow_dvd_pow 2 hlo
  obtain ⟨h'', hok, hF⟩ := memoryFreeNocheck_spec hT.rep (hfour.trans ha) hfour
    (block_eq_range ha ▸ hin) (block_eq_range ha ▸ Set.disjoint_sdiff_right)
  have hR'' := hF.rep
  rw [← block_eq_range ha, hT.sdiff_union] at hR''
  refine ⟨h'', ?_, hR.sameBlocks hR''⟩
  rw [free_eq (hin (self_mem_block bit a)), hword]
  exact hok

/-- **Allocation followed by `free` is the identity** on the lists and the counter, for `malloc` as
well as for `memory_alloc`. -/
theorem alloc_then_free (hw : h.WellFormed) :
    (∀ size p h', h.malloc size = .ok (p, h') → ∃ h'', h'.free p = .ok h'' ∧ SameBlocks h h'') ∧
      ∀ bit a h', h.memoryAlloc bit = .ok (a, h') →
        ∃ h'', h'.memoryBlockFree a bit = .ok h'' ∧ SameBlocks h h'' := by
  have hR := wellFormed_iff_rep.mp hw
  constructor
  · intro size p h' hok
    rcases @malloc_spec h _ size hR with ⟨a, g, hok', ha, hT, hword⟩ | herr
    · obtain ⟨rfl, rfl⟩ := Prod.mk.inj (Except.ok.inj (hok.symm.trans hok'))
      exact hT.free_pointer hR (le_mallocBit _ _ _) ha hword
    · cases hok.symm.trans herr
  · intro bit a h' hok
    -- orders without a list are read past the array
    have hbit : 2 ≤ bit ∧ bit ≤ 29 := by
      by_contra hout
      rw [memoryAlloc, if_pos (by omega)] at hok
      cases hok
    rcases memoryAlloc_spec hR hbit.1 hbit.2 with ⟨b, g, hok', hb, hT⟩ | ⟨herr, -⟩
    · obtain ⟨rfl, rfl⟩ := Prod.mk.inj (Except.ok.inj (hok.symm.trans hok'))
      exact hT.free_block hR hbit.1 hb
    · cases hok.symm.trans herr

/-- A heap with seven free pages. -/
theorem exists_pool : ∃ h, (init fun _ => 0).memoryFreeNocheck 0xC0201000 0x7000 = .ok h ∧
    h.WellFormed ∧ h.freeSet = range 0xC0201000 0x7000 := by
  obtain ⟨h, hok, hF⟩ := memoryFreeNocheck_spec
    (init_rep fun _ => 0) (show 4 ∣ 0xC0201000 by decide) (show 4 ∣ 0x7000 by decide)
    (fun x hx => ⟨le_trans (by decide) hx.1, lt_of_lt_of_le hx.2 (by decide)⟩)
    (Set.disjoint_empty _)
  obtain ⟨hw, hfree⟩ := hF.rep.wellFormed
  exact ⟨h, hok, hw, by rw [hfree, Set.empty_union]⟩

/-- A request that splits a block, and `free`. -/
theorem alloc_then_free_hundred : ∃ h p h' h'', h.WellFormed ∧ h.malloc 100 = .ok (p, h') ∧
    h'.free p = .ok h'' ∧ SameBlocks h h'' := by
  obtain ⟨h, hpool, hw, -⟩ := exists_pool
  obtain ⟨g, p, h', hg, hok⟩ : ∃ g p h', (init fun _ => 0).memoryFreeNocheck 0xC0201000 0x7000 = .ok g ∧
      g.malloc 100 = .ok (p, h') := ⟨_, _, _, rfl, rfl⟩
  obtain rfl := Except.ok.inj (hg.symm.trans hpool)
  obtain ⟨h'', hfree, hsame⟩ := (alloc_then_free hw).1 100 p h' hok
  exact ⟨g, p, h', h'', hw, hok, hfree, hsame⟩

/-! ## The order of releasing -/

/-- Word-aligned ranges, no two of which meet. -/
structure Separate (rs : List (Nat × Nat)) : Prop where
  words : ∀ r ∈ rs, 4 ∣ r.1 ∧ 4 ∣ r.2
  apart : rs.Pairwise fun r r' => Disjoint (range r.1 r.2) (range r'.1 r'.2)

/-- **The order of releasing does not matter.** Ranges of the managed memory that are not free may
be released in any order, and cut into any pieces: `ps` are ranges with the same addresses. -/
theorem release_order (hw : h.WellFormed) (hrs : Separate rs) (hps : Separate ps)
    (hcover : covered ps = covered rs) (hin : covered rs ⊆ managed)
    (hused : Disjoint (covered rs) h.freeSet) :
    ∃ h₁ h₂, release rs h = .ok h₁ ∧ release ps h = .ok h₂ ∧ SameBlocks h₁ h₂ := by
  have hR := wellFormed_iff_rep.mp hw
  obtain ⟨h₁, hok₁, hR₁⟩ := release_spec hR hrs.words hin hused hrs.apart
  obtain ⟨h₂, hok₂, hR₂⟩ := release_spec hR hps.words (hcover ▸ hin) (hcover ▸ hused) hps.apart
  rw [hcover] at hR₂
  exact ⟨h₁, h₂, hok₁, hok₂, hR₁.sameBlocks hR₂⟩

/-- Seven pages at once, or the last five and then the first two. -/
theorem release_order_pages : ∃ h₁ h₂, release [(0xC0201000, 0x7000)] (init fun _ => 0) = .ok h₁ ∧
    release [(0xC0203000, 0x5000), (0xC0201000, 0x2000)] (init fun _ => 0) = .ok h₂ ∧
    SameBlocks h₁ h₂ := by
  refine release_order (init_rep _).wellFormed.1 ⟨by decide, List.pairwise_singleton _ _⟩
    ⟨by decide, List.pairwise_pair.mpr ?_⟩ ?_ ?_ ?_
  · refine Set.disjoint_left.mpr fun x hx hx' => ?_
    exact absurd hx'.2 (Nat.not_lt.mpr hx.1)
  · simp only [covered_cons, covered_nil, Set.union_empty]
    rw [Set.union_comm]
    exact (range_add 0xC0201000 0x2000 0x5000).symm
  · simp only [covered_cons, covered_nil, Set.union_empty]
    exact fun x hx => ⟨le_trans (by decide) hx.1, lt_of_lt_of_le hx.2 (by decide)⟩
  · rw [(init_rep _).wellFormed.2]
    exact Set.disjoint_empty _

end Heap

end NorlitOS
