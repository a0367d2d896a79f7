import NorlitOS.Lib.Run
import NorlitOS.Memory.Alloc
import Mathlib.Algebra.BigOperators.Group.Finset.Basic
import Mathlib.Algebra.Order.BigOperators.Group.Finset

/-!
# The representation invariant of the allocator

`WellFormed` states the invariant in terms of the lists alone. It is the same thing as `Rep`
for the set of addresses on the lists (`wellFormed_iff_rep`): in one direction by the uniqueness
of the coalesced form, in the other by the laws of maximal blocks. A `Session` runs the
allocator's calls in any order, with stores of its clients in between.
-/

namespace NorlitOS

open Dyadic

namespace Heap

variable {h : Heap} {F : Set Nat} {L : Nat → List Nat}

/-! ## Well-formed lists -/

/-- The free lists of `h` are `L`, and they are in order. -/
structure WellFormedAs (h : Heap) (L : Nat → List Nat) : Prop where
  terminated : ∀ k < 28, Chain h.load EMPTY (.head k) (L k)
  ascending : ∀ k < 28, (L k).Pairwise (· < ·)
  aligned : ∀ k < 28, ∀ a ∈ L k, 2 ^ (k + 2) ∣ a
  inside : ∀ k < 28, ∀ a ∈ L k, range a (2 ^ (k + 2)) ⊆ managed
  disjoint : ∀ k < 28, ∀ a ∈ L k, ∀ j < 28, ∀ b ∈ L j, (k, a) ≠ (j, b) →
    Disjoint (range a (2 ^ (k + 2))) (range b (2 ^ (j + 2)))
  coalesced : ∀ k < 28, ∀ a ∈ L k, buddy (k + 2) a ∉ L k
  counter : h.freeMemoryCounter = ∑ k ∈ Finset.range 28, (L k).length * 2 ^ (k + 2)

/-- Every list ascends and ends in `EMPTY`; its blocks are aligned, disjoint and coalesced; the
counter is the sum of their sizes. -/
def WellFormed (h : Heap) : Prop := ∃ L, h.WellFormedAs L

/-- The addresses of the blocks on the lists. -/
def freeSet (h : Heap) : Set Nat :=
  {x | ∃ k < 28, ∃ l, Chain h.load EMPTY (.head k) l ∧ ∃ a ∈ l, x ∈ range a (2 ^ (k + 2))}

/-- The blocks on the lists, as a family. -/
def listed (L : Nat → List Nat) (j a : Nat) : Prop := ∃ k < 28, j = k + 2 ∧ a ∈ L k

theorem WellFormedAs.coalesced_listed (hw : h.WellFormedAs L) : Coalesced (listed L) where
  aligned := by
    rintro _ a ⟨k, hk, rfl, ha⟩
    exact hw.aligned k hk a ha
  disjoint := by
    rintro _ a _ b ⟨k, hk, rfl, ha⟩ ⟨j, hj, rfl, hb⟩ hne
    rw [block_eq_range (hw.aligned k hk a ha), block_eq_range (hw.aligned j hj b hb)]
    refine hw.disjoint k hk a ha j hj b hb fun heq => hne ?_
    rw [(Prod.mk.inj heq).1, (Prod.mk.inj heq).2]
  not_buddy := by
    rintro _ a ⟨k, hk, rfl, ha⟩ ⟨j, _, hkj, hb⟩
    obtain rfl : k = j := by omega
    exact hw.coalesced k hk a ha hb

theorem WellFormedAs.mem_freeSet (hw : h.WellFormedAs L) {x : Nat} :
    x ∈ h.freeSet ↔ ∃ k < 28, ∃ a ∈ L k, x ∈ range a (2 ^ (k + 2)) := by
  constructor
  · rintro ⟨k, hk, l, hc, a, ha, hx⟩
    obtain rfl := hc.unique (hw.terminated k hk)
    exact ⟨k, hk, a, ha, hx⟩
  · rintro ⟨k, hk, a, ha, hx⟩
    exact ⟨k, hk, L k, hw.terminated k hk, a, ha, hx⟩

theorem WellFormedAs.region_listed (hw : h.WellFormedAs L) : region (listed L) = h.freeSet := by
  ext x
  rw [hw.mem_freeSet]
  constructor
  · rintro ⟨_, a, ⟨k, hk, rfl, ha⟩, hx⟩
    exact ⟨k, hk, a, ha, block_eq_range (hw.aligned k hk a ha) ▸ hx⟩
  · rintro ⟨k, hk, a, ha, hx⟩
    exact ⟨k + 2, a, ⟨k, hk, rfl, ha⟩, (block_eq_range (hw.aligned k hk a ha)).symm ▸ hx⟩

/-- The sum of the block sizes is the size of the set the lists cover. -/
theorem sum_sizes (hsort : ∀ k < 28, (L k).Pairwise (· < ·))
    (hdis : ∀ k < 28, ∀ a ∈ L k, ∀ j < 28, ∀ b ∈ L j, (k, a) ≠ (j, b) →
      Disjoint (range a (2 ^ (k + 2))) (range b (2 ^ (j + 2))))
    (hF : ∀ x, x ∈ F ↔ ∃ k < 28, ∃ a ∈ L k, x ∈ range a (2 ^ (k + 2))) :
    F.ncard = ∑ k ∈ Finset.range 28, (L k).length * 2 ^ (k + 2) := by
  let part : Nat → Finset Nat := fun k =>
    (L k).toFinset.biUnion fun a => Finset.Ico a (a + 2 ^ (k + 2))
  have hmem : ∀ {k a x}, x ∈ Finset.Ico a (a + 2 ^ (k + 2)) ↔ x ∈ range a (2 ^ (k + 2)) :=
    Finset.mem_Ico
  have hset : F = ↑((Finset.range 28).biUnion part) := by
    ext x
    simp only [hF, part, Finset.coe_biUnion, Set.mem_iUnion, Finset.mem_coe, Finset.mem_range,
      List.mem_toFinset, hmem, exists_prop]
  -- the blocks of one order are apart, and each has its size
  have hpart : ∀ k ∈ Finset.range 28, (part k).card = (L k).length * 2 ^ (k + 2) := by
    intro k hk
    have hk := Finset.mem_range.mp hk
    have hcard : ∀ a ∈ (L k).toFinset, (Finset.Ico a (a + 2 ^ (k + 2))).card = 2 ^ (k + 2) := by
      intro a _
      rw [Nat.card_Ico, Nat.add_sub_cancel_left]
    rw [Finset.card_biUnion, Finset.sum_const_nat hcard,
      List.toFinset_card_of_nodup ((hsort k hk).imp fun hab => Nat.ne_of_lt hab)]
    intro a ha b hb hab
    refine Finset.disjoint_left.mpr fun x hxa hxb => ?_
    have := hdis k hk a (List.mem_toFinset.mp ha) k hk b (List.mem_toFinset.mp hb)
      fun heq => hab (Prod.mk.inj heq).2
    exact Set.disjoint_left.mp this (hmem.mp hxa) (hmem.mp hxb)
  rw [hset, Set.ncard_coe_finset, Finset.card_biUnion, Finset.sum_congr rfl hpart]
  -- so are the blocks of different orders
  intro k hk j hj hkj
  refine Finset.disjoint_left.mpr fun x hxk hxj => ?_
  obtain ⟨a, ha, hxa⟩ := Finset.mem_biUnion.mp hxk
  obtain ⟨b, hb, hxb⟩ := Finset.mem_biUnion.mp hxj
  have := hdis k (Finset.mem_range.mp hk) a (List.mem_toFinset.mp ha) j (Finset.mem_range.mp hj) b
    (List.mem_toFinset.mp hb) fun heq => hkj (Prod.mk.inj heq).1
  exact Set.disjoint_left.mp this (hmem.mp hxa) (hmem.mp hxb)

/-- From the lists to the set: well-formed lists are the maximal blocks of what they cover. -/
theorem WellFormedAs.rep (hw : h.WellFormedAs L) : Rep h h.freeSet := by
  have hmax : ∀ {k a}, k < 28 → (a ∈ L k ↔ Maximal h.freeSet (k + 2) a) := by
    intro k a hk
    rw [← hw.region_listed, ← hw.coalesced_listed.iff_maximal]
    refine ⟨fun ha => ⟨k, hk, rfl, ha⟩, ?_⟩
    rintro ⟨j, _, hkj, ha⟩
    obtain rfl : k = j := by omega
    exact ha
  refine ⟨fun x hx => ?_, fun x hx => ?_, fun k hk => ?_, ?_⟩
  · obtain ⟨k, hk, a, ha, hx⟩ := hw.mem_freeSet.mp hx
    exact hw.inside k hk a ha hx
  · obtain ⟨k, hk, a, ha, hx⟩ := hw.mem_freeSet.mp hx
    rw [← block_eq_range (hw.aligned k hk a ha)] at hx
    exact (block_subset_of_meet (by omega) (self_mem_block 2 x) hx).trans ((hmax hk).mp ha).covered
  · exact ⟨L k, hw.terminated k hk, hw.ascending k hk, fun a => hmax hk⟩
  · rw [hw.counter, sum_sizes hw.ascending hw.disjoint fun x => hw.mem_freeSet]

/-- Every free address lies in a listed block: managed blocks have an order below 30, and whole
words are free, so the order is at least 2. -/
theorem Rep.exists_listed (hR : Rep h F) {x : Nat} (hx : x ∈ F) :
    ∃ k < 28, ∃ a, Maximal F (k + 2) a ∧ x ∈ block (k + 2) a := by
  have hbig : ¬ block 30 x ⊆ F := fun hsub => by
    have := bit_le_of_managed (hsub.trans hR.inside)
    omega
  obtain ⟨k, a, hk, hm, hxa⟩ := exists_maximal hx hbig
  have hk2 : 2 ≤ k := hm.order_le hxa (self_mem_block 2 x) (hR.words x hx)
  exact ⟨k - 2, by omega, a, by rwa [Nat.sub_add_cancel hk2], by rwa [Nat.sub_add_cancel hk2]⟩

/-- From the set to the lists. -/
theorem Rep.wellFormed (hR : Rep h F) : h.WellFormed ∧ h.freeSet = F := by
  choose! L hc hs hm using hR.lists
  have haligned : ∀ k < 28, ∀ a ∈ L k, 2 ^ (k + 2) ∣ a :=
    fun k hk a ha => ((hm k hk a).mp ha).aligned
  have hdisjoint : ∀ k < 28, ∀ a ∈ L k, ∀ j < 28, ∀ b ∈ L j, (k, a) ≠ (j, b) →
      Disjoint (range a (2 ^ (k + 2))) (range b (2 ^ (j + 2))) := by
    intro k hk a ha j hj b hb hne
    rw [← block_eq_range (haligned k hk a ha), ← block_eq_range (haligned j hj b hb)]
    refine ((hm k hk a).mp ha).disjoint ((hm j hj b).mp hb) fun heq => hne ?_
    obtain ⟨hkj, rfl⟩ := Prod.mk.inj heq
    rw [show k = j from by omega]
  -- the listed blocks are the maximal ones, which cover the free set
  have hcover : ∀ x, x ∈ F ↔ ∃ k < 28, ∃ a ∈ L k, x ∈ range a (2 ^ (k + 2)) := by
    intro x
    constructor
    · intro hx
      obtain ⟨k, hk, a, hmax, hxa⟩ := hR.exists_listed hx
      exact ⟨k, hk, a, (hm k hk a).mpr hmax, block_eq_range hmax.aligned ▸ hxa⟩
    · rintro ⟨k, hk, a, ha, hxa⟩
      rw [← block_eq_range (haligned k hk a ha)] at hxa
      exact ((hm k hk a).mp ha).covered hxa
  have hw : h.WellFormedAs L := by
    refine ⟨hc, hs, haligned, fun k hk a ha => ?_, hdisjoint, fun k hk a ha hb => ?_, ?_⟩
    · rw [← block_eq_range (haligned k hk a ha)]
      exact ((hm k hk a).mp ha).covered.trans hR.inside
    · exact ((hm k hk a).mp ha).not_buddy ((hm k hk _).mp hb)
    · rw [hR.counter, sum_sizes hs hdisjoint hcover]
  refine ⟨⟨L, hw⟩, ?_⟩
  ext x
  rw [hw.mem_freeSet, hcover]

/-- The invariant on lists and the representation of the listed addresses are the same. -/
theorem wellFormed_iff_rep : h.WellFormed ↔ Rep h h.freeSet := by
  constructor
  · rintro ⟨L, hw⟩
    exact hw.rep
  · exact fun hR => hR.wellFormed.1

theorem init_rep (word : Nat → Nat) : Rep (init word) ∅ := by
  refine ⟨Set.empty_subset _, fun x hx => hx.elim, fun k _ => ⟨[], rfl, List.Pairwise.nil, ?_⟩, ?_⟩
  · intro a
    refine ⟨fun ha => absurd ha List.not_mem_nil, fun hm => ?_⟩
    exact (hm.covered (self_mem_block _ a)).elim
  · rw [Set.ncard_empty]
    rfl

end Heap

end NorlitOS
