import Mathlib.Data.Nat.Bitwise
import Mathlib.Data.Set.Card
import Mathlib.Order.CompletePartialOrder
import Mathlib.Order.Interval.Finset.Nat
import Mathlib.Tactic.Ring

/-!
# Dyadic blocks and coalesced families

The order-`k` block of an address `a` is the set of addresses that agree with `a` above bit
`k`. Two blocks are nested or disjoint, so a set of addresses has at most one description as
a family of disjoint blocks in which no two buddies are both present: the family of its
*maximal* blocks. This module proves that, and how the maximal blocks change when one block
is added to or taken from the set. Nothing here mentions lists, memory or an allocator.
-/

namespace Dyadic

/-- The addresses that share all bits from bit `k` up with `a`. -/
def block (k a : Nat) : Set Nat := {x | x / 2 ^ k = a / 2 ^ k}

/-- The base of the other half of the order-`k+1` block holding `a`. -/
def buddy (k a : Nat) : Nat := if a.testBit k then a - 2 ^ k else a + 2 ^ k

/-! ## Blocks

A block is a residue class of the division by `2 ^ k`. That two of them are nested or apart needs
no order on addresses, only that a larger block is a coarser division. -/

theorem mem_block {k a x : Nat} : x ∈ block k a ↔ x / 2 ^ k = a / 2 ^ k := Iff.rfl

theorem self_mem_block (k a : Nat) : a ∈ block k a := rfl

/-- A block is that of any address in it. -/
theorem block_eq_of_mem {k a x : Nat} (h : x ∈ block k a) : block k x = block k a := by
  ext y
  rw [mem_block, mem_block, mem_block.mp h]

/-- Division by a bigger power of two factors through the smaller one. -/
theorem div_pow_of_le {j k : Nat} (h : j ≤ k) (x : Nat) :
    x / 2 ^ k = x / 2 ^ j / 2 ^ (k - j) := by
  rw [Nat.div_div_eq_div_mul, ← pow_add, Nat.add_sub_cancel' h]

theorem block_mono {j k : Nat} (h : j ≤ k) (a : Nat) : block j a ⊆ block k a := by
  intro x hx
  rw [mem_block] at hx ⊢
  rw [div_pow_of_le h, div_pow_of_le h, hx]

/-- Blocks that meet are nested, the smaller order inside the bigger one. -/
theorem block_subset_of_meet {j k a b x : Nat} (h : j ≤ k) (ha : x ∈ block j a)
    (hb : x ∈ block k b) : block j a ⊆ block k b := by
  rw [← block_eq_of_mem ha, ← block_eq_of_mem hb]
  exact block_mono h x

/-- Blocks of aligned bases are half-open intervals. -/
theorem mem_block_iff {k a x : Nat} (ha : 2 ^ k ∣ a) :
    x ∈ block k a ↔ a ≤ x ∧ x < a + 2 ^ k := by
  obtain ⟨q, rfl⟩ := ha
  have hpos : 0 < 2 ^ k := Nat.two_pow_pos k
  rw [mem_block, Nat.mul_div_cancel_left q hpos, Nat.div_eq_iff hpos, Nat.mul_comm q]
  omega

/-- A block has one base. -/
theorem eq_of_aligned_mem {k a b : Nat} (ha : 2 ^ k ∣ a) (hb : 2 ^ k ∣ b)
    (h : b ∈ block k a) : b = a := by
  have h1 := (mem_block_iff ha).mp h
  have h2 := (mem_block_iff hb).mp (block_eq_of_mem h ▸ self_mem_block k a)
  omega

/-- The smallest blocks are single addresses. -/
theorem block_zero (a : Nat) : block 0 a = {a} := by
  ext x
  simp [mem_block]

/-- A block is finite and holds `2 ^ k` addresses. -/
theorem block_eq_Ico {k a : Nat} (ha : 2 ^ k ∣ a) :
    block k a = ↑(Finset.Ico a (a + 2 ^ k)) := by
  ext x
  rw [mem_block_iff ha, Finset.coe_Ico, Set.mem_Ico]

/-- A block of order `k` has `2 ^ k` addresses. -/
theorem block_ncard {k a : Nat} (ha : 2 ^ k ∣ a) : (block k a).ncard = 2 ^ k := by
  rw [block_eq_Ico ha, Set.ncard_coe_finset, Nat.card_Ico]
  omega

theorem block_finite {k a : Nat} (ha : 2 ^ k ∣ a) : (block k a).Finite := by
  rw [block_eq_Ico ha]
  exact Finset.finite_toSet _

/-! ## Buddies

The two halves of a block of the next order. The base of a block tells which half it is by its bit
`k`. -/

/-- Bit `k` is the parity of what is left of the address. -/
theorem testBit_iff_odd {k a : Nat} : a.testBit k = true ↔ a / 2 ^ k % 2 = 1 := by
  rw [Nat.testBit_eq_decide_div_mod_eq, decide_eq_true_iff]

/-- An upper half has room for a lower one below it. -/
theorem testBit_sub_le {k a : Nat} (h : a.testBit k = true) : 2 ^ k ≤ a := by
  by_contra hlt
  rw [testBit_iff_odd, Nat.div_eq_of_lt (by omega)] at h
  omega

/-- The buddy is the neighbour on the side that the bit says. -/
theorem buddy_div {k a : Nat} :
    buddy k a / 2 ^ k = if a.testBit k then a / 2 ^ k - 1 else a / 2 ^ k + 1 := by
  have hpos : 0 < 2 ^ k := Nat.two_pow_pos k
  unfold buddy
  split
  · simpa using Nat.sub_mul_div a (2 ^ k) 1
  · rw [Nat.add_div_right _ hpos]

/-- A block and its buddy make up the block of the next order. -/
theorem block_succ (k a : Nat) : block (k + 1) a = block k a ∪ block k (buddy k a) := by
  ext x
  have hx : x / 2 ^ (k + 1) = x / 2 ^ k / 2 := by rw [pow_succ, Nat.div_div_eq_div_mul]
  have ha : a / 2 ^ (k + 1) = a / 2 ^ k / 2 := by rw [pow_succ, Nat.div_div_eq_div_mul]
  rw [Set.mem_union, mem_block, mem_block, mem_block, buddy_div, hx, ha]
  have hodd := testBit_iff_odd (k := k) (a := a)
  generalize a / 2 ^ k = q at hodd ⊢
  generalize x / 2 ^ k = y
  split
  · have := hodd.mp ‹_›
    omega
  · have := mt hodd.mpr ‹_›
    omega

/-- The base of a buddy is aligned as well. -/
theorem buddy_aligned {k a : Nat} (ha : 2 ^ k ∣ a) : 2 ^ k ∣ buddy k a := by
  unfold buddy
  split
  · exact Nat.dvd_sub ha dvd_rfl
  · exact Nat.dvd_add ha dvd_rfl

/-- The lower half of a pair is aligned for the next order. -/
theorem aligned_succ {k a : Nat} (ha : 2 ^ k ∣ a) (h : a.testBit k = false) : 2 ^ (k + 1) ∣ a := by
  obtain ⟨q, rfl⟩ := ha
  have hodd : ¬ 2 ^ k * q / 2 ^ k % 2 = 1 := by
    rw [← testBit_iff_odd, h]
    exact Bool.false_ne_true
  rw [Nat.mul_div_cancel_left q (Nat.two_pow_pos k)] at hodd
  rw [pow_succ]
  exact Nat.mul_dvd_mul_left _ (Nat.dvd_of_mod_eq_zero (by omega))

/-- The buddy of an upper half is the base of both. -/
theorem buddy_aligned_succ {k a : Nat} (ha : 2 ^ k ∣ a) (h : a.testBit k = true) :
    2 ^ (k + 1) ∣ buddy k a := by
  rw [buddy, if_pos h]
  obtain ⟨q, rfl⟩ := ha
  have hodd := testBit_iff_odd.mp h
  rw [Nat.mul_div_cancel_left q (Nat.two_pow_pos k)] at hodd
  rw [pow_succ, ← Nat.mul_sub_one]
  exact Nat.mul_dvd_mul_left _ (Nat.dvd_of_mod_eq_zero (by omega))

theorem block_succ_buddy (k a : Nat) : block (k + 1) (buddy k a) = block (k + 1) a := by
  refine block_eq_of_mem ?_
  rw [block_succ]
  exact Or.inr (self_mem_block _ _)

/-- A block and its buddy are apart. -/
theorem buddy_disjoint (k a : Nat) : Disjoint (block k a) (block k (buddy k a)) := by
  rw [Set.disjoint_left]
  intro x hx hb
  rw [mem_block] at hx hb
  rw [hx, buddy_div] at hb
  cases h : a.testBit k
  · simp only [h, Bool.false_eq_true, if_false] at hb
    omega
  · have hodd := testBit_iff_odd.mp h
    simp only [h, if_true] at hb
    omega

/-- Removing one power of two makes the rest divisible by the next. -/
theorem dvd_succ_sub {k s : Nat} (hs : 2 ^ k ∣ s) (htest : s.testBit k = true) :
    2 ^ (k + 1) ∣ s - 2 ^ k := by
  have h := buddy_aligned_succ hs htest
  rwa [buddy, if_pos htest] at h

/-- The end of an upper half is aligned to the next order. -/
theorem dvd_succ_add {k a : Nat} (ha : 2 ^ k ∣ a) (htest : a.testBit k = true) :
    2 ^ (k + 1) ∣ a + 2 ^ k := by
  have hsub := dvd_succ_sub ha htest
  have hle := testBit_sub_le htest
  have heq : a + 2 ^ k = a - 2 ^ k + 2 ^ (k + 1) := by
    rw [pow_succ]
    omega
  rw [heq]
  exact Nat.dvd_add hsub dvd_rfl

/-! ## Maximal blocks -/

/-- `block k a`, with `a` its base, lies inside `F` and the next bigger block does not. -/
structure Maximal (F : Set Nat) (k a : Nat) : Prop where
  aligned : 2 ^ k ∣ a
  covered : block k a ⊆ F
  parent : ¬ block (k + 1) a ⊆ F

variable {F : Set Nat} {j k a b x : Nat}

/-- A block of `F` that meets a maximal block lies inside it. -/
theorem Maximal.order_le (h : Maximal F k a) (hx : x ∈ block k a) (hxb : x ∈ block j b)
    (hb : block j b ⊆ F) : j ≤ k := by
  by_contra hlt
  have hsub : block (k + 1) a ⊆ block j b :=
    block_subset_of_meet (by omega) (block_mono (Nat.le_succ k) a hx) hxb
  exact h.parent (hsub.trans hb)

/-- Distinct maximal blocks do not meet. -/
theorem Maximal.eq_of_meet (h : Maximal F k a) (h' : Maximal F j b) (hx : x ∈ block k a)
    (hxb : x ∈ block j b) : k = j ∧ a = b := by
  have hkj : k = j :=
    le_antisymm (h'.order_le hxb hx h.covered) (h.order_le hx hxb h'.covered)
  subst hkj
  have hmem : b ∈ block k a := by
    rw [← block_eq_of_mem hx, block_eq_of_mem hxb]
    exact self_mem_block k b
  exact ⟨rfl, (eq_of_aligned_mem h.aligned h'.aligned hmem).symm⟩

/-- Two maximal blocks are the same or apart. -/
theorem Maximal.disjoint (h : Maximal F k a) (h' : Maximal F j b) (hne : (k, a) ≠ (j, b)) :
    Disjoint (block k a) (block j b) := by
  rw [Set.disjoint_left]
  intro x hx hxb
  obtain ⟨rfl, rfl⟩ := h.eq_of_meet h' hx hxb
  exact hne rfl

/-- The maximal blocks are coalesced: never both buddies of a pair. -/
theorem Maximal.not_buddy (h : Maximal F k a) : ¬ Maximal F k (buddy k a) := by
  intro h'
  apply h.parent
  rw [block_succ]
  exact Set.union_subset h.covered h'.covered

/-- Every address of a set that contains no arbitrarily big block lies in a maximal block. -/
theorem exists_maximal (hx : x ∈ F) {n : Nat} (hn : ¬ block n x ⊆ F) :
    ∃ k a, k < n ∧ Maximal F k a ∧ x ∈ block k a := by
  have hex : ∃ m, ¬ block m x ⊆ F := ⟨n, hn⟩
  classical
  -- the smallest order at which the block sticks out of `F`
  obtain ⟨hm, hmin⟩ : ¬ block (Nat.find hex) x ⊆ F ∧
      ∀ i, i < Nat.find hex → block i x ⊆ F :=
    ⟨Nat.find_spec hex, fun i hi => not_not.mp (Nat.find_min hex hi)⟩
  have hle : Nat.find hex ≤ n := Nat.find_min' hex hn
  cases hfind : Nat.find hex with
  | zero =>
    rw [hfind, block_zero] at hm
    exact absurd (Set.singleton_subset_iff.mpr hx) hm
  | succ k =>
    rw [hfind] at hm hmin
    have hbase : x / 2 ^ k * 2 ^ k ∈ block k x := by
      rw [mem_block, Nat.mul_div_cancel _ (Nat.two_pow_pos k)]
    refine ⟨k, x / 2 ^ k * 2 ^ k, by omega, ⟨dvd_mul_left _ _, ?_, ?_⟩, ?_⟩
    · rw [block_eq_of_mem hbase]
      exact hmin k (Nat.lt_succ_self k)
    · rw [block_eq_of_mem (block_mono (Nat.le_succ k) x hbase)]
      exact hm
    · rw [block_eq_of_mem hbase]
      exact self_mem_block k x

/-! ## Adding and taking one block

A block that is added stands by itself if its buddy is not covered, and otherwise melts into the
next order. These are the steps of freeing and of splitting in a buddy system. -/

/-- For a block outside `F`, its buddy is inside `F` exactly when it is a maximal block. -/
theorem maximal_buddy_iff (ha : 2 ^ k ∣ a) (hd : Disjoint (block k a) F) :
    Maximal F k (buddy k a) ↔ block k (buddy k a) ⊆ F := by
  refine ⟨fun h => h.covered, fun h => ⟨buddy_aligned ha, h, fun hp => ?_⟩⟩
  have hmem : a ∈ block (k + 1) (buddy k a) := by
    have hb : buddy k a ∈ block (k + 1) a := by
      rw [block_succ]
      exact Or.inr (self_mem_block _ _)
    rw [block_eq_of_mem hb]
    exact self_mem_block _ _
  exact Set.disjoint_left.mp hd (self_mem_block k a) (hp hmem)

/-- Adding a block whose buddy is not in the set adds it to the maximal blocks. -/
theorem maximal_union_iff (ha : 2 ^ k ∣ a) (hd : Disjoint (block k a) F)
    (hb : ¬ block k (buddy k a) ⊆ F) :
    Maximal (F ∪ block k a) j b ↔ Maximal F j b ∨ (j = k ∧ b = a) := by
  -- a block inside the enlarged set that is bigger than the new one would hold its buddy
  have hbig : ∀ {i c y}, k < i → y ∈ block k a → y ∈ block i c →
      ¬ block i c ⊆ F ∪ block k a := by
    intro i c y hi hy hyc hsub
    apply hb
    intro z hz
    have hz1 : z ∈ block i c := by
      refine block_subset_of_meet (j := k + 1) hi (block_mono (Nat.le_succ k) a hy) hyc ?_
      rw [block_succ]
      exact Or.inr hz
    exact (hsub hz1).resolve_right fun hza => Set.disjoint_left.mp (buddy_disjoint k a) hza hz
  constructor
  · intro h
    -- a maximal block of the larger set either meets the new one, and then is it, or was there
    -- before
    by_cases hmeet : ∃ y, y ∈ block k a ∧ y ∈ block j b
    · obtain ⟨y, hy, hyb⟩ := hmeet
      have hjk : j ≤ k := by
        by_contra hlt
        exact hbig (by omega) hy hyb h.covered
      rcases Nat.lt_or_eq_of_le hjk with hlt | rfl
      · refine absurd ?_ h.parent
        exact (block_subset_of_meet hlt (block_mono (Nat.le_succ j) b hyb) hy).trans
          Set.subset_union_right
      · refine Or.inr ⟨rfl, eq_of_aligned_mem ha h.aligned ?_⟩
        rw [← block_eq_of_mem hy, block_eq_of_mem hyb]
        exact self_mem_block j b
    · refine Or.inl ⟨h.aligned, fun y hy => ?_, fun hp => h.parent (hp.trans Set.subset_union_left)⟩
      exact (h.covered hy).resolve_right fun hya => hmeet ⟨y, hya, hy⟩
  · rintro (h | ⟨rfl, rfl⟩)
    · refine ⟨h.aligned, h.covered.trans Set.subset_union_left, fun hp => ?_⟩
      obtain ⟨y, hy, hyF⟩ := Set.not_subset.mp h.parent
      have hya : y ∈ block k a := (hp hy).resolve_left hyF
      rcases Nat.lt_or_ge k (j + 1) with hlt | hge
      · exact hbig hlt hya hy hp
      · -- the parent of `block j b` would lie in the new block, yet `block j b` is in `F`
        have hsub := block_subset_of_meet hge hy hya
        exact Set.disjoint_left.mp hd
          (hsub (block_mono (Nat.le_succ j) b (self_mem_block j b))) (h.covered (self_mem_block j b))
    · refine ⟨ha, Set.subset_union_right, hbig (Nat.lt_succ_self j) (self_mem_block j b) ?_⟩
      exact self_mem_block (j + 1) b

/-- Taking a maximal block away leaves the other maximal blocks as they were. -/
theorem maximal_diff_iff (hm : Maximal F k a) :
    Maximal (F \ block k a) j b ↔ Maximal F j b ∧ ¬ (j = k ∧ b = a) := by
  constructor
  · intro h
    have hcov : block j b ⊆ F := h.covered.trans Set.sdiff_subset
    refine ⟨⟨h.aligned, hcov, fun hp => ?_⟩, ?_⟩
    -- the parent sticks out of `F` itself, or meets the block that was taken out
    · obtain ⟨y, hy, hyF⟩ := Set.not_subset.mp h.parent
      have hya : y ∈ block k a := by
        by_contra hna
        exact hyF ⟨hp hy, hna⟩
      have hle := hm.order_le hya hy hp
      have hsub := block_subset_of_meet hle hy hya
      exact (h.covered (self_mem_block j b)).2
        (hsub (block_mono (Nat.le_succ j) b (self_mem_block j b)))
    · rintro ⟨rfl, rfl⟩
      exact (h.covered (self_mem_block j b)).2 (self_mem_block j b)
  · rintro ⟨h, hne⟩
    refine ⟨h.aligned, fun y hy => ⟨h.covered hy, fun hya => ?_⟩,
      fun hp => h.parent (hp.trans Set.sdiff_subset)⟩
    exact hne (h.eq_of_meet hm hy hya)

/-- Merging a block with its buddy and freeing the union is freeing the block. -/
theorem diff_buddy_union (hb : block k (buddy k a) ⊆ F) :
    F \ block k (buddy k a) ∪ block (k + 1) a = F ∪ block k a := by
  rw [block_succ]
  ext y
  simp only [Set.mem_union, Set.mem_sdiff]
  have := @hb y
  tauto

/-! ## Coalesced families

A family of blocks is given by the predicate `B k a`: the order-`k` block based at `a` is in
the family. -/

/-- Aligned, pairwise disjoint blocks, never both buddies of a pair. -/
structure Coalesced (B : Nat → Nat → Prop) : Prop where
  aligned : ∀ {k a}, B k a → 2 ^ k ∣ a
  disjoint : ∀ {k a j b}, B k a → B j b → (k, a) ≠ (j, b) → Disjoint (block k a) (block j b)
  not_buddy : ∀ {k a}, B k a → ¬ B k (buddy k a)

/-- The addresses a family of blocks covers. -/
def region (B : Nat → Nat → Prop) : Set Nat := {x | ∃ k a, B k a ∧ x ∈ block k a}

variable {B : Nat → Nat → Prop}

/-- Blocks of the family that meet are the same. -/
theorem Coalesced.eq_of_meet (hB : Coalesced B) (h : B k a) (h' : B j b) (hx : x ∈ block k a)
    (hxb : x ∈ block j b) : k = j ∧ a = b := by
  by_contra hne
  have hpair : (k, a) ≠ (j, b) := fun heq => hne (Prod.mk.inj heq)
  exact Set.disjoint_left.mp (hB.disjoint h h' hpair) hx hxb

/-- A covered block that no bigger member overlaps is itself a member: were it covered by
smaller members only, both its halves would be members, and they are buddies. -/
theorem Coalesced.mem_of_covered (hB : Coalesced B) (ha : 2 ^ k ∣ a)
    (hcov : block k a ⊆ region B)
    (hbig : ∀ {j b x}, k < j → B j b → x ∈ block k a → x ∉ block j b) : B k a := by
  -- on the order: if the block itself were missing, both halves would be members, and they are
  -- buddies
  induction k generalizing a with
  | zero =>
    obtain ⟨j, b, hb, hx⟩ := hcov (self_mem_block 0 a)
    rcases Nat.eq_zero_or_pos j with rfl | hj
    · rw [block_zero, Set.mem_singleton_iff] at hx
      exact hx ▸ hb
    · exact absurd hx (hbig hj hb (self_mem_block 0 a))
  | succ k ih =>
    by_cases hself : B (k + 1) a
    · exact hself
    exfalso
    -- each half is covered, and only smaller members overlap it
    have hhalf : ∀ c, 2 ^ k ∣ c → block k c ⊆ block (k + 1) a → B k c := by
      intro c hc hsub
      refine ih hc (hsub.trans hcov) ?_
      intro j b x hj hjb hx hxb
      rcases Nat.lt_or_eq_of_le (Nat.succ_le_of_lt hj) with hlt | rfl
      · exact hbig hlt hjb (hsub hx) hxb
      · have hmem : b ∈ block (k + 1) a := by
          rw [← block_eq_of_mem (hsub hx), block_eq_of_mem hxb]
          exact self_mem_block _ b
        exact hself (eq_of_aligned_mem ha (hB.aligned hjb) hmem ▸ hjb)
    have hak : 2 ^ k ∣ a := (pow_dvd_pow 2 (Nat.le_succ k)).trans ha
    have hsucc := block_succ k a
    exact hB.not_buddy (hhalf a hak (hsucc ▸ Set.subset_union_left))
      (hhalf _ (buddy_aligned hak) (hsucc ▸ Set.subset_union_right))

/-- **Uniqueness of the coalesced form.** The members of a coalesced family are exactly the
maximal blocks of the region it covers. -/
theorem Coalesced.iff_maximal (hB : Coalesced B) : B k a ↔ Maximal (region B) k a := by
  constructor
  · intro h
    refine ⟨hB.aligned h, fun x hx => ⟨k, a, h, hx⟩, fun hp => ?_⟩
    have hpos : 0 < 2 ^ (k + 1) := Nat.two_pow_pos _
    -- the base of the parent block
    set c := a / 2 ^ (k + 1) * 2 ^ (k + 1) with hc
    have hcm : c ∈ block (k + 1) a := by
      rw [mem_block, hc, Nat.mul_div_cancel _ hpos]
    have hca : a ∈ block (k + 1) c := by
      rw [block_eq_of_mem hcm]
      exact self_mem_block _ a
    have hmember : B (k + 1) c := by
      refine hB.mem_of_covered (hc ▸ dvd_mul_left _ _) (block_eq_of_mem hcm ▸ hp) ?_
      intro j b x hj hjb hx hxb
      have hsub := block_subset_of_meet hj.le hx hxb
      have hkj := (hB.eq_of_meet h hjb (self_mem_block k a) (hsub hca)).1
      omega
    have hkk := (hB.eq_of_meet h hmember (self_mem_block k a) hca).1
    omega
  · intro h
    refine hB.mem_of_covered h.aligned h.covered ?_
    intro j b x hj hjb hx hxb
    have hle := h.order_le hx hxb fun y hy => ⟨j, b, hjb, hy⟩
    omega

end Dyadic
