import NorlitOS.Lib.Dyadic
import Mathlib.Algebra.BigOperators.Group.Finset.Basic
import Mathlib.Algebra.Order.BigOperators.Group.Finset
import Mathlib.Algebra.BigOperators.Intervals

/-!
# Lists of free extents, one list an order

`L k` lists the bases of extents of `2 ^ k` units. `Extents n U L` says that the orders used are
below `n` and that the extents are aligned, inside `U` and apart from each other. Pushing an
extent that meets none of them, and popping the head of a list, keep it; each changes the region
the lists cover and their total size by that one extent.
-/

open Dyadic

/-- Aligned extents inside `U`, pairwise apart, of orders below `n`. -/
structure Extents (n : Nat) (U : Set Nat) (L : Nat → List Nat) : Prop where
  beyond : ∀ k, n ≤ k → L k = []
  nodup : ∀ k, (L k).Nodup
  aligned : ∀ k, ∀ a ∈ L k, 2 ^ k ∣ a
  inside : ∀ k, ∀ a ∈ L k, block k a ⊆ U
  apart : ∀ k, ∀ a ∈ L k, ∀ j, ∀ b ∈ L j, (k, a) ≠ (j, b) → Disjoint (block k a) (block j b)

namespace Extents

variable {n k j a b x : Nat} {U : Set Nat} {L : Nat → List Nat} {l : List Nat}

/-- The units the extents cover. -/
def region (L : Nat → List Nat) : Set Nat := {x | ∃ k, ∃ a ∈ L k, x ∈ block k a}

/-- Their number, counted list by list. -/
def total (n : Nat) (L : Nat → List Nat) : Nat := ∑ k ∈ Finset.range n, 2 ^ k * (L k).length

theorem block_subset_region (ha : a ∈ L k) : block k a ⊆ region L := fun _ hx => ⟨k, a, ha, hx⟩

theorem region_subset (h : Extents n U L) : region L ⊆ U := by
  intro x hx
  obtain ⟨k, a, ha, hx⟩ := hx
  exact h.inside k a ha hx

/-- A list with an extent in it is one of the first `n`. -/
theorem order_lt (h : Extents n U L) (ha : a ∈ L k) : k < n := by
  apply Nat.lt_of_not_le
  intro hk
  rw [h.beyond k hk] at ha
  exact List.not_mem_nil ha

/-- Without extents there is nothing to keep apart. -/
theorem empty : Extents n U fun _ => [] := by
  constructor <;> simp

theorem region_empty : region (fun _ => []) = ∅ := by
  apply Set.eq_empty_of_forall_notMem
  simp [region]

theorem total_empty : total n (fun _ => []) = 0 := by simp [total]

/-! ## Pushing an extent

An extent comes to the front of the list of its order. -/

/-- The lists have this extent more. -/
theorem mem_push : b ∈ Function.update L k (a :: L k) j ↔ b ∈ L j ∨ (j = k ∧ b = a) := by
  rcases eq_or_ne j k with rfl | hjk
  · simp only [Function.update_self, List.mem_cons, true_and]
    exact or_comm
  · simp [hjk]

/-- So has the region. -/
theorem region_push : region (Function.update L k (a :: L k)) = region L ∪ block k a := by
  ext x
  simp only [region, Set.mem_ofPred_eq, Set.mem_union, mem_push]
  constructor
  · intro hx
    obtain ⟨j, b, hb | ⟨rfl, rfl⟩, hx⟩ := hx
    · exact Or.inl ⟨j, b, hb, hx⟩
    · exact Or.inr hx
  · intro hx
    cases hx with
    | inl hx =>
      obtain ⟨j, b, hb, hx⟩ := hx
      exact ⟨j, b, Or.inl hb, hx⟩
    | inr hx => exact ⟨k, a, Or.inr ⟨rfl, rfl⟩, hx⟩

/-- The new extent has to be aligned, inside, and apart from the others. -/
theorem push (h : Extents n U L) (hk : k < n) (ha : 2 ^ k ∣ a) (hin : block k a ⊆ U)
    (hd : Disjoint (block k a) (region L)) : Extents n U (Function.update L k (a :: L k)) := by
  -- the new block is disjoint from the others, so it is none of them
  have hnew : a ∉ L k := fun hmem =>
    Set.disjoint_left.mp hd (self_mem_block k a) (block_subset_region hmem (self_mem_block k a))
  refine ⟨fun j hj => ?_, fun j => ?_, fun j b hb => ?_, fun j b hb => ?_,
    fun i b hb j c hc hne => ?_⟩
  · rw [Function.update_of_ne (by omega)]
    exact h.beyond j hj
  · rcases eq_or_ne j k with rfl | hjk
    · rw [Function.update_self]
      exact List.nodup_cons.mpr ⟨hnew, h.nodup j⟩
    · rw [Function.update_of_ne hjk]
      exact h.nodup j
  · obtain hb | ⟨rfl, rfl⟩ := mem_push.mp hb
    · exact h.aligned j b hb
    · exact ha
  · obtain hb | ⟨rfl, rfl⟩ := mem_push.mp hb
    · exact h.inside j b hb
    · exact hin
  · obtain hold | ⟨rfl, rfl⟩ := mem_push.mp hb
    · obtain hold' | ⟨rfl, rfl⟩ := mem_push.mp hc
      · exact h.apart i b hold j c hold' hne
      · exact (hd.mono_right (block_subset_region hold)).symm
    · obtain hold' | ⟨rfl, rfl⟩ := mem_push.mp hc
      · exact hd.mono_right (block_subset_region hold')
      · exact absurd rfl hne

/-- A list that grows by one element grows the total by one extent. -/
theorem total_update_cons (hk : k < n) :
    total n (Function.update L k (a :: l)) = total n (Function.update L k l) + 2 ^ k := by
  have hmem : k ∈ Finset.range n := Finset.mem_range.mpr hk
  have hrest : ∀ l' : List Nat, ∑ j ∈ Finset.range n \ {k}, 2 ^ j * (Function.update L k l' j).length =
      ∑ j ∈ Finset.range n \ {k}, 2 ^ j * (L j).length := by
    intro l'
    apply Finset.sum_congr rfl
    intro j hj
    rw [Function.update_of_ne (by simpa using (Finset.mem_sdiff.mp hj).2)]
  have hsplit : ∀ l' : List Nat, total n (Function.update L k l') =
      2 ^ k * l'.length + ∑ j ∈ Finset.range n \ {k}, 2 ^ j * (L j).length := by
    intro l'
    rw [total, Finset.sum_eq_add_sum_sdiff_singleton_of_mem hmem, hrest, Function.update_self]
  rw [hsplit, hsplit, List.length_cons]
  ring

theorem total_push (hk : k < n) :
    total n (Function.update L k (a :: L k)) = total n L + 2 ^ k := by
  rw [total_update_cons hk, Function.update_eq_self]

/-! ## Popping the head of a list

The first extent of a list goes. As the extents are apart, the region loses exactly its units. -/

theorem mem_of_mem_pop (hl : L k = a :: l) (hb : b ∈ Function.update L k l j) : b ∈ L j := by
  rcases eq_or_ne j k with rfl | hjk
  · rw [Function.update_self] at hb
    exact hl ▸ List.mem_cons_of_mem a hb
  · rwa [Function.update_of_ne hjk] at hb

/-- What is left is all but this extent. -/
theorem mem_pop (h : Extents n U L) (hl : L k = a :: l) :
    b ∈ Function.update L k l j ↔ b ∈ L j ∧ (j, b) ≠ (k, a) := by
  rcases eq_or_ne j k with rfl | hjk
  · have hnd := h.nodup j
    rw [hl, List.nodup_cons] at hnd
    rw [Function.update_self, hl, List.mem_cons, Ne, Prod.mk.injEq]
    constructor
    · intro hb
      exact ⟨Or.inr hb, fun heq => hnd.1 (heq.2 ▸ hb)⟩
    · intro hb
      exact hb.1.resolve_left fun heq => hb.2 ⟨rfl, heq⟩
  · simp [hjk]

/-- Fewer extents are apart as before. -/
theorem pop (h : Extents n U L) (hl : L k = a :: l) : Extents n U (Function.update L k l) := by
  refine ⟨fun j hj => ?_, fun j => ?_, fun j b hb => h.aligned j b (mem_of_mem_pop hl hb),
    fun j b hb => h.inside j b (mem_of_mem_pop hl hb), fun i b hb j c hc =>
    h.apart i b (mem_of_mem_pop hl hb) j c (mem_of_mem_pop hl hc)⟩
  · apply List.eq_nil_of_subset_nil
    intro b hb
    rw [← h.beyond j hj]
    exact mem_of_mem_pop hl hb
  · rcases eq_or_ne j k with rfl | hjk
    · have hnd := h.nodup j
      rw [hl] at hnd
      rw [Function.update_self]
      exact hnd.of_cons
    · rw [Function.update_of_ne hjk]
      exact h.nodup j

/-- The region has this extent less. -/
theorem region_pop (h : Extents n U L) (hl : L k = a :: l) :
    region (Function.update L k l) = region L \ block k a := by
  have ha : a ∈ L k := hl ▸ List.mem_cons_self
  ext x
  simp only [region, Set.mem_ofPred_eq, Set.mem_sdiff, h.mem_pop hl]
  constructor
  · intro hx
    obtain ⟨j, b, ⟨hb, hne⟩, hx⟩ := hx
    exact ⟨⟨j, b, hb, hx⟩, Set.disjoint_left.mp (h.apart j b hb k a ha hne) hx⟩
  · intro hx
    obtain ⟨⟨j, b, hb, hx⟩, hout⟩ := hx
    refine ⟨j, b, ⟨hb, fun heq => hout ?_⟩, hx⟩
    obtain ⟨rfl, rfl⟩ := Prod.mk.inj heq
    exact hx

theorem total_pop (hk : k < n) (hl : L k = a :: l) :
    total n L = total n (Function.update L k l) + 2 ^ k := by
  rw [← total_update_cons (a := a) hk, ← hl, Function.update_eq_self]

/-! ## The total is the size of the region

Extents that are apart can be counted one by one or all together. -/

/-- The total is the number of the units covered. -/
theorem total_eq_ncard (h : Extents n U L) (hU : U.Finite) : total n L = (region L).ncard := by
  induction hm : total n L using Nat.strong_induction_on generalizing L with
  | _ m ih =>
    by_cases hnil : ∀ k, L k = []
    · obtain rfl : L = fun _ => [] := funext hnil
      rw [← hm, total_empty, region_empty, Set.ncard_empty]
    · obtain ⟨k, hk⟩ := not_forall.mp hnil
      obtain ⟨a, l, hl⟩ := List.exists_cons_of_ne_nil hk
      have ha : a ∈ L k := hl ▸ List.mem_cons_self
      have hkn := h.order_lt ha
      have htotal := total_pop hkn hl
      have hpos : 0 < 2 ^ k := Nat.two_pow_pos k
      have hrec := ih _ (by omega) (h.pop hl) rfl
      rw [h.region_pop hl] at hrec
      have hcard := Set.ncard_sdiff_add_ncard_of_subset (block_subset_region ha)
        (hU.subset h.region_subset)
      rw [block_ncard (h.aligned k a ha)] at hcard
      omega

theorem total_le (h : Extents n U L) (hU : U.Finite) : total n L ≤ U.ncard := by
  rw [h.total_eq_ncard hU]
  exact Set.ncard_le_ncard h.region_subset hU

/-- Nothing is listed from order `k` on exactly when no extent of order `k` or more is there. -/
theorem total_eq_zero_iff (h : Extents n U L) : total n L = 0 ↔ ∀ k, L k = [] := by
  constructor
  · intro hz k
    rcases Nat.lt_or_ge k n with hk | hk
    · have hterm := (Finset.sum_eq_zero_iff.mp hz) k (Finset.mem_range.mpr hk)
      rcases Nat.mul_eq_zero.mp hterm with hp | hlen
      · exact absurd hp (Nat.two_pow_pos k).ne'
      · exact List.eq_nil_of_length_eq_zero hlen
    · exact h.beyond k hk
  · intro hnil
    simp [total, hnil]

end Extents

namespace Dyadic

/-- An aligned block of the next order is its lower and its upper half. -/
theorem block_halves {k a : Nat} (ha : 2 ^ (k + 1) ∣ a) :
    block (k + 1) a = block k a ∪ block k (a + 2 ^ k) ∧
      Disjoint (block k a) (block k (a + 2 ^ k)) := by
  have hbit : a.testBit k = false := by
    obtain ⟨q, rfl⟩ := ha
    rw [Nat.testBit_two_pow_mul]
    simp
  have hbuddy : buddy k a = a + 2 ^ k := by simp [buddy, hbit]
  rw [← hbuddy]
  exact ⟨block_succ k a, buddy_disjoint k a⟩

end Dyadic
