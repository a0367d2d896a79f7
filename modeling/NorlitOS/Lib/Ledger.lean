import Mathlib.Data.Set.Lattice
import Mathlib.Order.BourbakiWitt
import Mathlib.Order.CompletePartialOrder
import Mathlib.Logic.Function.Basic

/-!
# Ownership ledgers

A pool of resources is split between a free part and the cells that owners hold. An owner holds
at most one cell, named by a handle. `Accounts` says that nothing is lost and nothing is held
twice. Taking a free cell, giving one back, handing one over and retiring one from the pool are
the four moves, and each keeps the accounts.
-/

namespace Ledger

open Classical in
/-- The ledger with the owners in `S` struck out. -/
noncomputable def without {ι α : Type} (own : ι → Option α) (S : Set ι) (o : ι) : Option α :=
  if o ∈ S then none else own o

section Without

variable {ι α : Type} {own : ι → Option α} {S T : Set ι} {o : ι} {a : α}

theorem without_of_mem (h : o ∈ S) : without own S o = none := if_pos h

theorem without_of_notMem (h : o ∉ S) : without own S o = own o := if_neg h

@[simp] theorem without_empty : without own ∅ = own := by
  funext o
  exact without_of_notMem (Set.notMem_empty o)

/-- Who still holds a cell was not taken out. -/
theorem without_eq_some (h : without own S o = some a) : own o = some a ∧ o ∉ S := by
  by_cases hS : o ∈ S
  · rw [without_of_mem hS] at h
    exact nomatch h
  · exact ⟨by rwa [without_of_notMem hS] at h, hS⟩

/-- Taking out two sets of owners, one after the other. -/
theorem without_union : without own (S ∪ T) = without (without own S) T := by
  funext o
  by_cases hT : o ∈ T
  · rw [without_of_mem hT, without_of_mem (Set.mem_union_right S hT)]
  · rw [without_of_notMem hT]
    by_cases hS : o ∈ S
    · rw [without_of_mem hS, without_of_mem (Set.mem_union_left T hS)]
    · rw [without_of_notMem hS, without_of_notMem fun h => h.elim hS hT]

variable [DecidableEq ι]

/-- Taking out one owner more. -/
theorem update_without : Function.update (without own S) o none = without own (S ∪ {o}) := by
  funext x
  by_cases hx : x = o
  · subst hx
    rw [Function.update_self, without_of_mem (Set.mem_union_right S (Set.mem_singleton x))]
  · rw [Function.update_of_ne hx]
    by_cases hS : x ∈ S
    · rw [without_of_mem hS, without_of_mem (Set.mem_union_left {o} hS)]
    · rw [without_of_notMem hS, without_of_notMem fun h => h.elim hS hx]

theorem update_none : Function.update own o none = without own {o} := by
  have h : Function.update (without own ∅) o none = without own (∅ ∪ {o}) := update_without
  rwa [without_empty, Set.empty_union] at h

omit [DecidableEq ι] in
/-- Striking out owners that hold nothing. -/
theorem without_of_none (h : ∀ o ∈ S, own o = none) : without own S = own := by
  funext o
  by_cases hS : o ∈ S
  · rw [without_of_mem hS, h o hS]
  · exact without_of_notMem hS

end Without

/-- The first `n` of a sequence of groups of owners. -/
def below {ι : Type} (S : Nat → Set ι) (n : Nat) : Set ι := {o | ∃ j < n, o ∈ S j}

/-- Nothing comes before the first. -/
@[simp] theorem below_zero {ι : Type} {S : Nat → Set ι} : below S 0 = ∅ := by
  ext o
  constructor
  · rintro ⟨j, hj, -⟩
    exact absurd hj (Nat.not_lt_zero j)
  · exact nofun

/-- One set more. -/
theorem below_succ {ι : Type} {S : Nat → Set ι} {n : Nat} : below S (n + 1) = below S n ∪ S n := by
  ext o
  constructor
  · rintro ⟨j, hj, ho⟩
    rcases Nat.lt_succ_iff_lt_or_eq.mp hj with hj | rfl
    · exact Or.inl ⟨j, hj, ho⟩
    · exact Or.inr ho
  · rintro (⟨j, hj, ho⟩ | ho)
    · exact ⟨j, hj.trans (Nat.lt_succ_self n), ho⟩
    · exact ⟨n, Nat.lt_succ_self n, ho⟩

/-- The pool is the disjoint union of the free part and the cells held. -/
structure Accounts {ι α β : Type} (cell : α → Set β) (own : ι → Option α)
    (free pool : Set β) : Prop where
  unfree : ∀ {o a}, own o = some a → Disjoint (cell a) free
  apart : ∀ {o o' a a'}, own o = some a → own o' = some a' → o ≠ o' → Disjoint (cell a) (cell a')
  cover : ∀ x, x ∈ pool ↔ x ∈ free ∨ ∃ o a, own o = some a ∧ x ∈ cell a

namespace Accounts

variable {ι α β : Type} {cell : α → Set β} {own : ι → Option α} {free pool : Set β}
  {o o' : ι} {a a' : α}

theorem free_subset (hP : Accounts cell own free pool) : free ⊆ pool :=
  fun x hx => (hP.cover x).mpr (Or.inl hx)

theorem cell_subset (hP : Accounts cell own free pool) (ho : own o = some a) : cell a ⊆ pool :=
  fun x hx => (hP.cover x).mpr (Or.inr ⟨o, a, ho, hx⟩)

/-- A cell has one owner. -/
theorem owner_unique (hP : Accounts cell own free pool) (ho : own o = some a)
    (ho' : own o' = some a) (hne : (cell a).Nonempty) : o = o' := by
  by_contra h
  obtain ⟨x, hx⟩ := hne
  exact Set.disjoint_left.mp (hP.apart ho ho' h) hx hx

/-- A free cell is not one that is held. -/
theorem ne_of_free (hP : Accounts cell own free pool) (ho : own o = some a)
    (ha' : cell a' ⊆ free) (hne : (cell a').Nonempty) : a ≠ a' := by
  rintro rfl
  obtain ⟨x, hx⟩ := hne
  exact Set.disjoint_left.mp (hP.unfree ho) hx (ha' hx)

variable [DecidableEq ι]

/-- An owner takes a free cell. -/
theorem take (hP : Accounts cell own free pool) (ho : own o = none) (ha : cell a ⊆ free) :
    Accounts cell (Function.update own o (some a)) (free \ cell a) pool := by
  refine ⟨fun {x b} hx => ?_, fun {x y b c} hx hy hxy => ?_, fun x => ?_⟩
  -- the cell was free, so no one else holds part of it
  · by_cases hxo : x = o
    · rw [hxo, Function.update_self] at hx
      rw [← Option.some.inj hx]
      exact Set.disjoint_sdiff_right
    · rw [Function.update_of_ne hxo] at hx
      exact (hP.unfree hx).mono_right Set.sdiff_subset
  · by_cases hxo : x = o
    · rw [hxo, Function.update_self] at hx
      rw [Function.update_of_ne fun hyo => hxy (hxo.trans hyo.symm)] at hy
      rw [← Option.some.inj hx]
      exact ((hP.unfree hy).mono_right ha).symm
    · rw [Function.update_of_ne hxo] at hx
      by_cases hyo : y = o
      · rw [hyo, Function.update_self] at hy
        rw [← Option.some.inj hy]
        exact (hP.unfree hx).mono_right ha
      · rw [Function.update_of_ne hyo] at hy
        exact hP.apart hx hy hxy
  · rw [hP.cover x]
    constructor
    · rintro (hx | ⟨y, b, hy, hx⟩)
      · by_cases hxa : x ∈ cell a
        · exact Or.inr ⟨o, a, Function.update_self _ _ _, hxa⟩
        · exact Or.inl ⟨hx, hxa⟩
      · refine Or.inr ⟨y, b, ?_, hx⟩
        rwa [Function.update_of_ne fun hyo => by rw [hyo, ho] at hy; exact nomatch hy]
    · rintro (hx | ⟨y, b, hy, hx⟩)
      · exact Or.inl hx.1
      · by_cases hyo : y = o
        · rw [hyo, Function.update_self] at hy
          rw [← Option.some.inj hy] at hx
          exact Or.inl (ha hx)
        · rw [Function.update_of_ne hyo] at hy
          exact Or.inr ⟨y, b, hy, hx⟩

/-- An owner gives up its cell; who holds what otherwise does not change. -/
theorem eq_some_of_update (h : Function.update own o none o' = some a) :
    own o' = some a ∧ o' ≠ o := by
  by_cases ho : o' = o
  · rw [ho, Function.update_self] at h
    exact nomatch h
  · exact ⟨by rwa [Function.update_of_ne ho] at h, ho⟩

/-- An owner gives its cell back. -/
theorem give (hP : Accounts cell own free pool) (ho : own o = some a) :
    Accounts cell (Function.update own o none) (free ∪ cell a) pool := by
  refine ⟨fun {x b} hx => ?_, fun {x y b c} hx hy hxy => ?_, fun x => ?_⟩
  · obtain ⟨hx, hxo⟩ := eq_some_of_update hx
    exact Set.disjoint_union_right.mpr ⟨hP.unfree hx, hP.apart hx ho hxo⟩
  · exact hP.apart (eq_some_of_update hx).1 (eq_some_of_update hy).1 hxy
  · rw [hP.cover x]
    constructor
    · rintro (hx | ⟨y, b, hy, hx⟩)
      · exact Or.inl (Or.inl hx)
      · by_cases hyo : y = o
        · rw [hyo, ho] at hy
          exact Or.inl (Or.inr (Option.some.inj hy ▸ hx))
        · exact Or.inr ⟨y, b, by rwa [Function.update_of_ne hyo], hx⟩
    · rintro ((hx | hx) | ⟨y, b, hy, hx⟩)
      · exact Or.inl hx
      · exact Or.inr ⟨o, a, ho, hx⟩
      · exact Or.inr ⟨y, b, (eq_some_of_update hy).1, hx⟩

/-- An owner hands its cell to another one. -/
theorem move (hP : Accounts cell own free pool) (ho : own o = some a) (ho' : own o' = none) :
    Accounts cell (Function.update (Function.update own o none) o' (some a)) free pool := by
  have hgive := hP.give ho
  have hnone : Function.update own o none o' = none := by
    by_cases h : o' = o
    · rw [h, Function.update_self]
    · rw [Function.update_of_ne h, ho']
  have htake := hgive.take hnone (Set.subset_union_right (s := free))
  rwa [Set.union_sdiff_right, (hP.unfree ho).symm.sdiff_eq_left] at htake

omit [DecidableEq ι] in
/-- A free cell leaves the pool. -/
theorem leak (hP : Accounts cell own free pool) (ha : cell a ⊆ free) :
    Accounts cell own (free \ cell a) (pool \ cell a) := by
  refine ⟨fun ho => (hP.unfree ho).mono_right Set.sdiff_subset, hP.apart, fun x => ?_⟩
  rw [Set.mem_sdiff, Set.mem_sdiff, hP.cover x]
  constructor
  · rintro ⟨hx | hx, hxa⟩
    · exact Or.inl ⟨hx, hxa⟩
    · exact Or.inr hx
  · rintro (hx | ⟨o, b, ho, hx⟩)
    · exact ⟨Or.inl hx.1, hx.2⟩
    · exact ⟨Or.inr ⟨o, b, ho, hx⟩, fun hxa => Set.disjoint_left.mp (hP.unfree ho) hx (ha hxa)⟩

omit [DecidableEq ι] in
/-- When the owners in `S` have given back what they held, exactly their cells have come back. -/
theorem free_of_without {free' : Set β} {S : Set ι} (hP : Accounts cell own free pool)
    (hP' : Accounts cell (without own S) free' pool) :
    free' = free ∪ {x | ∃ o ∈ S, ∃ a, own o = some a ∧ x ∈ cell a} := by
  ext x
  constructor
  · intro hx
    rcases (hP.cover x).mp (hP'.free_subset hx) with hfree | ⟨o, a, ho, hxa⟩
    · exact Or.inl hfree
    -- a cell that is still held is not free
    · by_cases hS : o ∈ S
      · exact Or.inr ⟨o, hS, a, ho, hxa⟩
      · have ho' : without own S o = some a := (without_of_notMem hS).trans ho
        exact absurd hx (Set.disjoint_left.mp (hP'.unfree ho') hxa)
  · rintro (hx | ⟨o, hS, a, ho, hxa⟩)
    · refine ((hP'.cover x).mp (hP.free_subset hx)).resolve_right ?_
      rintro ⟨o, a, ho, hxa⟩
      exact Set.disjoint_left.mp (hP.unfree (without_eq_some ho).1) hxa hx
    · refine ((hP'.cover x).mp (hP.cell_subset ho hxa)).resolve_right ?_
      rintro ⟨o', a', ho', hxa'⟩
      obtain ⟨ho', hS'⟩ := without_eq_some ho'
      exact Set.disjoint_left.mp (hP.apart ho ho' fun h => hS' (h ▸ hS)) hxa hxa'

end Accounts

end Ledger
