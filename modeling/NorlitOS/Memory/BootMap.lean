import NorlitOS.Process.Kernel
import NorlitOS.Memory.Invariant

/-!
# `init_memory` and `init_paging`

The usable memory in the map of the BIOS is released in two passes. The loader has mapped 16 MB, so
the first pass stops there; the second one runs when `init_paging` has mapped the rest.
-/

namespace NorlitOS

open Heap (range)

def LOADER_MAPPED : Nat := 0x1000000
def KERNEL_OFFSET : Nat := 0xC0100000
def KERNEL_STRUCTURE : Nat := 0x7000

/-- An entry of the map; `base` and `limit` are `u64`. -/
structure ARDSItem where
  base : Nat
  limit : Nat
  type : Nat

/-! ## The two passes

An entry of the map is cut off at the end of what can be used and clipped to what a pass releases.
The code does both in `u64` and gives the result as two `u32`. -/

/-- The range for `memory_free_nocheck`, cut off at `high`. -/
def cutOff (high base limit : Nat) : Nat × Nat :=
  (add32 PAGE_OFFSET base, if high < add32 base limit then sub32 high base else limit)

/-- What a pass releases of an entry: the part between `low` and `high`, in `u32` arithmetic. -/
def clipped (low high : Nat) (ai : ARDSItem) : Option (Nat × Nat) :=
  if ai.type = 1 ∧ ai.base < high then
    let base := ai.base % 2 ^ 32
    let limit := ai.limit % 2 ^ 32
    if base < low then
      let limit := add32 limit base
      if limit ≤ low then none else some (cutOff high low (sub32 limit low))
    else some (cutOff high base limit)
  else none

/-- The first byte behind the kernel image. -/
def KERNEL_END : Nat := KERNEL_OFFSET - PAGE_OFFSET + KERNEL_SIZE

/-- The `case 1` of the first loop. -/
def firstRelease : ARDSItem → Option (Nat × Nat) := clipped KERNEL_END LOADER_MAPPED

/-- The body of the second loop. -/
def secondRelease : ARDSItem → Option (Nat × Nat) := clipped LOADER_MAPPED MAX_MAPPING

/-- The calls of `memory_free_nocheck` of one pass. -/
def release : List (Nat × Nat) → Heap → Except Stop Heap
  | [], h => .ok h
  | r :: rs, h => h.memoryFreeNocheck r.1 r.2 >>= release rs

/-- The entries that do not `continue` in front of `max=ai->base+ai->limit`. -/
def Sized (ai : ARDSItem) : Prop := ai.type = 1 ∨ ai.type = 3 ∨ ai.type = 4

instance (ai : ARDSItem) : Decidable (Sized ai) :=
  inferInstanceAs (Decidable (ai.type = 1 ∨ ai.type = 3 ∨ ai.type = 4))

/-- `max` behind the first loop. -/
def mapMax (items : List ARDSItem) : Nat :=
  items.foldl (fun max ai => if Sized ai then (ai.base + ai.limit) % 2 ^ 64 else max) 0

/-! ## `init_paging`

Three blocks are allocated between the two passes, from what the first one released. How the words
in them are written is in a module of its own; here they are as much as the passes need. -/

/-- What `init_paging` builds. A directory entry that is present is the page table it points to.
`blocks` are the allocated blocks it keeps. -/
structure Paging where
  flatPTEs : Nat → Nat
  kernelPage : Nat → Nat
  kernelPDE : Nat → Option (Nat → Nat)
  blocks : List (Nat × Nat)

def va2flatPte (x : Nat) : Nat := x % 2 ^ 32 / 2 ^ 12

/-- `(pages+1024-1)&~(1024-1)`. -/
def allocpages (pages : Nat) : Nat := (pages + 1024 - 1) / 1024 * 1024

/-- The words of `flatPTEs` behind the two loops, in a memory with the words `word`. -/
def flatWords (pages flat : Nat) (word : Nat → Nat) (index : Nat) : Nat :=
  if index < pages then index * 0x1000 + 0b11111
  else if index < allocpages pages then index * 0x1000
  else word (add32 flat (index * 4))

/-- The directory: the kernel page for the first 4 MB, then the tables of `flatPTEs`. -/
def directoryWords (pages : Nat) (flatPTEs kernelPage : Nat → Nat) (i : Nat) : Option (Nat → Nat) :=
  let maxpdeentry := min (allocpages pages / 1024) (va2pde MAX_MAPPING)
  if i < va2pde PAGE_OFFSET then none
  else if i = va2pde PAGE_OFFSET then some kernelPage
  else if i - va2pde PAGE_OFFSET < maxpdeentry then
    some fun j => flatPTEs ((i - va2pde PAGE_OFFSET) * 1024 + j)
  else none

def initPaging (memsize : Nat) (h : Heap) : Except Stop (Paging × Heap) := do
  let pages := va2flatPte memsize
  let (flat, h) ← h.memoryAlloc 22
  let h ← h.memoryFreeNocheck (add32 flat (allocpages pages * 4))
    (sub32 (2 ^ 22) (allocpages pages * 4))
  let (page, h) ← h.memoryAlloc 12
  let flatPTEs := flatWords pages flat h.word
  let (own, h) ← h.memoryAlloc 12
  let kernelPage := Function.update flatPTEs (va2flatPte KERNEL_STRUCTURE)
    (add32 (sub32 own PAGE_OFFSET) 0b11111)
  let (directory, h) ← h.memoryAlloc 12
  .ok ({ flatPTEs := flatPTEs
         kernelPage := kernelPage
         kernelPDE := directoryWords pages flatPTEs kernelPage
         blocks := [(flat, allocpages pages * 4), (page, 2 ^ 12), (own, 2 ^ 12),
           (directory, 2 ^ 12)] }, h)

/-! ## `init_memory`

The first pass, the page tables, the second pass. An entry of the map is looked at twice, each
time with the bounds of the pass. -/

/-- Up to the second pass. -/
def bootPaging (items : List ARDSItem) (h : Heap) : Except Stop (Paging × Heap) := do
  let h ← release (items.filterMap firstRelease) h
  if mapMax items < 0x1000000 then .error .assertion
  else initPaging (mapMax items) h

def initMemory (items : List ARDSItem) (h : Heap) : Except Stop (Paging × Heap) := do
  let (P, h) ← bootPaging items h
  let h ← release (items.filterMap secondRelease) h
  .ok (P, h)

/-! ## What a pass releases

In `Nat` a pass releases the part of each usable entry that is between its bounds, in addresses of
the kernel half. -/

variable {low high x : Nat} {ai : ARDSItem} {items : List ARDSItem} {r : Nat × Nat}
  {h h' : Heap} {F : Set Nat}

/-- Where the part of the entry ends that a pass releases. An entry that reaches beyond 4 GB is not
cut off. -/
def reach (low high : Nat) (ai : ARDSItem) : Nat :=
  let limit := ai.limit % 2 ^ 32
  if ai.base < low then min ((ai.base + limit) % 2 ^ 32) high
  else if ai.base + limit < 2 ^ 32 then min (ai.base + limit) high
  else ai.base + limit

/-- What the `u64` arithmetic comes to for a usable entry. -/
theorem clipped_eq (hlh : low < high) (hhigh : high ≤ MAX_MAPPING) (htype : ai.type = 1)
    (hbase : ai.base < high) : clipped low high ai =
      if ai.base < low ∧ reach low high ai ≤ low then none
      else some (PAGE_OFFSET + max ai.base low, reach low high ai - max ai.base low) := by
  have hmax : high ≤ 0x30000000 := hhigh
  have hsmall : ai.base % 2 ^ 32 = ai.base := Nat.mod_eq_of_lt (by omega)
  have hlimit : ai.limit % 2 ^ 32 < 2 ^ 32 := Nat.mod_lt _ (by decide)
  unfold clipped reach
  rw [if_pos ⟨htype, hbase⟩]
  dsimp only
  rw [hsmall]
  generalize ai.limit % 2 ^ 32 = limit at hlimit ⊢
  by_cases hlow : ai.base < low
  · rw [if_pos hlow, if_pos hlow]
    -- the range begins below `low` and is cut off there
    have hend : add32 limit ai.base = (ai.base + limit) % 2 ^ 32 := by
      unfold add32
      rw [Nat.add_comm]
    have hend' : (ai.base + limit) % 2 ^ 32 < 2 ^ 32 := Nat.mod_lt _ (by decide)
    rw [hend]
    generalize (ai.base + limit) % 2 ^ 32 = e at hend' ⊢
    by_cases he : e ≤ low
    · rw [if_pos he, if_pos ⟨hlow, (min_le_left _ _).trans he⟩]
    · rw [if_neg he, if_neg (by omega)]
      have hsub : sub32 e low = e - low := sub32_of_le (by omega) hend'
      have hadd : add32 low (e - low) = e := by
        rw [add32_of_lt (by omega)]
        omega
      have hoff : add32 PAGE_OFFSET low = PAGE_OFFSET + low :=
        add32_of_lt (by have : PAGE_OFFSET = 0xC0000000 := rfl; omega)
      unfold cutOff
      rw [hsub, hadd, hoff, max_eq_right hlow.le]
      split
      · rw [sub32_of_le hlh.le (by omega), min_eq_right (by omega)]
      · rw [min_eq_left (by omega)]
  · rw [if_neg hlow, if_neg hlow, if_neg fun hc => hlow hc.1]
    -- it begins in between
    have hoff : add32 PAGE_OFFSET ai.base = PAGE_OFFSET + ai.base :=
      add32_of_lt (by have : PAGE_OFFSET = 0xC0000000 := rfl; omega)
    unfold cutOff
    rw [hoff, max_eq_left (by omega)]
    by_cases hwrap : ai.base + limit < 2 ^ 32
    · rw [if_pos hwrap, add32_of_lt hwrap]
      split
      · rw [sub32_of_le hbase.le (by omega), min_eq_right (by omega)]
      · rw [min_eq_left (by omega), Nat.add_sub_cancel_left]
    · -- the sum wraps around and lies below `high`
      have hadd : add32 ai.base limit = ai.base + limit - 2 ^ 32 := by
        unfold add32
        rw [Nat.mod_eq_sub_mod (by omega), Nat.mod_eq_of_lt (by omega)]
      rw [if_neg hwrap, hadd, if_neg (by omega), Nat.add_sub_cancel_left]

/-! ## Maps

`BiosMap` is what the machine promises: entries that do not overlap and end inside the address
space. The two passes meet at 16 MB and release nothing twice. -/

/-- A map of disjoint, word-aligned entries. A usable entry that starts in the memory the kernel
maps ends below 4 GB. -/
structure BiosMap (items : List ARDSItem) : Prop where
  apart : items.Pairwise fun ai aj => Disjoint (range ai.base ai.limit) (range aj.base aj.limit)
  base : ∀ ai ∈ items, 4 ∣ ai.base
  limit : ∀ ai ∈ items, 4 ∣ ai.limit
  below : ∀ ai ∈ items, ai.type = 1 → ai.base < MAX_MAPPING → ai.base + ai.limit < 2 ^ 32

/-- The physical addresses of the usable memory. -/
def usable (items : List ARDSItem) : Set Nat :=
  {x | ∃ ai ∈ items, ai.type = 1 ∧ x ∈ range ai.base ai.limit}

/-- The addresses of some ranges. -/
def covered (rs : List (Nat × Nat)) : Set Nat := {x | ∃ r ∈ rs, x ∈ range r.1 r.2}

/-- The ranges the two passes release, in order. -/
def releases (items : List ARDSItem) : List (Nat × Nat) :=
  items.filterMap firstRelease ++ items.filterMap secondRelease

@[simp] theorem covered_nil : covered [] = ∅ := by
  ext x
  simp [covered]

@[simp] theorem covered_cons {rs : List (Nat × Nat)} :
    covered (r :: rs) = range r.1 r.2 ∪ covered rs := by
  ext x
  simp [covered]

theorem covered_append {rs rs' : List (Nat × Nat)} :
    covered (rs ++ rs') = covered rs ∪ covered rs' := by
  ext x
  simp [covered, or_and_right, exists_or]

/-- A pass with its two boundaries. -/
structure Pass (low high : Nat) : Prop where
  dvdLow : 4 ∣ low
  dvdHigh : 4 ∣ high
  lt : low < high
  le : high ≤ MAX_MAPPING

/-- From the end of the kernel up to 16 MB. -/
theorem first_pass : Pass KERNEL_END LOADER_MAPPED := by
  constructor <;> decide

/-- From 16 MB up to what can be mapped at all. -/
theorem second_pass : Pass LOADER_MAPPED MAX_MAPPING := by
  constructor <;> decide

namespace Pass

variable (hP : Pass low high)

include hP

omit hP in
/-- An entry below 4 GB reaches to its end or to the end of the pass. -/
theorem reach_eq (hbelow : ai.base + ai.limit < 2 ^ 32) :
    reach low high ai = min (ai.base + ai.limit) high := by
  have hlimit : ai.limit % 2 ^ 32 = ai.limit := Nat.mod_eq_of_lt (by omega)
  unfold reach
  dsimp only
  rw [hlimit, Nat.mod_eq_of_lt hbelow, if_pos hbelow, ite_self]

/-- What is released of an entry is released of usable memory below `high`. -/
theorem clipped_some (hr : clipped low high ai = some r) : ai.type = 1 ∧ ai.base < high ∧
    r = (PAGE_OFFSET + max ai.base low, reach low high ai - max ai.base low) := by
  by_cases hc : ai.type = 1 ∧ ai.base < high
  · rw [clipped_eq hP.lt hP.le hc.1 hc.2] at hr
    split at hr
    · exact nomatch hr
    · exact ⟨hc.1, hc.2, (Option.some.inj hr).symm⟩
  · rw [clipped, if_neg hc] at hr
    exact nomatch hr

/-- An address is released with an entry if it is one of the entry between the boundaries. -/
theorem mem_clipped (hbelow : ai.type = 1 → ai.base < high → ai.base + ai.limit < 2 ^ 32) :
    (∃ r, clipped low high ai = some r ∧ x ∈ range r.1 r.2) ↔
      ai.type = 1 ∧ ∃ y ∈ range ai.base ai.limit, low ≤ y ∧ y < high ∧ x = PAGE_OFFSET + y := by
  constructor
  · rintro ⟨r, hr, hlo, hhi⟩
    obtain ⟨htype, hbase, heq⟩ := hP.clipped_some hr
    rw [heq, reach_eq (hbelow htype hbase)] at hhi
    rw [heq] at hlo
    have hlo : PAGE_OFFSET + max ai.base low ≤ x := hlo
    have hhi : x < PAGE_OFFSET + max ai.base low +
      (min (ai.base + ai.limit) high - max ai.base low) := hhi
    refine ⟨htype, x - PAGE_OFFSET, ⟨?_, ?_⟩, ?_, ?_, ?_⟩ <;> omega
  -- an entry with such a byte is not clipped away
  · rintro ⟨htype, y, ⟨hlo, hhi⟩, hlow, hhigh, rfl⟩
    have hbase : ai.base < high := lt_of_le_of_lt hlo hhigh
    have hreach : reach low high ai = min (ai.base + ai.limit) high := reach_eq (hbelow htype hbase)
    refine ⟨_, (clipped_eq hP.lt hP.le htype hbase).trans (if_neg ?_), ?_, ?_⟩
    · rw [hreach]
      omega
    · show PAGE_OFFSET + max ai.base low ≤ PAGE_OFFSET + y
      omega
    · show PAGE_OFFSET + y < PAGE_OFFSET + max ai.base low + (reach low high ai - max ai.base low)
      rw [hreach]
      omega

/-- The addresses a pass releases. -/
theorem mem_covered (hmap : BiosMap items) : x ∈ covered (items.filterMap (clipped low high)) ↔
    ∃ y ∈ usable items, low ≤ y ∧ y < high ∧ x = PAGE_OFFSET + y := by
  have hbelow : ∀ ai ∈ items, ai.type = 1 → ai.base < high → ai.base + ai.limit < 2 ^ 32 :=
    fun ai hai htype hbase => hmap.below ai hai htype (lt_of_lt_of_le hbase hP.le)
  constructor
  · rintro ⟨r, hr, hx⟩
    obtain ⟨ai, hai, hclip⟩ := List.mem_filterMap.mp hr
    obtain ⟨htype, y, hy, hrest⟩ := (hP.mem_clipped (hbelow ai hai)).mp ⟨r, hclip, hx⟩
    exact ⟨y, ⟨ai, hai, htype, hy⟩, hrest⟩
  · rintro ⟨y, ⟨ai, hai, htype, hy⟩, hrest⟩
    obtain ⟨r, hclip, hx⟩ := (hP.mem_clipped (hbelow ai hai)).mpr ⟨htype, y, hy, hrest⟩
    exact ⟨r, List.mem_filterMap.mpr ⟨ai, hai, hclip⟩, hx⟩

/-- A pass releases no address twice. -/
theorem pairwise (hmap : BiosMap items) : (items.filterMap (clipped low high)).Pairwise
    fun r r' => Disjoint (range r.1 r.2) (range r'.1 r'.2) := by
  have hbelow : ∀ ai ∈ items, ai.type = 1 → ai.base < high → ai.base + ai.limit < 2 ^ 32 :=
    fun ai hai htype hbase => hmap.below ai hai htype (lt_of_lt_of_le hbase hP.le)
  refine List.pairwise_filterMap.mpr (hmap.apart.imp_of_mem fun {ai aj} hai haj hd => ?_)
  intro r hr r' hr'
  refine Set.disjoint_left.mpr fun x hx hx' => ?_
  obtain ⟨-, y, hy, -, -, heq⟩ := (hP.mem_clipped (hbelow ai hai)).mp ⟨r, hr, hx⟩
  obtain ⟨-, y', hy', -, -, heq'⟩ := (hP.mem_clipped (hbelow aj haj)).mp ⟨r', hr', hx'⟩
  have hyy : y = y' := by omega
  exact Set.disjoint_left.mp hd hy (hyy ▸ hy')

/-- A pass releases whole words. -/
theorem words (hmap : BiosMap items) (hr : r ∈ items.filterMap (clipped low high)) :
    4 ∣ r.1 ∧ 4 ∣ r.2 := by
  obtain ⟨ai, hai, hclip⟩ := List.mem_filterMap.mp hr
  obtain ⟨htype, hbase, rfl⟩ := hP.clipped_some hclip
  have hb := hmap.base ai hai
  have hl := hmap.limit ai hai
  have hlow := hP.dvdLow
  have hhigh := hP.dvdHigh
  have hoff : 4 ∣ PAGE_OFFSET := by decide
  rw [reach_eq (hmap.below ai hai htype (lt_of_lt_of_le hbase hP.le))]
  constructor
  · show 4 ∣ PAGE_OFFSET + max ai.base low
    omega
  · show 4 ∣ min (ai.base + ai.limit) high - max ai.base low
    omega

end Pass

/-! ## The heap

What is released is free from then on, and `init_paging` takes its blocks from there. -/

/-- Releasing disjoint ranges that are not free. Induction on the list. -/
theorem release_spec {rs : List (Nat × Nat)} (hR : h.Rep F)
    (hwords : ∀ r ∈ rs, 4 ∣ r.1 ∧ 4 ∣ r.2) (hin : covered rs ⊆ managed)
    (hd : Disjoint (covered rs) F)
    (hapart : rs.Pairwise fun r r' => Disjoint (range r.1 r.2) (range r'.1 r'.2)) :
    ∃ h', release rs h = .ok h' ∧ h'.Rep (F ∪ covered rs) := by
  induction rs generalizing h F with
  | nil => exact ⟨h, rfl, by rwa [covered_nil, Set.union_empty]⟩
  | cons r rs ih =>
    obtain ⟨hw, hws⟩ := List.forall_mem_cons.mp hwords
    obtain ⟨hhead, htail⟩ := List.pairwise_cons.mp hapart
    rw [covered_cons] at hin hd
    obtain ⟨hd₁, hd₂⟩ := Set.disjoint_union_left.mp hd
    obtain ⟨h₁, hok₁, hF⟩ := Heap.memoryFreeNocheck_spec hR hw.1 hw.2
      (Set.subset_union_left.trans hin) hd₁
    -- the ranges behind the first one are apart from it and from what was free
    have hrest : Disjoint (covered rs) (F ∪ range r.1 r.2) := by
      refine Set.disjoint_union_right.mpr ⟨hd₂, Set.disjoint_left.mpr ?_⟩
      rintro x ⟨r', hr', hx'⟩ hx
      exact Set.disjoint_left.mp (hhead r' hr') hx hx'
    obtain ⟨h', hok', hR'⟩ := ih hF.rep hws (Set.subset_union_right.trans hin) hrest htail
    refine ⟨h', ?_, ?_⟩
    · rw [release, hok₁, ok_bind]
      exact hok'
    · rwa [covered_cons, ← Set.union_assoc]

/-- `memory_alloc` that returns takes a block from the free memory. -/
theorem alloc_taken {bit a : Nat} (hR : h.Rep F) (hlo : 2 ≤ bit) (hhi : bit ≤ 29)
    (hok : h.memoryAlloc bit = .ok (a, h')) : 2 ^ bit ∣ a ∧ h.Taken F (range a (2 ^ bit)) h' := by
  rcases Heap.memoryAlloc_spec hR hlo hhi with ⟨b, g, hok', hb, hT⟩ | ⟨herr, -⟩
  · obtain ⟨rfl, rfl⟩ := Prod.mk.inj (Except.ok.inj (hok.symm.trans hok'))
    rw [Heap.block_eq_range hb] at hT
    exact ⟨hb, hT⟩
  · exact nomatch hok.symm.trans herr

/-- A block that has been allocated is aligned and was free. -/
theorem alloc_ok {bit a : Nat} (hR : h.Rep F) (hlo : 2 ≤ bit) (hhi : bit ≤ 29)
    (hok : h.memoryAlloc bit = .ok (a, h')) :
    2 ^ bit ∣ a ∧ range a (2 ^ bit) ⊆ F ∧ h'.Rep (F \ range a (2 ^ bit)) := by
  obtain ⟨hal, hT⟩ := alloc_taken hR hlo hhi hok
  exact ⟨hal, hT.free, hT.rep⟩

theorem allocpages_le (x : Nat) : allocpages (va2flatPte x) * 4 ≤ 2 ^ 22 := by
  unfold allocpages va2flatPte
  have hx : x % 2 ^ 32 < 2 ^ 32 := Nat.mod_lt _ (by decide)
  omega

theorem dvd_allocpages (pages : Nat) : 4096 ∣ allocpages pages * 4 := by
  unfold allocpages
  omega

/-- A block of 4 MB, and its end given back. -/
theorem keepFront {flat n : Nat} {h₁ h₂ : Heap} (hR : h.Rep F) (hle : n ≤ 2 ^ 22) (hdvd : 4096 ∣ n)
    (hflat : h.memoryAlloc 22 = .ok (flat, h₁))
    (hextra : h₁.memoryFreeNocheck (add32 flat n) (sub32 (2 ^ 22) n) = .ok h₂) :
    2 ^ 22 ∣ flat ∧ range flat (2 ^ 22) ⊆ F ∧ h₂.Rep (F \ range flat n) := by
  obtain ⟨hal, hsub, hR₁⟩ := alloc_ok hR (by decide) (by decide) hflat
  have hin := hsub.trans hR.inside
  have hfits : flat + 2 ^ 22 ≤ 0xF0000000 := by
    have hlast : flat + 2 ^ 22 - 1 ∈ managed := hin ⟨by omega, by omega⟩
    have hhi : flat + 2 ^ 22 - 1 < 0xC0000000 + 0x30000000 := hlast.2
    omega
  have hsplit : range flat (2 ^ 22) = range flat n ∪ range (flat + n) (2 ^ 22 - n) := by
    rw [← Heap.range_add, Nat.add_sub_cancel' hle]
  have hrest : range (flat + n) (2 ^ 22 - n) ⊆ F := (hsplit ▸ Set.subset_union_right).trans hsub
  rw [add32_of_lt (by omega), sub32_of_le hle (by decide)] at hextra
  have hdisjoint : Disjoint (range (flat + n) (2 ^ 22 - n)) (F \ range flat (2 ^ 22)) :=
    Set.disjoint_sdiff_right.mono_left (hsplit ▸ Set.subset_union_right)
  obtain ⟨g, hg, hF⟩ := Heap.memoryFreeNocheck_spec hR₁ (by omega) (by omega)
    (hrest.trans hR.inside) hdisjoint
  obtain rfl := Except.ok.inj (hextra.symm.trans hg)
  -- the front of the block stays allocated
  have hback : F \ range flat (2 ^ 22) ∪ range (flat + n) (2 ^ 22 - n) = F \ range flat n := by
    have hapart : Disjoint (range flat n) (range (flat + n) (2 ^ 22 - n)) :=
      Set.disjoint_left.mpr fun x hx hx' => absurd hx.2 (Nat.not_lt.mpr hx'.1)
    ext x
    constructor
    · rintro (⟨hx, hnot⟩ | hx)
      · exact ⟨hx, fun hx' => hnot (hsplit ▸ Or.inl hx')⟩
      · exact ⟨hrest hx, fun hx' => Set.disjoint_left.mp hapart hx' hx⟩
    · rintro ⟨hx, hnot⟩
      by_cases hx' : x ∈ range (flat + n) (2 ^ 22 - n)
      · exact Or.inr hx'
      · refine Or.inl ⟨hx, fun hb => ?_⟩
        rw [hsplit] at hb
        exact hb.elim hnot hx'
  have hR₂ := hF.rep
  rw [hback] at hR₂
  exact ⟨hal, hsub, hR₂⟩

/-- **`init_paging`** takes the blocks it keeps from the free memory, and nothing else. -/
theorem initPaging_spec {memsize : Nat} {P : Paging} (hR : h.Rep F)
    (hok : initPaging memsize h = .ok (P, h')) :
    covered P.blocks ⊆ F ∧ h'.Rep (F \ covered P.blocks) := by
  obtain ⟨⟨flat, h₁⟩, hflat, hok⟩ := bind_eq_ok.mp hok
  obtain ⟨h₂, hextra, hok⟩ := bind_eq_ok.mp hok
  obtain ⟨⟨page, h₃⟩, hpage, hok⟩ := bind_eq_ok.mp hok
  obtain ⟨⟨own, h₄⟩, hown, hok⟩ := bind_eq_ok.mp hok
  obtain ⟨⟨directory, h₅⟩, hdirectory, hok⟩ := bind_eq_ok.mp hok
  obtain ⟨rfl, rfl⟩ := Prod.mk.inj (Except.ok.inj hok)
  have hle := allocpages_le memsize
  obtain ⟨-, hsub₁, hR₂⟩ := keepFront hR hle (dvd_allocpages _) hflat hextra
  generalize hn : allocpages (va2flatPte memsize) * 4 = n at hle hR₂ ⊢
  have hfront : range flat n ⊆ range flat (2 ^ 22) :=
    fun x hx => ⟨hx.1, lt_of_lt_of_le hx.2 (Nat.add_le_add_left hle _)⟩
  have hkept : range flat n ⊆ F := hfront.trans hsub₁
  -- three pages are taken from what is left
  obtain ⟨-, hsub₃, hR₃⟩ := alloc_ok hR₂ (by decide) (by decide) hpage
  obtain ⟨-, hsub₄, hR₄⟩ := alloc_ok hR₃ (by decide) (by decide) hown
  obtain ⟨-, hsub₅, hR₅⟩ := alloc_ok hR₄ (by decide) (by decide) hdirectory
  have hblocks : covered [(flat, n), (page, 2 ^ 12), (own, 2 ^ 12), (directory, 2 ^ 12)] =
      range flat n ∪ range page (2 ^ 12) ∪ range own (2 ^ 12) ∪ range directory (2 ^ 12) := by
    simp only [covered_cons, covered_nil, Set.union_empty, Set.union_assoc]
  rw [hblocks]
  constructor
  · have hpage : range page (2 ^ 12) ⊆ F := hsub₃.trans Set.sdiff_subset
    have hown : range own (2 ^ 12) ⊆ F := (hsub₄.trans Set.sdiff_subset).trans Set.sdiff_subset
    have hdir : range directory (2 ^ 12) ⊆ F :=
      ((hsub₅.trans Set.sdiff_subset).trans Set.sdiff_subset).trans Set.sdiff_subset
    exact Set.union_subset (Set.union_subset (Set.union_subset hkept hpage) hown) hdir
  · rw [Set.sdiff_sdiff, Set.sdiff_sdiff, Set.sdiff_sdiff] at hR₅
    rwa [Set.union_assoc, Set.union_assoc]

/-! ## Coverage

Both passes together, over the map. The two hypotheses on the map are those the boot loader relies
on. -/

/-- **The boot memory map.** When `init_memory` returns, the two passes have released exactly the
usable memory between the kernel image and `MAX_MAPPING`, no byte of it twice, and nothing else; all
of it is free, but for the blocks `init_paging` keeps. -/
theorem initMemory_releases {word : Nat → Nat} {P : Paging} (hmap : BiosMap items)
    (hok : initMemory items (Heap.init word) = .ok (P, h')) :
    covered (releases items) =
        {x | ∃ y ∈ usable items, 0x10A000 ≤ y ∧ y < 0x30000000 ∧ x = PAGE_OFFSET + y} ∧
      (releases items).Pairwise (fun r r' => Disjoint (range r.1 r.2) (range r'.1 r'.2)) ∧
      (∀ x ∈ covered (releases items), PAGE_OFFSET + 0x10A000 ≤ x) ∧
      h'.WellFormed ∧ h'.freeSet = covered (releases items) \ covered P.blocks := by
  have hfirst : ∀ {x}, x ∈ covered (items.filterMap firstRelease) ↔ _ := first_pass.mem_covered hmap
  have hsecond : ∀ {x}, x ∈ covered (items.filterMap secondRelease) ↔ _ :=
    second_pass.mem_covered hmap
  have hin₁ : covered (items.filterMap firstRelease) ⊆ managed := by
    intro x hx
    obtain ⟨y, -, -, hy, rfl⟩ := hfirst.mp hx
    exact ⟨Nat.le_add_right _ _, Nat.add_lt_add_left (hy.trans (by decide)) _⟩
  have hin₂ : covered (items.filterMap secondRelease) ⊆ managed := by
    intro x hx
    obtain ⟨y, -, -, hy, rfl⟩ := hsecond.mp hx
    exact ⟨Nat.le_add_right _ _, Nat.add_lt_add_left hy _⟩
  have hd : Disjoint (covered (items.filterMap firstRelease))
      (covered (items.filterMap secondRelease)) := by
    refine Set.disjoint_left.mpr fun x hx hx' => ?_
    obtain ⟨y, -, -, hy, heq⟩ := hfirst.mp hx
    obtain ⟨y', -, hy', -, heq'⟩ := hsecond.mp hx'
    omega
  have hunion : covered (releases items) =
      {x | ∃ y ∈ usable items, 0x10A000 ≤ y ∧ y < 0x30000000 ∧ x = PAGE_OFFSET + y} := by
    unfold releases
    rw [covered_append]
    ext x
    constructor
    · rintro (hx | hx)
      · obtain ⟨y, hy, hlo, hhi, heq⟩ := hfirst.mp hx
        exact ⟨y, hy, hlo, hhi.trans (by decide), heq⟩
      · obtain ⟨y, hy, hlo, hhi, heq⟩ := hsecond.mp hx
        exact ⟨y, hy, le_trans (by decide) hlo, hhi, heq⟩
    · rintro ⟨y, hy, hlo, hhi, heq⟩
      by_cases hloader : y < LOADER_MAPPED
      · exact Or.inl (hfirst.mpr ⟨y, hy, hlo, hloader, heq⟩)
      · exact Or.inr (hsecond.mpr ⟨y, hy, Nat.not_lt.mp hloader, hhi, heq⟩)
  have hpairs : (releases items).Pairwise fun r r' => Disjoint (range r.1 r.2) (range r'.1 r'.2) := by
    refine List.pairwise_append.mpr ⟨first_pass.pairwise hmap, second_pass.pairwise hmap, ?_⟩
    intro r hr r' hr'
    exact Set.disjoint_left.mpr fun x hx hx' => Set.disjoint_left.mp hd ⟨r, hr, hx⟩ ⟨r', hr', hx'⟩
  refine ⟨hunion, hpairs, fun x hx => ?_, ?_⟩
  · rw [hunion] at hx
    obtain ⟨y, -, hlo, -, rfl⟩ := hx
    exact Nat.add_le_add_left hlo _
  -- the heap: the first pass, `init_paging`, the second pass
  obtain ⟨⟨P', h₂⟩, hboot, hok⟩ := bind_eq_ok.mp hok
  obtain ⟨h₃, hsec, hok⟩ := bind_eq_ok.mp hok
  obtain ⟨rfl, rfl⟩ := Prod.mk.inj (Except.ok.inj hok)
  obtain ⟨h₁, hfir, hboot⟩ := bind_eq_ok.mp hboot
  obtain ⟨g₁, hg₁, hR₁⟩ := release_spec (Heap.init_rep word) (fun r hr => first_pass.words hmap hr)
    hin₁ (Set.disjoint_empty _) (first_pass.pairwise hmap)
  obtain rfl := Except.ok.inj (hfir.symm.trans hg₁)
  rw [Set.empty_union] at hR₁
  have hpaging : initPaging (mapMax items) h₁ = .ok (P', h₂) := by
    by_cases hsize : mapMax items < 0x1000000
    · rw [if_pos hsize] at hboot
      exact nomatch hboot
    · rwa [if_neg hsize] at hboot
  obtain ⟨hkept, hR₂⟩ := initPaging_spec hR₁ hpaging
  obtain ⟨g₂, hg₂, hR₃⟩ := release_spec hR₂ (fun r hr => second_pass.words hmap hr) hin₂
    (Disjoint.mono_right Set.sdiff_subset hd.symm) (second_pass.pairwise hmap)
  obtain rfl := Except.ok.inj (hsec.symm.trans hg₂)
  have hapart : Disjoint (covered (items.filterMap secondRelease)) (covered P'.blocks) :=
    Disjoint.mono_right hkept hd.symm
  refine ⟨hR₃.wellFormed.1, hR₃.wellFormed.2.trans ?_⟩
  unfold releases
  rw [covered_append, Set.union_sdiff_distrib, hapart.sdiff_eq_left]
  rfl

/-- A map out of order, with low memory, a reserved entry and an entry across 16 MB. -/
def sampleMap : List ARDSItem :=
  [⟨0x1800000, 0x800000, 1⟩, ⟨0, 0x9F000, 1⟩, ⟨0x9F000, 0x61000, 2⟩, ⟨0x100000, 0x1400000, 1⟩,
    ⟨0x1500000, 0x300000, 1⟩]

/-- The map that a machine with 64 MB reports is one. -/
theorem sampleMap_bios : BiosMap sampleMap := by
  refine ⟨?_, by decide, by decide, by decide⟩
  have hpairs : sampleMap.Pairwise fun ai aj =>
      ai.base + ai.limit ≤ aj.base ∨ aj.base + aj.limit ≤ ai.base := by decide
  refine hpairs.imp fun hor => Set.disjoint_left.mpr fun x hx hx' => ?_
  obtain ⟨hlo, hhi⟩ := hx
  obtain ⟨hlo', hhi'⟩ := hx'
  omega

/-- The map is released, and the heap is well formed behind it. -/
theorem initMemory_releases_sample : ∃ P h',
    initMemory sampleMap (Heap.init fun _ => 0) = .ok (P, h') ∧ h'.WellFormed ∧
      h'.freeSet = covered (releases sampleMap) \ covered P.blocks := by
  obtain ⟨r, hok⟩ := exists_of_isOk (x := initMemory sampleMap (Heap.init fun _ => 0))
    (by decide +kernel)
  exact ⟨r.1, r.2, hok, (initMemory_releases sampleMap_bios hok).2.2.2⟩

/-! ## What is mapped

The page tables are made for memory up to the end of the last usable entry in the order of the
map. A map that is not sorted may have usable memory behind it, which is released all the same. -/

/-- The address has a present page. -/
def Paging.Mapped (P : Paging) (x : Nat) : Prop :=
  ∃ t, P.kernelPDE (va2pde x) = some t ∧ (t (va2pte x)).testBit 0 = true

/-- The last entry that sets `max`. -/
def lastSized (items : List ARDSItem) : Option ARDSItem := items.reverse.find? fun ai => Sized ai

/-- The part of every usable entry that the second pass releases ends below the last page that fits
under the end of the last sized entry, modulo 4 GB. -/
def EndsMapped (items : List ARDSItem) : Prop :=
  ∀ last, lastSized items = some last → ∀ ai ∈ items, ai.type = 1 → ai.base < MAX_MAPPING →
    max ai.base LOADER_MAPPED < reach LOADER_MAPPED MAX_MAPPING ai →
    reach LOADER_MAPPED MAX_MAPPING ai ≤ (last.base + last.limit) % 2 ^ 32 / 2 ^ 12 * 2 ^ 12

/-- The loop overwrites `maxs` at every entry, so the last one counts. -/
theorem mapMax_eq : mapMax items = match lastSized items with
    | some last => (last.base + last.limit) % 2 ^ 64
    | none => 0 := by
  unfold mapMax lastSized
  rw [← List.foldr_reverse]
  generalize items.reverse = l
  induction l with
  | nil => rfl
  | cons ai l ih =>
    rw [List.foldr_cons, List.find?_cons]
    by_cases hsized : Sized ai
    · rw [if_pos hsized, decide_eq_true hsized]
    · rw [if_neg hsized, decide_eq_false hsized]
      exact ih

/-- A page table entry is present if its page lies below the size of the memory. -/
theorem flatWords_present {pages flat index : Nat} {word : Nat → Nat}
    (hindex : index < allocpages pages) :
    (flatWords pages flat word index).testBit 0 = true ↔ index < pages := by
  unfold flatWords
  split
  · next hlt =>
    rw [Nat.testBit_zero]
    simp only [hlt, iff_true, decide_eq_true_eq]
    omega
  · next hnot =>
    rw [Nat.testBit_zero]
    simp only [hnot, iff_false, decide_eq_true_eq]
    omega

/-- What `init_paging` returns. -/
theorem initPaging_pde {memsize : Nat} {P : Paging} (hok : initPaging memsize h = .ok (P, h')) :
    ∃ flat word kernelPage, P.kernelPDE = directoryWords (va2flatPte memsize)
      (flatWords (va2flatPte memsize) flat word) kernelPage := by
  obtain ⟨⟨flat, h₁⟩, -, hok⟩ := bind_eq_ok.mp hok
  obtain ⟨h₂, -, hok⟩ := bind_eq_ok.mp hok
  obtain ⟨⟨page, h₃⟩, -, hok⟩ := bind_eq_ok.mp hok
  obtain ⟨⟨own, h₄⟩, -, hok⟩ := bind_eq_ok.mp hok
  obtain ⟨⟨directory, h₅⟩, -, hok⟩ := bind_eq_ok.mp hok
  obtain ⟨rfl, rfl⟩ := Prod.mk.inj (Except.ok.inj hok)
  exact ⟨flat, h₃.word, _, rfl⟩

/-- **What `init_paging` maps** behind the first 16 MB. -/
theorem mapped_iff {memsize y : Nat} {P : Paging} (hok : initPaging memsize h = .ok (P, h'))
    (hlo : LOADER_MAPPED ≤ y) (hhi : y < MAX_MAPPING) :
    P.Mapped (PAGE_OFFSET + y) ↔ y < memsize % 2 ^ 32 / 2 ^ 12 * 2 ^ 12 := by
  have hlo : 0x1000000 ≤ y := hlo
  have hhi : y < 0x30000000 := hhi
  obtain ⟨flat, word, kernelPage, hpde⟩ := initPaging_pde hok
  have hi : va2pde (PAGE_OFFSET + y) = 768 + y / 2 ^ 22 := by
    show (0xC0000000 + y) % 2 ^ 32 / 2 ^ 22 = _
    omega
  have hj : va2pte (PAGE_OFFSET + y) = y / 2 ^ 12 % 1024 := by
    show (0xC0000000 + y) % 2 ^ 22 / 2 ^ 12 = _
    omega
  have hpages : va2flatPte memsize = memsize % 2 ^ 32 / 2 ^ 12 := rfl
  -- the address lies in a table of the flat model, if there are that many
  have hdir : P.kernelPDE (768 + y / 2 ^ 22) = if y / 2 ^ 22 < allocpages (va2flatPte memsize) / 1024
      then some fun j => flatWords (va2flatPte memsize) flat word (y / 2 ^ 22 * 1024 + j)
      else none := by
    have hoff : va2pde PAGE_OFFSET = 768 := by decide
    have hmax : va2pde MAX_MAPPING = 192 := by decide
    rw [hpde]
    unfold directoryWords
    rw [hoff, hmax, if_neg (by omega), if_neg (by omega), Nat.add_sub_cancel_left]
    by_cases hlt : y / 2 ^ 22 < allocpages (va2flatPte memsize) / 1024
    · rw [if_pos hlt, if_pos (by omega)]
    · rw [if_neg hlt, if_neg (by omega)]
  have hindex : y / 2 ^ 22 * 1024 + y / 2 ^ 12 % 1024 = y / 2 ^ 12 := by omega
  unfold Paging.Mapped
  rw [hi, hj, hdir]
  by_cases hlt : y / 2 ^ 22 < allocpages (va2flatPte memsize) / 1024
  · have hin : y / 2 ^ 12 < allocpages (va2flatPte memsize) := by
      unfold allocpages at hlt ⊢
      omega
    rw [if_pos hlt]
    constructor
    · rintro ⟨t, ht, hbit⟩
      obtain rfl := Option.some.inj ht
      dsimp only at hbit
      rw [hindex, flatWords_present hin, hpages] at hbit
      omega
    · intro hy
      refine ⟨_, rfl, ?_⟩
      rw [hindex, flatWords_present hin, hpages]
      omega
  · rw [if_neg hlt]
    constructor
    · rintro ⟨t, ht, -⟩
      exact nomatch ht
    · intro hy
      unfold allocpages at hlt
      omega

/-- Nothing is mapped behind `MAX_MAPPING`. -/
theorem not_mapped_max {memsize : Nat} {P : Paging} (hok : initPaging memsize h = .ok (P, h')) :
    ¬ P.Mapped (PAGE_OFFSET + MAX_MAPPING) := by
  obtain ⟨flat, word, kernelPage, hpde⟩ := initPaging_pde hok
  rintro ⟨t, ht, -⟩
  have hi : va2pde (PAGE_OFFSET + MAX_MAPPING) = 960 := by decide
  have hoff : va2pde PAGE_OFFSET = 768 := by decide
  have hmax : va2pde MAX_MAPPING = 192 := by decide
  rw [hi, hpde, directoryWords, hoff, hmax, if_neg (by decide), if_neg (by decide),
    if_neg (by omega)] at ht
  exact nomatch ht

/-- Every address the second pass hands to `memory_free_nocheck` is mapped. -/
def ReleasesMapped (items : List ARDSItem) (P : Paging) : Prop :=
  ∀ r ∈ items.filterMap secondRelease, ∀ i < r.2, P.Mapped (add32 r.1 i)

/-- An entry is cut off at `high`, unless it reaches beyond 4 GB. -/
theorem reach_le_or : reach low high ai ≤ high ∨ 2 ^ 32 ≤ reach low high ai := by
  unfold reach
  dsimp only
  split
  · exact Or.inl (min_le_right _ _)
  · split
    · exact Or.inl (min_le_right _ _)
    · next hnot => exact Or.inr (Nat.not_lt.mp hnot)

/-- Up to the second pass: the memory is large enough, and `init_paging` has returned. -/
theorem paging_of_boot {P : Paging} (hok : bootPaging items h = .ok (P, h')) :
    0x1000000 ≤ mapMax items ∧ ∃ h₁, initPaging (mapMax items) h₁ = .ok (P, h') := by
  obtain ⟨h₁, -, hok⟩ := bind_eq_ok.mp hok
  by_cases hsize : mapMax items < 0x1000000
  · rw [if_pos hsize] at hok
    exact nomatch hok
  · rw [if_neg hsize] at hok
    exact ⟨Nat.not_lt.mp hsize, h₁, hok⟩

/-- **Released memory is mapped** exactly if every entry ends below the pages that the last sized
entry gives. -/
theorem releasesMapped_iff {P : Paging} (hok : bootPaging items h = .ok (P, h')) :
    ReleasesMapped items P ↔ EndsMapped items := by
  obtain ⟨hsize, h₁, hpaging⟩ := paging_of_boot hok
  obtain ⟨last, hlast⟩ : ∃ last, lastSized items = some last := by
    cases hlast : lastSized items with
    | some last => exact ⟨last, rfl⟩
    | none =>
      rw [mapMax_eq, hlast] at hsize
      exact absurd hsize (by decide)
  have hmax : mapMax items % 2 ^ 32 = (last.base + last.limit) % 2 ^ 32 := by
    rw [mapMax_eq, hlast]
    exact Nat.mod_mod_of_dvd _ (by decide)
  have hmapped : ∀ y, LOADER_MAPPED ≤ y → y < MAX_MAPPING → (P.Mapped (PAGE_OFFSET + y) ↔
      y < (last.base + last.limit) % 2 ^ 32 / 2 ^ 12 * 2 ^ 12) := fun y hlo hhi => by
    rw [mapped_iff hpaging hlo hhi, hmax]
  have haddr : ∀ b i, b + i ≤ MAX_MAPPING → add32 (PAGE_OFFSET + b) i = PAGE_OFFSET + (b + i) := by
    intro b i hle
    have hle : b + i ≤ 0x30000000 := hle
    rw [add32_of_lt, Nat.add_assoc]
    show 0xC0000000 + b + i < 2 ^ 32
    omega
  have hbound : (last.base + last.limit) % 2 ^ 32 < 2 ^ 32 := Nat.mod_lt _ (by decide)
  constructor
  · intro hall last' hlast' ai hai htype hbase hgt
    obtain rfl := Option.some.inj (hlast.symm.trans hlast')
    have hclip := clipped_eq second_pass.lt second_pass.le htype hbase
    rw [if_neg fun hc => by omega] at hclip
    have hr := hall _ (List.mem_filterMap.mpr ⟨ai, hai, hclip⟩)
    have hor : reach LOADER_MAPPED MAX_MAPPING ai ≤ MAX_MAPPING ∨
      2 ^ 32 ≤ reach LOADER_MAPPED MAX_MAPPING ai := reach_le_or
    cases hor with
    | inl hle =>
      -- the last address of the entry
      have hlast := hr (reach LOADER_MAPPED MAX_MAPPING ai - max ai.base LOADER_MAPPED - 1) (by
        show _ < reach LOADER_MAPPED MAX_MAPPING ai - max ai.base LOADER_MAPPED
        omega)
      rw [haddr _ _ (by omega), hmapped _ (by omega) (by omega)] at hlast
      omega
    | inr hwrap =>
      -- the entry is not cut off, and runs beyond what the directory can map
      have hmaxlt : MAX_MAPPING < 2 ^ 32 := by decide
      have hbeyond := hr (MAX_MAPPING - max ai.base LOADER_MAPPED) (by
        show _ < reach LOADER_MAPPED MAX_MAPPING ai - max ai.base LOADER_MAPPED
        omega)
      have hble : max ai.base LOADER_MAPPED ≤ MAX_MAPPING := max_le hbase.le (by decide)
      rw [haddr _ _ (by omega), Nat.add_sub_cancel' hble] at hbeyond
      exact absurd hbeyond (not_mapped_max hpaging)
  · intro hends r hr i hi
    obtain ⟨ai, hai, hclip⟩ := List.mem_filterMap.mp hr
    obtain ⟨htype, hbase, heq⟩ := second_pass.clipped_some hclip
    rw [heq] at hi ⊢
    have hi : i < reach LOADER_MAPPED MAX_MAPPING ai - max ai.base LOADER_MAPPED := hi
    have hend := hends last hlast ai hai htype hbase (by omega)
    have hle : reach LOADER_MAPPED MAX_MAPPING ai ≤ MAX_MAPPING :=
      reach_le_or.resolve_right (by omega)
    show P.Mapped (add32 (PAGE_OFFSET + max ai.base LOADER_MAPPED) i)
    rw [haddr _ _ (by omega), hmapped _ (by omega) (by omega)]
    omega

instance (items : List ARDSItem) : Decidable (EndsMapped items) :=
  match h : lastSized items with
  | none => .isTrue fun last hlast => nomatch h.symm.trans hlast
  | some last => decidable_of_iff (∀ ai ∈ items, ai.type = 1 → ai.base < MAX_MAPPING →
      max ai.base LOADER_MAPPED < reach LOADER_MAPPED MAX_MAPPING ai →
      reach LOADER_MAPPED MAX_MAPPING ai ≤ (last.base + last.limit) % 2 ^ 32 / 2 ^ 12 * 2 ^ 12)
    ⟨fun hall last' hlast' => by rwa [← Option.some.inj (h.symm.trans hlast')],
      fun hall => hall last h⟩

/-- In ascending order the last entry is the one that ends last. -/
theorem releasesMapped_iff_sorted : ∃ P h', bootPaging [⟨0, 0x9F000, 1⟩, ⟨0x9F000, 0x61000, 2⟩,
      ⟨0x100000, 0x1F00000, 1⟩] (Heap.init fun _ => 0) = .ok (P, h') ∧
    ReleasesMapped [⟨0, 0x9F000, 1⟩, ⟨0x9F000, 0x61000, 2⟩, ⟨0x100000, 0x1F00000, 1⟩] P := by
  obtain ⟨r, hok⟩ := exists_of_isOk (x := bootPaging [⟨0, 0x9F000, 1⟩, ⟨0x9F000, 0x61000, 2⟩,
    ⟨0x100000, 0x1F00000, 1⟩] (Heap.init fun _ => 0)) (by decide +kernel)
  exact ⟨r.1, r.2, hok, (releasesMapped_iff hok).mpr (by decide)⟩

/-- A last entry above 4 GB: its end, as a `u32`, is all that is mapped. -/
theorem not_releasesMapped : ¬ ∀ (items : List ARDSItem) (h h' : Heap) (P : Paging),
    bootPaging items h = .ok (P, h') → ReleasesMapped items P := by
  intro hall
  obtain ⟨r, hok⟩ := exists_of_isOk (x := bootPaging [⟨0x100000, 0x1F00000, 1⟩,
    ⟨0x100000000, 0x100000, 1⟩] (Heap.init fun _ => 0)) (by decide +kernel)
  have hmapped := hall _ _ r.2 r.1 hok (PAGE_OFFSET + LOADER_MAPPED, 0x1000000)
    (List.mem_filterMap.mpr ⟨_, List.mem_cons_self .., by decide⟩) 0 (by decide)
  obtain ⟨-, h₁, hpaging⟩ := paging_of_boot hok
  exact absurd ((mapped_iff hpaging le_rfl (by decide)).mp hmapped) (by decide)

end NorlitOS
