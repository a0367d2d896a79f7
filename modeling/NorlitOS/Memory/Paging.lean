import NorlitOS.Memory.BootMap
import NorlitOS.Memory.Canonical

/-!
# The words of `init_paging` (`kernel/memory/paging.c`)

The page tables as `init_paging` writes them, word by word, and the walk that the processor does
through them.
-/

namespace NorlitOS

open Heap (range)

/-! ## Loops that write

`init_paging` fills its tables with loops that carry an index and a pointer on from one loop into
the next. `storeLoop` gives both back, so that the loops of the model follow on one another as
those of the source do. -/

/-- `for(;index<bound;index++,ptr++) *ptr=value(index);` for `n` rounds: where `index` and `ptr` are
behind it. -/
def storeLoop (value : Nat → Nat) : Nat → Nat → Nat → Heap → Nat × Nat × Heap
  | 0, index, ptr, h => (index, ptr, h)
  | n + 1, index, ptr, h => storeLoop value n (index + 1) (add32 ptr 4) (h.store (.link ptr) (value index))

/-- `memcpy` of `n` words. -/
def copyWords : Nat → Nat → Nat → Heap → Heap
  | 0, _, _, h => h
  | n + 1, dst, src, h => copyWords n (add32 dst 4) (add32 src 4) (h.store (.link dst) (h.load (.link src)))

/-- The addresses `init_paging` keeps. `own` is the frame for `KERNEL_STRUCTURE`. -/
structure PagingWords where
  flatPTEs : Nat
  kernelPage : Nat
  own : Nat
  kernelPDE : Nat

/-- The block that initializes the PTEs for the flat model. -/
def initPTEs (pages allocpages flatPTEs : Nat) (h : Heap) : Heap :=
  let (index, pteptr, h) := storeLoop (fun index => index * 0x1000 + 0b11111) pages 0 flatPTEs h
  let (_, _, h) := storeLoop (fun index => index * 0x1000) (allocpages - index) index pteptr h
  h

/-- The block that initializes the PDEs for kernel processes. -/
def initPDEs (allocpages flatPTEs kernelPage kernelPDE : Nat) (h : Heap) : Heap :=
  let maxpdeentry := allocpages / 1024
  let maxpdeentry := if va2pde MAX_MAPPING < maxpdeentry then va2pde MAX_MAPPING else maxpdeentry
  let (_, pdeptr, h) := storeLoop (fun _ => 0) (va2pde PAGE_OFFSET) 0 kernelPDE h
  let h := h.store (.link pdeptr) (add32 (va2pa kernelPage) 0b11111)
  let pdeptr := add32 pdeptr 4
  let (index, pdeptr, h) := storeLoop
    (fun index => add32 (add32 (va2pa flatPTEs) (index * 0x1000)) 0b11111) (maxpdeentry - 1) 1 pdeptr h
  let (_, _, h) := storeLoop (fun _ => 0) (1024 - va2pde PAGE_OFFSET - index) index pdeptr h
  h

/-- `init_paging`. -/
def initPagingWords (memsize : Nat) (h : Heap) : Except Stop (PagingWords × Heap) := do
  let pages := va2flatPte memsize
  let (flatPTEs, h) ← h.memoryAlloc 22
  let h ← h.memoryFreeNocheck (add32 flatPTEs (allocpages pages * 4))
    (sub32 (2 ^ 22) (allocpages pages * 4))
  let h := initPTEs pages (allocpages pages) flatPTEs h
  let (kernelPage, h) ← h.memoryAlloc 12
  let h := copyWords (0x1000 / 4) kernelPage flatPTEs h
  let (own, h) ← h.memoryAlloc 12
  let h := h.store (.link (add32 kernelPage (va2flatPte KERNEL_STRUCTURE * 4)))
    (add32 (sub32 own PAGE_OFFSET) 0b11111)
  let (kernelPDE, h) ← h.memoryAlloc 12
  let h := initPDEs (allocpages pages) flatPTEs kernelPage kernelPDE h
  .ok ({ flatPTEs, kernelPage, own, kernelPDE }, h)

namespace Heap

variable {h h' h'' : Heap} {F B C : Set Nat} {f : Nat → Nat} {n i p dst src base x v : Nat}

/-! ## What the loops write

A loop stays inside the words it fills, and puts into word `j` what the source computes for the
index there. `Stored` is the first half of this for any number of loops. -/

/-- A block that begins later and ends earlier is part of the other. -/
theorem range_subset {a b m : Nat} (hlo : b ≤ a) (hhi : a + m ≤ b + n) : range a m ⊆ range b n :=
  fun _ hx => ⟨hlo.trans hx.1, lt_of_lt_of_le hx.2 hhi⟩

theorem word_store (h : Heap) (x v : Nat) : (h.store (.link x) v).word x = v :=
  h.load_store_self (.link x) v

theorem word_store_ne {y : Nat} (hne : y ≠ x) : (h.store (.link x) v).word y = h.word y :=
  h.load_store_of_ne v fun heq => hne (Slot.link.inj heq)

/-- Only words of `B` are written. -/
structure Stored (B : Set Nat) (h h' : Heap) : Prop where
  frame : ∀ x ∉ B, h'.word x = h.word x
  rep : ∀ F, Disjoint B F → Rep h F → Rep h' F

namespace Stored

theorem refl (B : Set Nat) (h : Heap) : Stored B h h := ⟨fun _ _ => rfl, fun _ _ hR => hR⟩

/-- One loop after the other in the same block. -/
theorem trans (h₁ : Stored B h h') (h₂ : Stored B h' h'') : Stored B h h'' where
  frame x hx := (h₂.frame x hx).trans (h₁.frame x hx)
  rep F hd hR := h₂.rep F hd (h₁.rep F hd hR)

theorem mono (hs : Stored B h h') (hsub : B ⊆ C) : Stored C h h' where
  frame x hx := hs.frame x fun hx' => hx (hsub hx')
  rep F hd hR := hs.rep F (hd.mono_left hsub) hR

theorem store (hx : x ∈ B) : Stored B h (h.store (.link x) v) where
  frame _ hy := word_store_ne fun heq => hy (heq ▸ hx)
  rep _ hd hR := hR.store_word (Set.disjoint_left.mp hd hx)

end Stored

/-- Induction on the rounds. -/
theorem storeLoop_spec (hfit : p + 4 * n < 2 ^ 32) : ∃ h', storeLoop f n i p h =
      (i + n, p + 4 * n, h') ∧ Stored (range p (4 * n)) h h' ∧
      ∀ j < n, h'.word (p + 4 * j) = f (i + j) := by
  induction n generalizing i p h with
  | zero => exact ⟨h, rfl, Stored.refl _ _, fun j hj => absurd hj (Nat.not_lt_zero j)⟩
  | succ n ih =>
    have hnext : add32 p 4 = p + 4 := add32_of_lt (by omega)
    obtain ⟨h', hloop, hstored, hword⟩ := ih (h := h.store (.link p) (f i)) (i := i + 1) (p := p + 4)
      (by omega)
    refine ⟨h', ?_, ?_, fun j hj => ?_⟩
    · rw [storeLoop, hnext, hloop, show i + 1 + n = i + (n + 1) by omega,
        show p + 4 + 4 * n = p + 4 * (n + 1) by omega]
    · have hin : p ∈ range p (4 * (n + 1)) := ⟨le_rfl, by omega⟩
      exact (Stored.store hin).trans (hstored.mono (range_subset (by omega) (by omega)))
    -- the first round writes word 0 and no later one touches it
    · cases j with
      | zero =>
        have hout : p ∉ range (p + 4) (4 * n) := fun hx => absurd hx.1 (by omega)
        exact (hstored.frame p hout).trans (word_store _ _ _)
      | succ j =>
        have hj := hword j (by omega)
        rw [show p + 4 * (j + 1) = p + 4 + 4 * j by omega, hj]
        exact congrArg f (by omega)

/-- `memcpy` between two blocks that have no word in common. -/
theorem copyWords_spec (n dst src : Nat) (hdst : dst + 4 * n < 2 ^ 32) (hsrc : src + 4 * n < 2 ^ 32)
    (hd : Disjoint (range dst (4 * n)) (range src (4 * n))) :
    Stored (range dst (4 * n)) h (copyWords n dst src h) ∧
      ∀ i < n, (copyWords n dst src h).word (dst + 4 * i) = h.word (src + 4 * i) := by
  induction n generalizing dst src h with
  | zero => exact ⟨Stored.refl _ _, fun i hi => absurd hi (Nat.not_lt_zero i)⟩
  | succ n ih =>
    have hsub : range (dst + 4) (4 * n) ⊆ range dst (4 * (n + 1)) := range_subset (by omega) (by omega)
    have hsub' : range (src + 4) (4 * n) ⊆ range src (4 * (n + 1)) := range_subset (by omega) (by omega)
    obtain ⟨hstored, hword⟩ := ih (dst + 4) (src + 4) (h := h.store (.link dst) (h.load (.link src)))
      (by omega) (by omega) (hd.mono hsub hsub')
    have hin : dst ∈ range dst (4 * (n + 1)) := ⟨le_rfl, by omega⟩
    rw [copyWords, add32_of_lt (by omega), add32_of_lt (by omega)]
    refine ⟨(Stored.store hin).trans (hstored.mono hsub), fun i hi => ?_⟩
    -- word 0 is written first, the others by the rest of the loop
    cases i with
    | zero =>
      have hout : dst ∉ range (dst + 4) (4 * n) := fun hx => absurd hx.1 (by omega)
      exact (hstored.frame dst hout).trans (word_store _ _ _)
    | succ i =>
      have hne : src + 4 * (i + 1) ≠ dst := fun heq =>
        Set.disjoint_left.mp hd hin ⟨by omega, by omega⟩
      rw [show dst + 4 * (i + 1) = dst + 4 + 4 * i by omega, hword i (by omega),
        show src + 4 + 4 * i = src + 4 * (i + 1) by omega]
      exact word_store_ne hne

/-! ## Tables in allocated memory

Between two loops `init_paging` calls `memory_alloc` again. What was written stays, since the
allocator writes into free memory alone and the tables lie in blocks that it has given away. -/

/-- `n` words from `base` on, none of them free. -/
structure Table (h : Heap) (F : Set Nat) (base n : Nat) (f : Nat → Nat) : Prop where
  allocated : ∀ i < n, base + 4 * i ∉ F
  word : ∀ i < n, h.word (base + 4 * i) = f i

namespace Table

/-- A table stays where other memory is taken and written. -/
theorem taken (ht : Table h F base n f) (hT : Taken h F B h') (hs : Stored B h' h'') :
    Table h'' (F \ B) base n f where
  allocated i hi hin := ht.allocated i hi hin.1
  word i hi := by
    have hout := ht.allocated i hi
    rw [hs.frame _ fun hx => hout (hT.free hx), hT.frame _ hout]
    exact ht.word i hi

/-- Loops that write elsewhere keep a table. -/
theorem stored (ht : Table h F base n f) (hs : Stored B h h') (hB : ∀ i < n, base + 4 * i ∉ B) :
    Table h' F base n f where
  allocated := ht.allocated
  word i hi := (hs.frame _ (hB i hi)).trans (ht.word i hi)

/-- One entry is written. -/
theorem update (ht : Table h F base n f) (j : Nat) (v : Nat) :
    Table (h.store (.link (base + 4 * j)) v) F base n (Function.update f j v) where
  allocated := ht.allocated
  word i hi := by
    by_cases hij : i = j
    · subst hij
      rw [word_store, Function.update_self]
    · rw [word_store_ne (by omega), Function.update_of_ne hij]
      exact ht.word i hi

end Table

end Heap

open Heap

variable {h h₁ h₂ h' : Heap} {F : Set Nat} {memsize pages flat page own directory i n : Nat}

/-! ## The three tables

The words of `flatPTEs`, of the page for the kernel and of the directory as functions of the
index, and the loops that write them. -/

/-- `allocpages` rounds up to whole page tables. -/
theorem le_allocpages (pages : Nat) : pages ≤ allocpages pages ∧ allocpages pages ≤ pages + 1023 := by
  unfold allocpages
  omega

/-- An entry of `flatPTEs`. -/
def flatEntry (pages index : Nat) : Nat :=
  if index < pages then index * 0x1000 + 0b11111 else index * 0x1000

/-- An entry of `kernelPDE`. -/
def directoryEntry (pages flat page i : Nat) : Nat :=
  if i < 768 then 0
  else if i = 768 then add32 (va2pa page) 0b11111
  else if i - 768 < min (allocpages pages / 1024) 192 then
    add32 (add32 (va2pa flat) ((i - 768) * 0x1000)) 0b11111
  else 0

/-- The two loops fill all entries: those of pages that exist with `0x1F` added, those behind them
without. -/
theorem initPTEs_spec (pages flat : Nat) (hfit : flat + allocpages pages * 4 < 2 ^ 32) :
    Stored (range flat (allocpages pages * 4)) h (initPTEs pages (allocpages pages) flat h) ∧
    ∀ i < allocpages pages,
      (initPTEs pages (allocpages pages) flat h).word (flat + 4 * i) = flatEntry pages i := by
  obtain ⟨hle, -⟩ := le_allocpages pages
  -- the first loop ends at `pages`, and the second goes on from there
  obtain ⟨h₁, hloop₁, hstored₁, hword₁⟩ := storeLoop_spec (h := h) (n := pages)
    (f := fun index => index * 0x1000 + 0b11111) (p := flat) (i := 0) (by omega)
  obtain ⟨h', hloop₂, hstored₂, hword₂⟩ := storeLoop_spec (h := h₁) (n := allocpages pages - pages)
    (f := fun index => index * 0x1000) (p := flat + 4 * pages) (i := pages) (by omega)
  rw [Nat.zero_add] at hloop₁
  unfold initPTEs
  rw [hloop₁]
  dsimp only
  rw [hloop₂]
  refine ⟨?_, fun i hi => ?_⟩
  · exact (hstored₁.mono (range_subset le_rfl (by omega))).trans
      (hstored₂.mono (range_subset (by omega) (by omega)))
  · unfold flatEntry
    by_cases hlt : i < pages
    · have hout : flat + 4 * i ∉ range (flat + 4 * pages) (4 * (allocpages pages - pages)) :=
        fun hx => absurd hx.1 (by omega)
      rw [if_pos hlt, hstored₂.frame _ hout, hword₁ i hlt, Nat.zero_add]
    · have hword := hword₂ (i - pages) (by omega)
      rw [show flat + 4 * pages + 4 * (i - pages) = flat + 4 * i by omega, Nat.add_sub_cancel' (by omega)]
        at hword
      rw [if_neg hlt]
      exact hword

/-- Each entry of the directory is written once. -/
theorem initPDEs_spec (pages flat page directory : Nat) (hpos : 1 ≤ allocpages pages / 1024) (hfit : directory + 4096 < 2 ^ 32) :
    Stored (range directory 4096) h (initPDEs (allocpages pages) flat page directory h) ∧
    ∀ i < 1024, (initPDEs (allocpages pages) flat page directory h).word (directory + 4 * i) =
      directoryEntry pages flat page i := by
  have hoff : va2pde PAGE_OFFSET = 768 := by decide
  have hmapped : va2pde MAX_MAPPING = 192 := by decide
  obtain ⟨max, hmax, hclamp⟩ : ∃ max, min (allocpages pages / 1024) 192 = max ∧
      (if 192 < allocpages pages / 1024 then 192 else allocpages pages / 1024) = max := by
    refine ⟨_, rfl, ?_⟩
    split <;> omega
  let entry := add32 (va2pa page) 0b11111
  let table (index : Nat) := add32 (add32 (va2pa flat) (index * 0x1000)) 0b11111
  obtain ⟨h₁, hloop₁, hstored₁, hword₁⟩ := storeLoop_spec (h := h) (n := 768) (p := directory) (i := 0)
    (f := fun _ => 0) (by omega)
  -- the entry of the kernel's own page stands between the first two loops
  obtain ⟨h₂, hloop₂, hstored₂, hword₂⟩ := storeLoop_spec (n := max - 1) (p := directory + 4 * 769)
    (h := h₁.store (.link (directory + 4 * 768)) entry) (i := 1) (f := table) (by omega)
  obtain ⟨h', hloop₃, hstored₃, hword₃⟩ := storeLoop_spec (h := h₂) (n := 256 - max)
    (p := directory + 4 * (768 + max)) (i := max) (f := fun _ => 0) (by omega)
  have hentry : Stored (range (directory + 4 * 768) 4) h₁
    (h₁.store (.link (directory + 4 * 768)) entry) := Stored.store ⟨le_rfl, by omega⟩
  have hbuilt : initPDEs (allocpages pages) flat page directory h = h' := by
    rw [Nat.add_sub_cancel' (by omega),
      show directory + 4 * 769 + 4 * (max - 1) = directory + 4 * (768 + max) by omega] at hloop₂
    unfold initPDEs
    rw [hoff, hmapped]
    dsimp only
    rw [hclamp, hloop₁]
    dsimp only
    rw [add32_of_lt (by omega), show directory + 4 * 768 + 4 = directory + 4 * 769 by omega, hloop₂]
    dsimp only
    rw [hloop₃]
  rw [hbuilt]
  refine ⟨?_, fun i hi => ?_⟩
  · exact (((hstored₁.mono (range_subset le_rfl (by omega))).trans
      (hentry.mono (range_subset (by omega) (by omega)))).trans
      (hstored₂.mono (range_subset (by omega) (by omega)))).trans
      (hstored₃.mono (range_subset (by omega) (by omega)))
  · -- the four parts of the directory do not overlap
    have hout : ∀ {a m : Nat}, directory + 4 * i < a ∨ a + m ≤ directory + 4 * i →
        directory + 4 * i ∉ range a m := by
      intro a m hor hx
      have hlo := hx.1
      have hhi := hx.2
      omega
    unfold directoryEntry
    rw [hmax]
    by_cases hlow : i < 768
    · rw [if_pos hlow, hstored₃.frame _ (hout (by omega)), hstored₂.frame _ (hout (by omega)),
        hentry.frame _ (hout (by omega)), hword₁ i hlow]
    rw [if_neg hlow]
    by_cases hkernel : i = 768
    · rw [if_pos hkernel, hstored₃.frame _ (hout (by omega)), hstored₂.frame _ (hout (by omega)),
        hkernel, word_store]
    rw [if_neg hkernel]
    by_cases htable : i - 768 < max
    · obtain ⟨k, hk⟩ : ∃ k, i = 769 + k := ⟨i - 769, by omega⟩
      have hword := hword₂ k (by omega)
      rw [show directory + 4 * 769 + 4 * k = directory + 4 * i by omega,
        show 1 + k = i - 768 by omega] at hword
      rw [if_pos htable, hstored₃.frame _ (hout (by omega)), hword]
    · have hword := hword₃ (i - (768 + max)) (by omega)
      rw [show directory + 4 * (768 + max) + 4 * (i - (768 + max)) = directory + 4 * i by omega] at hword
      rw [if_neg htable, hword]

/-! ## What `init_paging` builds -/

/-- The blocks that are kept. -/
def PagingWords.blocks (W : PagingWords) (memsize : Nat) : List (Nat × Nat) :=
  [(W.flatPTEs, allocpages (va2flatPte memsize) * 4), (W.kernelPage, 2 ^ 12), (W.own, 2 ^ 12),
    (W.kernelPDE, 2 ^ 12)]

/-- The tables in memory, in blocks of their own that were free before. -/
structure PagingWords.Built (W : PagingWords) (memsize : Nat) (F : Set Nat) (h' : Heap) : Prop where
  rep : h'.Rep (F \ covered (W.blocks memsize))
  free : covered (W.blocks memsize) ⊆ F
  apart : (W.blocks memsize).Pairwise fun r r' => Disjoint (range r.1 r.2) (range r'.1 r'.2)
  aligned : 2 ^ 22 ∣ W.flatPTEs ∧ ∀ r ∈ W.blocks memsize, 2 ^ 12 ∣ r.1
  flat : ∀ i < allocpages (va2flatPte memsize),
    h'.word (W.flatPTEs + 4 * i) = flatEntry (va2flatPte memsize) i
  page : ∀ i < 1024, h'.word (W.kernelPage + 4 * i) =
    if i = 7 then add32 (va2pa W.own) 0b11111 else flatEntry (va2flatPte memsize) i
  directory : ∀ i < 1024, h'.word (W.kernelPDE + 4 * i) =
    directoryEntry (va2flatPte memsize) W.flatPTEs W.kernelPage i

/-- A block of managed memory does not reach the end of the address space. -/
theorem end_lt {a m : Nat} (hm : 0 < m) (hsub : range a m ⊆ F) (hin : F ⊆ managed) :
    PAGE_OFFSET ≤ a ∧ a + m ≤ 0xF0000000 := by
  have hfirst : a ∈ managed := hin (hsub ⟨le_rfl, by omega⟩)
  have hlast : a + m - 1 ∈ managed := hin (hsub ⟨by omega, by omega⟩)
  have hhi : a + m - 1 < 0xC0000000 + 0x30000000 := hlast.2
  exact ⟨hfirst.1, by omega⟩

/-- The steps of a call that returns. -/
theorem initPagingWords_cases {W : PagingWords} (hok : initPagingWords memsize h = .ok (W, h')) :
    ∃ h₁ h₂ h₃ h₄ h₅, h.memoryAlloc 22 = .ok (W.flatPTEs, h₁) ∧
      h₁.memoryFreeNocheck (add32 W.flatPTEs (allocpages (va2flatPte memsize) * 4))
        (sub32 (2 ^ 22) (allocpages (va2flatPte memsize) * 4)) = .ok h₂ ∧
      (initPTEs (va2flatPte memsize) (allocpages (va2flatPte memsize)) W.flatPTEs h₂).memoryAlloc 12 =
        .ok (W.kernelPage, h₃) ∧
      (copyWords 1024 W.kernelPage W.flatPTEs h₃).memoryAlloc 12 = .ok (W.own, h₄) ∧
      (h₄.store (.link (add32 W.kernelPage 28)) (add32 (va2pa W.own) 0b11111)).memoryAlloc 12 =
        .ok (W.kernelPDE, h₅) ∧
      h' = initPDEs (allocpages (va2flatPte memsize)) W.flatPTEs W.kernelPage W.kernelPDE h₅ := by
  obtain ⟨⟨flat, h₁⟩, hflat, hok⟩ := bind_eq_ok.mp hok
  -- what `flatPTEs` does not need is given back
  obtain ⟨h₂, hextra, hok⟩ := bind_eq_ok.mp hok
  obtain ⟨⟨page, h₃⟩, hpage, hok⟩ := bind_eq_ok.mp hok
  obtain ⟨⟨own, h₄⟩, hown, hok⟩ := bind_eq_ok.mp hok
  obtain ⟨⟨directory, h₅⟩, hdirectory, hok⟩ := bind_eq_ok.mp hok
  obtain ⟨rfl, hbuilt⟩ := Prod.mk.inj (Except.ok.inj hok)
  have hwords : 0x1000 / 4 = 1024 := rfl
  have hentry : va2flatPte KERNEL_STRUCTURE * 4 = 28 := rfl
  rw [hwords] at hown
  rw [hentry] at hdirectory
  exact ⟨h₁, h₂, h₃, h₄, h₅, hflat, hextra, hpage, hown, hdirectory, hbuilt.symm⟩

/-- A page that is taken and written leaves a table as it is. -/
theorem taken_page {g : Heap} {G : Set Nat} (hG : g.Rep G) (hGF : G ⊆ F) (hF : F ⊆ managed)
    (hok : g.memoryAlloc 12 = .ok (page, h₁)) :
    2 ^ 12 ∣ page ∧ PAGE_OFFSET ≤ page ∧ page + 2 ^ 12 ≤ 0xF0000000 ∧ range page (2 ^ 12) ⊆ G ∧
      g.Taken G (range page (2 ^ 12)) h₁ := by
  obtain ⟨hal, hT⟩ := alloc_taken hG (by decide) (by decide) hok
  obtain ⟨hlo, hhi⟩ := end_lt (by decide) (hT.free.trans hGF) hF
  exact ⟨hal, hlo, hhi, hT.free, hT⟩

theorem initPagingWords_built {W : PagingWords} (hR : h.Rep F) (hlarge : 0x1000000 ≤ memsize)
    (hsmall : memsize < 2 ^ 32) (hok : initPagingWords memsize h = .ok (W, h')) :
    W.Built memsize F h' := by
  obtain ⟨h₁, h₂, h₃, h₄, h₅, hflat, hextra, hpage, hown, hdirectory, hbuilt⟩ := initPagingWords_cases hok
  have hpages : va2flatPte memsize = memsize % 2 ^ 32 / 2 ^ 12 := rfl
  have hle := allocpages_le memsize
  obtain ⟨hlo, hhi⟩ := le_allocpages (va2flatPte memsize)
  obtain ⟨hal₁, hsub₁, hR₂⟩ := keepFront hR hle (dvd_allocpages _) hflat hextra
  obtain ⟨-, hend⟩ := end_lt (by decide) hsub₁ hR.inside
  clear hok hflat hextra
  -- the flat tables
  obtain ⟨hstored₂, hword₂⟩ := initPTEs_spec (h := h₂) (va2flatPte memsize) W.flatPTEs
    (by omega)
  have hG₂ := hstored₂.rep _ Set.disjoint_sdiff_right hR₂
  generalize initPTEs (va2flatPte memsize) (allocpages (va2flatPte memsize)) W.flatPTEs h₂ = g₂
    at hpage hstored₂ hword₂ hG₂
  let K := range W.flatPTEs (allocpages (va2flatPte memsize) * 4)
  have hflat₂ : g₂.Table (F \ K) W.flatPTEs (allocpages (va2flatPte memsize))
      (flatEntry (va2flatPte memsize)) :=
    ⟨fun i hi hin => hin.2 ⟨Nat.le_add_right _ _, by omega⟩, hword₂⟩
  -- `kernel_page`
  obtain ⟨halpage, -, hendpage, hpageG, hT₃⟩ := taken_page hG₂ Set.sdiff_subset hR.inside hpage
  have hKpage : Disjoint (range W.kernelPage (2 ^ 12)) K := Set.disjoint_left.mpr fun x hx => (hpageG hx).2
  have hfirst : range W.flatPTEs (4 * 1024) ⊆ K := range_subset le_rfl (by omega)
  obtain ⟨hstored₃, hword₃⟩ := copyWords_spec (h := h₃) 1024 W.kernelPage
    W.flatPTEs (by omega) (by omega) (hKpage.mono_right hfirst)
  have hG₃ := hstored₃.rep _ Set.disjoint_sdiff_right hT₃.rep
  generalize copyWords 1024 W.kernelPage W.flatPTEs h₃ = g₃ at hown hstored₃ hword₃ hG₃
  have hflat₃ := hflat₂.taken hT₃ hstored₃
  have hpage₃ : g₃.Table ((F \ K) \ range W.kernelPage (2 ^ 12)) W.kernelPage 1024
      (flatEntry (va2flatPte memsize)) := by
    refine ⟨fun i hi hin => hin.2 ⟨Nat.le_add_right _ _, by omega⟩, fun i hi => ?_⟩
    rw [hword₃ i hi, hT₃.frame _ (hflat₂.allocated i (by omega)), hword₂ i (by omega)]
  -- the frame for `KERNEL_STRUCTURE`
  obtain ⟨halown, hbaseown, hendown, hownG, hT₄⟩ :=
    taken_page hG₃ (Set.sdiff_subset.trans Set.sdiff_subset) hR.inside hown
  have hentry : add32 W.kernelPage 28 = W.kernelPage + 4 * 7 := add32_of_lt (by omega)
  rw [hentry] at hdirectory
  have hin₄ : W.kernelPage + 4 * 7 ∈ range W.kernelPage (2 ^ 12) := ⟨Nat.le_add_right _ _, by omega⟩
  have hstored₄ : Stored (range W.kernelPage (2 ^ 12)) h₄
    (h₄.store (.link (W.kernelPage + 4 * 7)) (add32 (va2pa W.own) 0b11111)) := Stored.store hin₄
  have hpage₄ := (hpage₃.taken hT₄ (Stored.refl _ h₄)).update 7 (add32 (va2pa W.own) 0b11111)
  have hflat₄ := (hflat₃.taken hT₄ (Stored.refl _ h₄)).stored hstored₄ fun i hi hin =>
    Set.disjoint_left.mp hKpage hin ⟨Nat.le_add_right _ _, by omega⟩
  have hG₄ := hstored₄.rep _ (Set.disjoint_left.mpr fun x hx hin => hin.1.2 hx) hT₄.rep
  generalize h₄.store (.link (W.kernelPage + 4 * 7)) (add32 (va2pa W.own) 0b11111) = g₄
    at hdirectory hstored₄ hpage₄ hflat₄ hG₄
  -- the directory
  obtain ⟨haldir, -, henddir, hdirG, hT₅⟩ := taken_page hG₄
    ((Set.sdiff_subset.trans Set.sdiff_subset).trans Set.sdiff_subset) hR.inside hdirectory
  obtain ⟨hstored₅, hword₅⟩ := initPDEs_spec (h := h₅) (va2flatPte memsize) W.flatPTEs
    W.kernelPage W.kernelPDE (by omega) (by omega)
  have hG₅ := hstored₅.rep _ Set.disjoint_sdiff_right hT₅.rep
  have hflat₅ := hflat₄.taken hT₅ hstored₅
  have hpage₅ := hpage₄.taken hT₅ hstored₅
  rw [← hbuilt] at hword₅ hG₅ hflat₅ hpage₅
  have hblocks : covered (W.blocks memsize) = K ∪ range W.kernelPage (2 ^ 12) ∪ range W.own (2 ^ 12) ∪
      range W.kernelPDE (2 ^ 12) := by
    unfold PagingWords.blocks
    simp only [covered_cons, covered_nil, Set.union_empty, Set.union_assoc, K]
  refine ⟨?_, ?_, ?_, ⟨hal₁, ?_⟩, hflat₅.word, fun i hi => ?_, hword₅⟩
  · rw [hblocks, ← Set.sdiff_sdiff, ← Set.sdiff_sdiff, ← Set.sdiff_sdiff]
    exact hG₅
  · rw [hblocks]
    have hK : K ⊆ F := (range_subset le_rfl (by omega)).trans hsub₁
    exact Set.union_subset (Set.union_subset (Set.union_subset hK (hpageG.trans Set.sdiff_subset))
      ((hownG.trans Set.sdiff_subset).trans Set.sdiff_subset))
      (((hdirG.trans Set.sdiff_subset).trans Set.sdiff_subset).trans Set.sdiff_subset)
  · unfold PagingWords.blocks
    simp only [List.pairwise_cons, List.forall_mem_cons, List.not_mem_nil, false_imp_iff, implies_true,
      List.Pairwise.nil, and_true]
    refine ⟨⟨hKpage.symm, ?_, ?_⟩, ⟨?_, ?_⟩, ?_⟩
    · exact Set.disjoint_right.mpr fun x hx => (hownG hx).1.2
    · exact Set.disjoint_right.mpr fun x hx => (hdirG hx).1.1.2
    · exact Set.disjoint_right.mpr fun x hx => (hownG hx).2
    · exact Set.disjoint_right.mpr fun x hx => (hdirG hx).1.2
    · exact Set.disjoint_right.mpr fun x hx => (hdirG hx).2
  · unfold PagingWords.blocks
    simp only [List.forall_mem_cons, List.not_mem_nil, false_imp_iff, implies_true, and_true]
    exact ⟨(pow_dvd_pow 2 (by decide)).trans hal₁, halpage, halown, haldir⟩
  · rw [hpage₅.word i hi, Function.update_apply]

/-! ## The walk -/

/-- The physical address the processor finds for a linear one. -/
def translate (word : Nat → Nat) (cr3 x : Nat) : Option Nat :=
  let pde := word (add32 (frameAt cr3) (va2pde x * 4))
  if pde.testBit 0 then
    let pte := word (add32 (frameAt pde) (va2pte x * 4))
    if pte.testBit 0 then some (pageBase pte + x % PAGE_SIZE) else none
  else none

/-- What the kernel should see: physical memory behind `PAGE_OFFSET`, but for one page. -/
def kernelView (memsize own x : Nat) : Option Nat :=
  let y := x - PAGE_OFFSET
  if PAGE_OFFSET ≤ x ∧ y < min (memsize / PAGE_SIZE * PAGE_SIZE) MAX_MAPPING then
    if pageBase y = KERNEL_STRUCTURE then some (va2pa own + y % PAGE_SIZE) else some y
  else none

theorem va2pa_of_le {a : Nat} (hlo : PAGE_OFFSET ≤ a) (hhi : a < 2 ^ 32) : va2pa a = a - PAGE_OFFSET :=
  sub32_of_le hlo hhi

theorem pageBase_add {a bits : Nat} (ha : 2 ^ 12 ∣ a) (hbits : bits < 4096) : pageBase (a + bits) = a := by
  show (a + bits) / 4096 * 4096 = a
  omega

/-- The frame of an entry for the page at `a`, whatever its low bits are. -/
theorem frameAt_entry {a : Nat} (bits : Nat) (ha : 2 ^ 12 ∣ a) (hlo : PAGE_OFFSET ≤ a) (hhi : a < 2 ^ 32)
    (hbits : bits < 4096) : add32 (va2pa a) bits = a - PAGE_OFFSET + bits ∧
      frameAt (a - PAGE_OFFSET + bits) = a := by
  have hoff : PAGE_OFFSET = 0xC0000000 := rfl
  have hbase : 2 ^ 12 ∣ a - PAGE_OFFSET := by omega
  constructor
  · rw [va2pa_of_le hlo hhi]
    exact add32_of_lt (by omega)
  · unfold frameAt pa2va
    rw [pageBase_add hbase hbits, add32_of_lt (by omega), Nat.sub_add_cancel hlo]

theorem present {n : Nat} (hn : 2 ∣ n) : (n + 31).testBit 0 = true := by
  rw [Nat.testBit_zero, decide_eq_true_eq]
  omega

theorem absent {n : Nat} (hn : 2 ∣ n) : n.testBit 0 = false := by
  rw [Nat.testBit_zero, decide_eq_false_iff_not]
  omega

/-- The entry of a flat table gives its own page, if there is one. -/
theorem flatEntry_walk (pages index off : Nat) :
    (if (flatEntry pages index).testBit 0 then some (pageBase (flatEntry pages index) + off) else none) =
      if index < pages then some (index * 4096 + off) else none := by
  unfold flatEntry
  by_cases hlt : index < pages
  · have hbase : pageBase (index * 0x1000 + 0b11111) = index * 4096 := by
      show (index * 0x1000 + 0b11111) / 4096 * 4096 = _
      omega
    rw [if_pos hlt, present (by omega), if_pos rfl, if_pos hlt, hbase]
  · rw [if_neg hlt, absent (by omega), if_neg Bool.false_ne_true, if_neg hlt]

/-- The table of `flatPTEs` that a directory entry names. -/
theorem flatTable {flat k : Nat} (hlo : PAGE_OFFSET ≤ flat) (hhi : flat + k * 4096 < 2 ^ 32) :
    add32 (va2pa flat) (k * 0x1000) = va2pa (flat + k * 4096) := by
  rw [va2pa_of_le hlo (by omega), va2pa_of_le (by omega) hhi, add32_of_lt (by omega)]
  omega

/-- The walk through a table that is present. -/
theorem translate_of_table {word : Nat → Nat} {cr3 x a entry : Nat} (ha : 2 ^ 12 ∣ a)
    (hlo : PAGE_OFFSET ≤ a) (hhi : a + 4096 < 2 ^ 32)
    (hpde : word (add32 (frameAt cr3) (va2pde x * 4)) = add32 (va2pa a) 0b11111)
    (hpte : word (a + 4 * va2pte x) = entry) :
    translate word cr3 x =
      if entry.testBit 0 then some (pageBase entry + x % PAGE_SIZE) else none := by
  obtain ⟨hadd, hframe⟩ := frameAt_entry 31 ha hlo (by omega) (by decide)
  have hoff : PAGE_OFFSET = 0xC0000000 := rfl
  have hindex : va2pte x < 1024 := Nat.div_lt_of_lt_mul (Nat.mod_lt _ (by decide))
  have hat : add32 a (va2pte x * 4) = a + 4 * va2pte x := by
    rw [add32_of_lt (by omega), Nat.mul_comm]
  unfold translate
  rw [hpde, hadd]
  dsimp only
  rw [present (by omega), if_pos rfl, hframe, hat, hpte]

/-- The entry of the page at `a` gives that page. -/
theorem entry_walk {a : Nat} (ha : 2 ^ 12 ∣ a) (hlo : PAGE_OFFSET ≤ a) (hhi : a + 4096 < 2 ^ 32)
    (off : Nat) : (if (add32 (va2pa a) 0b11111).testBit 0 then
      some (pageBase (add32 (va2pa a) 0b11111) + off) else none) = some (va2pa a + off) := by
  have hoff : PAGE_OFFSET = 0xC0000000 := rfl
  have hbase : 2 ^ 12 ∣ va2pa a := by
    rw [va2pa_of_le hlo (by omega)]
    omega
  have hadd : add32 (va2pa a) 0b11111 = va2pa a + 31 := (frameAt_entry 31 ha hlo (by omega) (by decide)).1.trans
    (congrArg (· + 31) (va2pa_of_le hlo (by omega)).symm)
  rw [hadd, present (by omega), if_pos rfl, pageBase_add hbase (by decide)]

theorem translate_of_zero {word : Nat → Nat} {cr3 x : Nat}
    (hpde : word (add32 (frameAt cr3) (va2pde x * 4)) = 0) : translate word cr3 x = none := by
  unfold translate
  rw [hpde]
  rfl

/-- The view of an address behind `PAGE_OFFSET`. -/
theorem kernelView_add {own y : Nat} (hsmall : memsize < 2 ^ 32) :
    kernelView memsize own (PAGE_OFFSET + y) =
      if y / 4096 < va2flatPte memsize ∧ y < MAX_MAPPING then
        if y / 4096 = 7 then some (va2pa own + y % 4096) else some y
      else none := by
  have hpages : va2flatPte memsize = memsize / 2 ^ 12 := congrArg (· / 2 ^ 12) (Nat.mod_eq_of_lt hsmall)
  have hsub : PAGE_OFFSET + y - PAGE_OFFSET = y := Nat.add_sub_cancel_left _ _
  have hbase : pageBase y = KERNEL_STRUCTURE ↔ y / 4096 = 7 := by
    show y / 4096 * 4096 = 0x7000 ↔ _
    omega
  have hbound : (PAGE_OFFSET ≤ PAGE_OFFSET + y ∧ y < min (memsize / PAGE_SIZE * PAGE_SIZE) MAX_MAPPING) ↔
      y / 4096 < va2flatPte memsize ∧ y < MAX_MAPPING := by
    show (_ ∧ y < min (memsize / 4096 * 4096) MAX_MAPPING) ↔ _
    rw [hpages]
    omega
  unfold kernelView
  simp only [hsub, hbase, hbound]
  rfl

namespace PagingWords.Built

variable {W : PagingWords}

/-- Where the kept blocks are. -/
theorem bounds (hB : W.Built memsize F h') (hF : F ⊆ managed) {r : Nat × Nat}
    (hr : r ∈ W.blocks memsize) (hpos : 0 < r.2) : PAGE_OFFSET ≤ r.1 ∧ r.1 + r.2 ≤ 0xF0000000 :=
  end_lt hpos (fun _ hx => hB.free ⟨r, hr, hx⟩) hF

theorem page_bounds (hB : W.Built memsize F h') (hF : F ⊆ managed) {a : Nat}
    (ha : (a, 2 ^ 12) ∈ W.blocks memsize) :
    2 ^ 12 ∣ a ∧ PAGE_OFFSET ≤ a ∧ a + 2 ^ 12 ≤ 0xF0000000 :=
  ⟨hB.aligned.2 _ ha, hB.bounds hF ha (Nat.two_pow_pos 12)⟩

/-- The entry of the directory that the processor reads. -/
theorem read_directory (hB : W.Built memsize F h') (hF : F ⊆ managed) {x : Nat} (hx : x < 2 ^ 32) :
    h'.word (add32 (frameAt (va2pa W.kernelPDE)) (va2pde x * 4)) =
      directoryEntry (va2flatPte memsize) W.flatPTEs W.kernelPage (x / 2 ^ 22) := by
  obtain ⟨halign, hlo, hhi⟩ := hB.page_bounds hF (a := W.kernelPDE) (by simp [blocks])
  obtain ⟨hadd, hframe⟩ := frameAt_entry 0 halign hlo (by omega) (by decide)
  rw [Nat.add_zero, ← va2pa_of_le hlo (by omega)] at hframe
  have hi : va2pde x = x / 2 ^ 22 := congrArg (· / 2 ^ 22) (Nat.mod_eq_of_lt hx)
  rw [hframe, hi, add32_of_lt (by omega), Nat.mul_comm]
  exact hB.directory _ (by omega)

/-- A walk of `kernelPDE` sees physical memory. -/
theorem translate_eq (hB : W.Built memsize F h') (hF : F ⊆ managed) (hlarge : 0x1000000 ≤ memsize)
    (hsmall : memsize < 2 ^ 32) {x : Nat} (hx : x < 2 ^ 32) :
    translate h'.word (va2pa W.kernelPDE) x = kernelView memsize W.own x := by
  have hpages : va2flatPte memsize = memsize / 2 ^ 12 := congrArg (· / 2 ^ 12) (Nat.mod_eq_of_lt hsmall)
  have hoff : PAGE_OFFSET = 0xC0000000 := rfl
  have hmax : MAX_MAPPING = 0x30000000 := rfl
  obtain ⟨hlo, hhi⟩ := le_allocpages (va2flatPte memsize)
  have hround : allocpages (va2flatPte memsize) / 1024 * 1024 = allocpages (va2flatPte memsize) :=
    congrArg (· * 1024) (Nat.mul_div_cancel _ (by decide))
  have hread := hB.read_directory hF hx
  rcases Nat.lt_or_ge x PAGE_OFFSET with hlow | hhigh
  · -- below the kernel half nothing is mapped
    have hentry : directoryEntry (va2flatPte memsize) W.flatPTEs W.kernelPage (x / 2 ^ 22) = 0 :=
      if_pos (by omega)
    rw [hentry] at hread
    rw [translate_of_zero hread]
    exact (if_neg fun hand => absurd hand.1 (Nat.not_le.mpr hlow)).symm
  obtain ⟨y, rfl⟩ := Nat.exists_eq_add_of_le hhigh
  rw [kernelView_add hsmall]
  have hpde : (PAGE_OFFSET + y) / 2 ^ 22 = 768 + y / 2 ^ 22 := by omega
  have hpte : va2pte (PAGE_OFFSET + y) = y / 4096 % 1024 := by
    show (PAGE_OFFSET + y) % 2 ^ 22 / 2 ^ 12 = _
    omega
  have hrest : (PAGE_OFFSET + y) % PAGE_SIZE = y % 4096 := by
    show (PAGE_OFFSET + y) % 4096 = _
    omega
  rw [hpde] at hread
  unfold directoryEntry at hread
  rw [if_neg (by omega)] at hread
  by_cases hkernel : y / 2 ^ 22 = 0
  · -- the first table is `kernel_page`
    rw [if_pos (by omega)] at hread
    obtain ⟨halign, hlo', hhi'⟩ := hB.page_bounds hF (a := W.kernelPage) (by simp [blocks])
    have hentry := hB.page (va2pte (PAGE_OFFSET + y)) (by omega)
    have hin : y / 4096 < va2flatPte memsize ∧ y < MAX_MAPPING := ⟨by omega, by omega⟩
    rw [translate_of_table halign hlo' (by omega) hread hentry, hpte, hrest,
      show y / 4096 % 1024 = y / 4096 by omega, if_pos hin]
    by_cases hown : y / 4096 = 7
    · obtain ⟨halign', hlo'', hhi''⟩ := hB.page_bounds hF (a := W.own) (by simp [blocks])
      rw [if_pos hown, entry_walk halign' hlo'' (by omega), if_pos hown]
    · rw [if_neg hown, flatEntry_walk, if_pos hin.1, if_neg hown]
      exact congrArg some (Nat.div_add_mod' y 4096)
  rw [if_neg (by omega), Nat.add_sub_cancel_left] at hread
  by_cases htable : y / 2 ^ 22 < min (allocpages (va2flatPte memsize) / 1024) 192
  · -- the others are those of the flat model
    rw [if_pos htable] at hread
    have hflat := hB.bounds hF (r := (W.flatPTEs, allocpages (va2flatPte memsize) * 4)) (by simp [blocks])
      (show 0 < allocpages (va2flatPte memsize) * 4 by omega)
    dsimp only at hflat
    have halflat := hB.aligned.1
    have hentry := hB.flat (y / 4096) (by omega)
    rw [show W.flatPTEs + 4 * (y / 4096) = W.flatPTEs + y / 2 ^ 22 * 4096 + 4 * (y / 4096 % 1024) by omega,
      ← hpte] at hentry
    rw [flatTable hflat.1 (by omega)] at hread
    rw [translate_of_table (by omega) (by omega) (by omega) hread hentry, hrest, flatEntry_walk]
    by_cases hlt : y / 4096 < va2flatPte memsize
    · rw [if_pos hlt, if_pos ⟨hlt, by omega⟩, if_neg (by omega)]
      exact congrArg some (Nat.div_add_mod' y 4096)
    · rw [if_neg hlt, if_neg fun hand => hlt hand.1]
  · -- behind the last table there is nothing
    rw [if_neg htable] at hread
    rw [translate_of_zero hread, if_neg (by omega)]

/-- What an entry of the directory refers to, if anything, is one of the tables that are kept. -/
theorem frame_subset (hB : W.Built memsize F h') (hF : F ⊆ managed) (hlarge : 0x1000000 ≤ memsize)
    (hsmall : memsize < 2 ^ 32) {i : Nat} (hi : i < 1024)
    (hpresent : (h'.word (W.kernelPDE + 4 * i)).testBit 0 = true) :
    i = 768 ∧ frameAt (h'.word (W.kernelPDE + 4 * i)) = W.kernelPage ∨
      i ≠ 768 ∧ range (frameAt (h'.word (W.kernelPDE + 4 * i))) (2 ^ 12) ⊆
        range W.flatPTEs (allocpages (va2flatPte memsize) * 4) := by
  have hpages : va2flatPte memsize = memsize / 2 ^ 12 := congrArg (· / 2 ^ 12) (Nat.mod_eq_of_lt hsmall)
  have hoff : PAGE_OFFSET = 0xC0000000 := rfl
  obtain ⟨hlo, hhi⟩ := le_allocpages (va2flatPte memsize)
  have hzero : Nat.testBit 0 0 ≠ true := by decide
  rw [hB.directory i hi] at hpresent ⊢
  unfold directoryEntry at hpresent ⊢
  -- an entry that is present is one of the kernel half
  by_cases hlow : i < 768
  · rw [if_pos hlow] at hpresent
    exact absurd hpresent hzero
  rw [if_neg hlow] at hpresent ⊢
  by_cases hkernel : i = 768
  · obtain ⟨halign, hlo', hhi'⟩ := hB.page_bounds hF (a := W.kernelPage) (by simp [blocks])
    obtain ⟨hadd, hframe⟩ := frameAt_entry 31 halign hlo' (by omega) (by decide)
    rw [if_pos hkernel, hadd, hframe]
    exact Or.inl ⟨hkernel, rfl⟩
  rw [if_neg hkernel] at hpresent ⊢
  by_cases htable : i - 768 < min (allocpages (va2flatPte memsize) / 1024) 192
  · rw [if_pos htable]
    have hflat := hB.bounds hF (r := (W.flatPTEs, allocpages (va2flatPte memsize) * 4)) (by simp [blocks])
      (show 0 < allocpages (va2flatPte memsize) * 4 by omega)
    dsimp only at hflat
    have halflat := hB.aligned.1
    obtain ⟨hadd, hframe⟩ := frameAt_entry (a := W.flatPTEs + (i - 768) * 4096) 31 (by omega)
      (by omega) (by omega) (by decide)
    rw [flatTable hflat.1 (by omega), hadd, hframe]
    exact Or.inr ⟨hkernel, range_subset (by omega) (by omega)⟩
  · rw [if_neg htable] at hpresent
    exact absurd hpresent hzero

end PagingWords.Built

/-! ## The kernel's view of memory -/

/-- **What `init_paging` leaves to the kernel**: a walk of `kernelPDE` sees physical memory behind
`PAGE_OFFSET`, but for one page, which has a frame of its own; and the directory refers to the tables
that are kept only, none of which is free. -/
theorem initPagingWords_view {W : PagingWords} (hw : h.WellFormed) (hlarge : 0x1000000 ≤ memsize)
    (hsmall : memsize < 2 ^ 32) (hok : initPagingWords memsize h = .ok (W, h')) :
    (∀ x < 2 ^ 32, translate h'.word (va2pa W.kernelPDE) x = kernelView memsize W.own x) ∧
    (range W.own (2 ^ 12) ⊆ h.freeSet ∧ Disjoint (range W.own (2 ^ 12)) h'.freeSet ∧
      Disjoint (range W.own (2 ^ 12)) (range W.flatPTEs (allocpages (va2flatPte memsize) * 4)) ∧
      Disjoint (range W.own (2 ^ 12)) (range W.kernelPage (2 ^ 12)) ∧
      Disjoint (range W.own (2 ^ 12)) (range W.kernelPDE (2 ^ 12))) ∧
    ∀ i < 1024, (h'.word (W.kernelPDE + 4 * i)).testBit 0 = true →
      (i = 768 ∧ frameAt (h'.word (W.kernelPDE + 4 * i)) = W.kernelPage ∨
        i ≠ 768 ∧ range (frameAt (h'.word (W.kernelPDE + 4 * i))) (2 ^ 12) ⊆
          range W.flatPTEs (allocpages (va2flatPte memsize) * 4)) ∧
      Disjoint (range (frameAt (h'.word (W.kernelPDE + 4 * i))) (2 ^ 12)) h'.freeSet := by
  have hR := wellFormed_iff_rep.mp hw
  have hB := initPagingWords_built hR hlarge hsmall hok
  have hfree : h'.freeSet = h.freeSet \ covered (W.blocks memsize) := hB.rep.wellFormed.2
  -- the blocks that are kept are no longer free
  have hkept : ∀ r ∈ W.blocks memsize, Disjoint (range r.1 r.2) h'.freeSet := by
    intro r hr
    rw [hfree]
    exact Set.disjoint_left.mpr fun x hx hin => hin.2 ⟨r, hr, hx⟩
  have hown : (W.own, 2 ^ 12) ∈ W.blocks memsize := by simp [PagingWords.blocks]
  have hapart := hB.apart
  unfold PagingWords.blocks at hapart
  simp only [List.pairwise_cons, List.forall_mem_cons] at hapart
  refine ⟨fun x hx => hB.translate_eq hR.inside hlarge hsmall hx, ⟨?_, hkept _ hown, ?_⟩, ?_⟩
  · exact fun x hx => hB.free ⟨_, hown, hx⟩
  · exact ⟨hapart.1.2.1.symm, hapart.2.1.1.symm, hapart.2.2.1.1⟩
  · intro i hi hpresent
    have hframe := hB.frame_subset hR.inside hlarge hsmall hi hpresent
    refine ⟨hframe, ?_⟩
    rcases hframe with ⟨-, heq⟩ | ⟨-, hsub⟩
    · rw [heq]
      exact hkept (W.kernelPage, 2 ^ 12) (by simp [PagingWords.blocks])
    · exact (hkept (W.flatPTEs, allocpages (va2flatPte memsize) * 4)
        (by simp [PagingWords.blocks])).mono_left hsub

theorem exists_paging : ∃ h W h', h.WellFormed ∧ initPagingWords 0x1400000 h = .ok (W, h') ∧
    W.flatPTEs = 0xC0400000 ∧ W.kernelPage = 0xC0405000 := by
  obtain ⟨h, hfree, hF⟩ := memoryFreeNocheck_spec
    (init_rep fun _ => 0) (show 4 ∣ 0xC0400000 by decide) (show 4 ∣ 0x800000 by decide)
    (fun x hx => ⟨le_trans (by decide) hx.1, lt_of_lt_of_le hx.2 (by decide)⟩)
    (Set.disjoint_empty _)
  obtain ⟨r, hrun, hat⟩ := map_eq_ok.mp (show (((init fun _ => 0).memoryFreeNocheck 0xC0400000 0x800000).bind
    (initPagingWords 0x1400000)).map (fun r => (r.1.flatPTEs, r.1.kernelPage)) =
      .ok (0xC0400000, 0xC0405000) by decide +kernel)
  obtain ⟨g, hg, hok⟩ := bind_eq_ok.mp hrun
  obtain rfl := Except.ok.inj (hg.symm.trans hfree)
  exact ⟨g, r.1, r.2, hF.rep.wellFormed.1, hok, (Prod.mk.inj hat).1, (Prod.mk.inj hat).2⟩

/-- Eight free megabytes, on a machine with 20 MB. -/
theorem initPagingWords_view_twenty : ∃ (h h' : Heap) (W : PagingWords), h.WellFormed ∧
    initPagingWords 0x1400000 h = .ok (W, h') ∧
    ∀ x < 2 ^ 32, translate h'.word (va2pa W.kernelPDE) x = kernelView 0x1400000 W.own x := by
  obtain ⟨h, W, h', hw, hok, -⟩ := exists_paging
  exact ⟨h, h', W, hw, hok, (initPagingWords_view hw (by decide) (by decide) hok).1⟩

/-- `kernel_page` lies in the part that was given back: the directory refers to it. -/
theorem not_apart_released : ¬ ∀ (memsize : Nat) (h h' : Heap) (W : PagingWords), h.WellFormed →
    0x1000000 ≤ memsize → memsize < 2 ^ 32 → initPagingWords memsize h = .ok (W, h') →
    ∀ i < 1024, (h'.word (W.kernelPDE + 4 * i)).testBit 0 = true →
      Disjoint (range (frameAt (h'.word (W.kernelPDE + 4 * i))) (2 ^ 12))
        (range (W.flatPTEs + allocpages (va2flatPte memsize) * 4)
          (2 ^ 22 - allocpages (va2flatPte memsize) * 4)) := by
  intro hall
  obtain ⟨h, W, h', hw, hok, hflat, hpage⟩ := exists_paging
  have hB := initPagingWords_built (wellFormed_iff_rep.mp hw) (by decide) (by decide) hok
  have hentry : h'.word (W.kernelPDE + 4 * 768) = 0x40501F := by
    rw [hB.directory 768 (by decide), hflat, hpage]
    decide
  have hd := hall _ h h' W hw (by decide) (by decide) hok 768 (by decide) (by rw [hentry]; decide)
  rw [hentry, hflat] at hd
  have hframe : 0xC0405000 ∈ range (frameAt 0x40501F) (2 ^ 12) := ⟨by decide, by decide⟩
  exact Set.disjoint_left.mp hd hframe ⟨by decide, by decide⟩

end NorlitOS
