import NorlitOS.Process.Layout

/-!
# Mapping a page

Specifications of the page functions against the ledger: a fresh frame is no table, a page given
back has one owner, and `open_physical_page` at an empty user entry writes exactly this entry,
with a new table in front of it where there was none.
-/

namespace NorlitOS

open Dyadic Ledger

namespace Kernel

variable {k k' : Kernel} {own : Owner → Option Nat} {phy : Prop} {pool pool' : Set Nat}
  {p q i j x f : Nat} {o : Owner}

/-- The ledger has the directories and tables of `k`. In the middle of a kernel entry it may
differ from `frameOf` elsewhere. -/
structure Agree (own : Owner → Option Nat) (k : Kernel) : Prop where
  dir : ∀ p, own (.pageDirectory p) = k.frameOf (.pageDirectory p)
  table : ∀ p i, own (.pageTable p i) = k.frameOf (.pageTable p i)

/-- The ledger of the state agrees with it. -/
theorem Agree.refl (k : Kernel) : Agree k.frameOf k := ⟨fun _ => rfl, fun _ _ => rfl⟩

theorem Agree.withHeap (h : Agree own k) (h' : Heap) : Agree own { k with heap := h' } :=
  ⟨h.dir, h.table⟩

theorem frameOf_pageDirectory (hp : p ∈ k.processTable) :
    k.frameOf (.pageDirectory p) = some (k.pd p) := if_pos hp

theorem frameOf_pageTable (hp : p ∈ k.processTable) (hi : i < USER_PDES) (h0 : k.pde p i ≠ 0) :
    k.frameOf (.pageTable p i) = some (frameAt (k.pde p i)) := if_pos ⟨hp, hi, h0⟩

theorem frameOf_pageTable_none (h0 : k.pde p i = 0) : k.frameOf (.pageTable p i) = none :=
  if_neg fun h => h.2.2 h0

/-- An entry of a table owns the frame it maps. -/
theorem frameOf_pte (hp : p ∈ k.processTable) (hi : i < USER_PDES) (hj : j < 1024) :
    k.frameOf (.pte p i j) = entryFrame (k.pte p i j) := if_pos ⟨hp, hi, hj⟩

/-- A free frame is no directory and no table. -/
theorem fresh_of_free (hO : Owned k.heap own pool) (hA : Agree own k)
    (hf : page f ⊆ k.heap.freeSet) : k.Fresh f where
  dir hp := by
    have ho := (hA.dir _).trans (frameOf_pageDirectory hp)
    exact (hO.ne_of_free ho hf).symm
  table hp hi h0 := by
    have ho := (hA.table _ _).trans (frameOf_pageTable hp hi h0)
    exact (hO.ne_of_free ho hf).symm

/-- The heap is no part of the layout. -/
theorem Layout.withHeap (hL : k.Layout phy pool) (h : Heap) : ({ k with heap := h } : Kernel).Layout phy pool :=
  ⟨hL.dirs, hL.dirIn, hL.cr3, hL.tableDir, hL.tables, hL.tableIn, hL.pdeOdd, hL.entry,
    hL.kernelHalf, fun hp ht => by
      obtain ⟨i, hw⟩ := hL.window hp ht
      exact ⟨i, hw.odd, hw.low, hw.high, hw.stacktop, hw.used⟩, hL.windowsApart⟩

/-- The pool may be taken smaller, as long as directories and tables stay in it. -/
theorem Layout.of_subset (hL : k.Layout phy pool) (hsub : pool' ⊆ pool)
    (hdir : ∀ {p}, p ∈ k.processTable → k.pd p ∈ pool')
    (htable : ∀ {p i}, p ∈ k.processTable → i < USER_PDES → k.pde p i ≠ 0 →
      frameAt (k.pde p i) ∈ pool') : k.Layout phy pool' :=
  ⟨hL.dirs, hdir, hL.cr3, hL.tableDir, hL.tables, htable, hL.pdeOdd, hL.entry,
    fun hp hi hi' h0 hin => hL.kernelHalf hp hi hi' h0 (hsub hin), hL.window, hL.windowsApart⟩

/-- A fresh frame may leave the pool. -/
theorem Layout.leak (hL : k.Layout phy pool) (hO : Owned k.heap own pool) (hA : Agree own k)
    (hf : page f ⊆ k.heap.freeSet) : k.Layout phy (pool \ page f) := by
  refine hL.of_subset Set.sdiff_subset (fun hp => ⟨hL.dirIn hp, fun hin => ?_⟩)
    fun hp hi h0 => ⟨hL.tableIn hp hi h0, fun hin => ?_⟩
  · exact hO.notMem_free ((hA.dir _).trans (frameOf_pageDirectory hp)) (hf hin)
  · exact hO.notMem_free ((hA.table _ _).trans (frameOf_pageTable hp hi h0)) (hf hin)

/-- A page that was free, which no one owns yet. -/
theorem allocPage_spec (hO : Owned k.heap own pool) :
    Yields k.allocPage fun r => ∃ f h', r = (f, { k with heap := h' }) ∧
      Owned.Allocated k.heap own pool f h' := by
  unfold allocPage
  refine hO.alloc.bind fun r hr => ?_
  exact ⟨r.1, r.2, rfl, hr⟩

/-- The same, by its physical address. -/
theorem allocPhysicalPage_spec (hO : Owned k.heap own pool) :
    Yields k.allocPhysicalPage fun r => ∃ f h', r = (va2pa f, { k with heap := h' }) ∧
      Owned.Allocated k.heap own pool f h' := by
  unfold allocPhysicalPage
  refine (allocPage_spec hO).bind fun r hr => ?_
  obtain ⟨f, h', rfl, hA⟩ := hr
  exact ⟨f, h', rfl, hA⟩

/-- A page with an owner can be given back, and has none then. -/
theorem freePage_spec (hO : Owned k.heap own pool) (ho : own o = some f) :
    ∃ h', k.freePage f = .ok { k with heap := h' } ∧ Owned h' (Function.update own o none) pool := by
  obtain ⟨h', hok, hO'⟩ := hO.free ho
  exact ⟨h', by rw [freePage, hok, ok_bind], hO'⟩

/-- Recycling what an entry maps. -/
theorem recyclePhysicalPage_spec (hO : Owned k.heap own pool) (ho : own o = some (frameAt x)) :
    ∃ h', k.recyclePhysicalPage (pageBase x) = .ok { k with heap := h' } ∧
      Owned h' (Function.update own o none) pool :=
  freePage_spec hO ho

/-! ## `open_physical_page`

A user address needs a page table in front of the entry. `ensureTable` makes one where the
directory has none; it is clear, so that the entry looked at next is empty. -/

/-- The table behind entry `i` of the directory of `p` is new: a free page, cleared. -/
structure NewTable (k : Kernel) (p i : Nat) (k' : Kernel) : Prop where
  empty : k.pde p i = 0
  free : page (frameAt (k'.pde p i)) ⊆ k.heap.freeSet
  freeSet : k'.heap.freeSet = k.heap.freeSet \ page (frameAt (k'.pde p i))
  clear : ∀ j, k'.table (frameAt (k'.pde p i)) j = 0

/-- There is a table behind entry `i` of the directory of `p`; it may be new. -/
structure Tabled (k : Kernel) (own : Owner → Option Nat) (phy : Prop) (pool : Set Nat) (p i : Nat)
    (k' : Kernel) : Prop where
  proc : k'.proc = k.proc
  thr : k'.thr = k.thr
  processTable : k'.processTable = k.processTable
  currentProc : k'.currentProc = k.currentProc
  currentThread : k'.currentThread = k.currentThread
  freeSet : k'.heap.freeSet ⊆ k.heap.freeSet
  layout : k'.Layout phy pool
  used : k'.pde p i ≠ 0
  pde : ∀ q ∈ k.processTable, ∀ a, ¬ (q = p ∧ a = i) → k'.pde q a = k.pde q a
  pte : ∀ q ∈ k.processTable, ∀ a < USER_PDES, ∀ b, k'.pte q a b = k.pte q a b
  half : SameHalf pool k k'
  new : k' = k ∨ NewTable k p i k'
  frames : k'.frameOf = Function.update k.frameOf (.pageTable p i) (some (frameAt (k'.pde p i)))
  owned : Owned k'.heap
    (Function.update own (.pageTable p i) (some (frameAt (k'.pde p i)))) pool

/-- The entry `(i, j)` of `p` has been set to `v`, behind a table that may be new. -/
structure Opened (k : Kernel) (own : Owner → Option Nat) (phy : Prop) (pool : Set Nat) (p i j v : Nat)
    (k' : Kernel) : Prop where
  proc : k'.proc = k.proc
  thr : k'.thr = k.thr
  processTable : k'.processTable = k.processTable
  currentProc : k'.currentProc = k.currentProc
  currentThread : k'.currentThread = k.currentThread
  freeSet : k'.heap.freeSet ⊆ k.heap.freeSet
  layout : k'.Layout phy pool
  used : k'.pde p i ≠ 0
  pde : ∀ q ∈ k.processTable, ∀ a, ¬ (q = p ∧ a = i) → k'.pde q a = k.pde q a
  pte : ∀ q ∈ k.processTable, ∀ a < USER_PDES, ∀ b,
    k'.pte q a b = if q = p ∧ a = i ∧ b = j then v else k.pte q a b
  half : SameHalf pool k k'
  frames : k'.frameOf = Function.update
    (Function.update k.frameOf (.pageTable p i) (some (frameAt (k'.pde p i))))
    (.pte p i j) (entryFrame v)
  owned : Owned k'.heap
    (Function.update own (.pageTable p i) (some (frameAt (k'.pde p i)))) pool

theorem va2pde_lt (x : Nat) : va2pde x < 1024 := by
  unfold va2pde
  omega

theorem va2pte_lt (x : Nat) : va2pte x < 1024 := by
  unfold va2pte
  omega

/-- The table behind a directory entry, made where there is none. -/
theorem ensureTable_spec (hL : k.Layout phy pool) (hO : Owned k.heap own pool) (hA : Agree own k)
    (hp : p ∈ k.processTable) (hi : i < USER_PDES) :
    Yields (k.ensureTable (k.pd p) i) (Tabled k own phy pool p i) := by
  unfold ensureTable
  by_cases h0 : k.table (k.pd p) i = 0
  · rw [if_pos h0]
    refine (allocPage_spec hO).bind fun r hr => ?_
    obtain ⟨s, h', rfl, hs⟩ := hr
    have hphys := hs.physical hO
    -- there is none: a fresh page is cleared and entered
    have hent : frameAt (va2pa s ||| 0b11111) = s := by
      rw [frameAt, pageBase_or hphys.1, hphys.2]
    have hodd := testBit_or hphys.1
    have hne := ne_zero_of_testBit hodd
    have hL₁ := hL.withHeap h'
    have hf : ({ k with heap := h' } : Kernel).Fresh s :=
      ⟨(fresh_of_free hO hA hs.free).dir, (fresh_of_free hO hA hs.free).table⟩
    have hin : s ∈ pool := hO.accounts.free_subset (hs.free (self_mem_page s))
    have hnone : own (.pageTable p i) = none := (hA.table p i).trans (frameOf_pageTable_none h0)
    set k₂ := (({ k with heap := h' } : Kernel).setPage s fun _ => 0).setWord
      (({ k with heap := h' } : Kernel).pd p) i (va2pa s ||| 0b11111) with hk₂
    have hpde : ∀ q ∈ k.processTable, ∀ a, k₂.pde q a =
        if q = p ∧ a = i then va2pa s ||| 0b11111 else k.pde q a :=
      fun q hq a => pde_newTable hL₁ hp hf hq a
    have hpi : k₂.pde p i = va2pa s ||| 0b11111 := by
      rw [hpde p hp i, if_pos ⟨rfl, rfl⟩]
    show Tabled k own phy pool p i k₂
    have hfree : h'.freeSet ⊆ k.heap.freeSet := hs.freeSet ▸ Set.sdiff_subset
    refine ⟨rfl, rfl, rfl, rfl, rfl, hfree,
      hL₁.newTable hp hi hf hne hent hin hodd (fun _ _ h => absurd rfl h),
      by rwa [hpi], fun q hq a hqa => by rw [hpde q hq a, if_neg hqa], fun q hq a ha b => ?_, ?_,
      Or.inr ⟨h0, ?_, ?_, fun b => ?_⟩, ?_, ?_⟩
    · refine (pte_newTable hL₁ hp hf hne hent hq ha b).trans ?_
      split
      · next h => rw [h.1, h.2, pte_of_no_pde h0]
      · rfl
    · have hpage : SameHalf pool k (({ k with heap := h' } : Kernel).setPage s fun _ => 0) :=
        (sameHalf_setPage hin fun _ hq => hf.dir hq).of_heap
      exact hpage.trans_of_eq (sameHalf_setWord (hL₁.dirIn hp) fun _ => hi) rfl
    · rw [hpi, hent]
      exact hs.free
    · rw [hpi, hent]
      exact hs.freeSet
    · rw [hpi, hent, hk₂, setWord_table, if_neg fun hc => hf.dir hp hc.1, setPage_table, if_pos rfl]
    · rw [hpi, hent]
      exact frameOf_newTable hL₁ hp hi h0 hf hne hent fun _ _ => rfl
    · rw [hpi, hent]
      exact hs.enter _ (fun _ => by simp) hnone
  · -- there is one, and it has its owner already
    have hown := frameOf_pageTable hp hi h0
    rw [if_neg h0]
    refine ⟨rfl, rfl, rfl, rfl, rfl, subset_rfl, hL, h0, fun _ _ _ _ => rfl, fun _ _ _ _ _ => rfl,
      SameHalf.refl k, Or.inl rfl, ?_, ?_⟩
    · rw [← hown, Function.update_eq_self]
    · rw [← hown, ← hA.table, Function.update_eq_self]
      exact hO

/-! ### Tables of the kernel half

Such a table is never freed. So its page leaves the pool for good, and the ledger has nothing to
say about it. -/

/-- The same in the kernel half: a new table leaves the pool. -/
structure KernelTabled (k : Kernel) (own : Owner → Option Nat) (phy : Prop) (pool : Set Nat)
    (p i : Nat) (k' : Kernel) (pool' : Set Nat) : Prop where
  proc : k'.proc = k.proc
  thr : k'.thr = k.thr
  processTable : k'.processTable = k.processTable
  currentProc : k'.currentProc = k.currentProc
  currentThread : k'.currentThread = k.currentThread
  inPool : pool' ⊆ pool
  layout : k'.Layout phy pool'
  used : k'.pde p i ≠ 0
  pde : ∀ q ∈ k.processTable, ∀ a, ¬ (q = p ∧ a = i) → k'.pde q a = k.pde q a
  pte : ∀ q ∈ k.processTable, ∀ a < USER_PDES, ∀ b, k'.pte q a b = k.pte q a b
  outside : ∀ g ∉ pool, k'.table g = k.table g
  new : k' = k ∨ NewTable k p i k'
  frames : k'.frameOf = k.frameOf
  owned : Owned k'.heap own pool'

/-- A table of the kernel half, new or not. -/
theorem kernelTable_spec (hL : k.Layout phy pool) (hO : Owned k.heap own pool) (hA : Agree own k)
    (hp : p ∈ k.processTable) (hi : USER_PDES ≤ i) :
    Yields (k.ensureTable (k.pd p) i) fun k' => ∃ pool', KernelTabled k own phy pool p i k' pool' := by
  unfold ensureTable
  by_cases h0 : k.table (k.pd p) i = 0
  · rw [if_pos h0]
    refine (allocPage_spec hO).bind fun r hr => ?_
    obtain ⟨s, h', rfl, hs⟩ := hr
    have hphys := hs.physical hO
    -- the page leaves the pool, since tables of the kernel half are never freed
    have hout : s ∉ pool \ page s := fun hin => hin.2 (self_mem_page s)
    have hin : s ∈ pool := hO.accounts.free_subset (hs.free (self_mem_page s))
    set k₁ : Kernel := { k with heap := h' } with hk₁
    have hL₁ : k₁.Layout phy (pool \ page s) := (hL.leak hO hA hs.free).withHeap h'
    have hf : k₁.Fresh s := hL₁.fresh_of_notMem hout
    have hL₂ : (k₁.setPage s fun _ => 0).Layout phy (pool \ page s) := hL₁.setPage_fresh hf
    have hent : frameAt (va2pa s ||| 0b11111) = s := by
      rw [frameAt, pageBase_or hphys.1, hphys.2]
    set k₃ := (k₁.setPage s fun _ => 0).setWord (k.pd p) i (va2pa s ||| 0b11111) with hk₃
    have hL₃ : k₃.Layout phy (pool \ page s) := hL₂.setKernelEntry hp hi fun _ => by
      rw [hent]
      exact hout
    have hset : k₃.pde p i = va2pa s ||| 0b11111 := pde_setWord.trans (if_pos ⟨rfl, rfl⟩)
    have hpde : ∀ q ∈ k.processTable, ∀ a, ¬ (q = p ∧ a = i) → k₃.pde q a = k.pde q a := by
      intro q hq a hqa
      refine (pde_newTable hL₁ hp hf hq a).trans ?_
      rw [if_neg hqa]
      rfl
    refine ⟨pool \ page s, rfl, rfl, rfl, rfl, rfl, Set.sdiff_subset, hL₃, ?_, hpde,
      fun q hq a ha b => (pte_setKernelEntry hL₂ hp hi hq ha b).trans (hf.pte_setPage hq ha b),
      fun g hg => ?_, Or.inr ⟨h0, ?_, ?_, fun b => ?_⟩,
      (frameOf_setKernelEntry hL₂ hp hi).trans hf.frameOf_setPage, hs.leak⟩
    · rw [hset]
      exact ne_zero_of_testBit (testBit_or hphys.1)
    · -- outside the pool there is neither the new page nor a directory
      have hgs : g ≠ s := fun h => hg (h ▸ hin)
      have hgd : g ≠ k.pd p := fun h => hg (h ▸ hL.dirIn hp)
      funext b
      rw [setWord_table, if_neg fun hc => hgd hc.1, setPage_table, if_neg hgs]
    · rw [hset, hent]
      exact hs.free
    · rw [hset, hent]
      exact hs.freeSet
    · rw [hset, hent, setWord_table, if_neg fun hc => hf.dir hp hc.1, setPage_table, if_pos rfl]
  · rw [if_neg h0]
    exact ⟨pool, rfl, rfl, rfl, rfl, rfl, subset_rfl, hL, h0, fun _ _ _ _ => rfl,
      fun _ _ _ _ _ => rfl, fun _ _ => rfl, Or.inl rfl, rfl, hO⟩

/-! ### An entry behind a table -/

/-- Setting an entry behind a table. -/
theorem Tabled.setEntry {k₁ : Kernel} {v : Nat} (h : Tabled k own phy pool p i k₁)
    (hp : p ∈ k.processTable) (hi : i < USER_PDES) (hj : j < 1024)
    (hv : v ≠ 0 → Entry phy v) :
    Opened k own phy pool p i j v (k₁.setWord (frameAt (k₁.pde p i)) j v) := by
  have hp₁ : p ∈ k₁.processTable := h.processTable ▸ hp
  -- the entry stands in a table of `p` alone
  have hself : ∀ q ∈ k.processTable, ∀ a,
      (k₁.setWord (frameAt (k₁.pde p i)) j v).pde q a = k₁.pde q a :=
    fun q hq a => pde_setEntry h.layout hp₁ hi h.used (h.processTable ▸ hq) a
  refine ⟨h.proc, h.thr, h.processTable, h.currentProc, h.currentThread, h.freeSet,
    h.layout.setEntry hp₁ hi h.used hv, ?_, ?_, ?_, ?_, ?_, ?_⟩
  · rw [hself p hp]
    exact h.used
  · intro q hq a hqa
    rw [hself q hq, h.pde q hq a hqa]
  · intro q hq a ha b
    rw [pte_setEntry h.layout hp₁ hi h.used (h.processTable ▸ hq) ha b, h.pte q hq a ha b]
  · exact h.half.trans_of_eq (h.layout.half_setEntry hp₁ hi h.used) h.processTable
  · rw [hself p hp, frameOf_setEntry h.layout hp₁ hi h.used hj, h.frames]
  · rw [hself p hp]
    exact h.owned

/-- **`open_physical_page`** at an empty entry of the user half. -/
theorem openPhysicalPage_spec {linearAddr flag : Nat} (hL : k.Layout phy pool)
    (hO : Owned k.heap own pool) (hA : Agree own k) (hp : p ∈ k.processTable)
    (hi : va2pde linearAddr < USER_PDES)
    (hz : k.pte p (va2pde linearAddr) (va2pte linearAddr) = 0)
    (hv : Entry phy (x ||| 0b11111 ||| flag)) :
    Yields (k.openPhysicalPage p x linearAddr flag) fun r => r.1 = 0 ∧
      Opened k own phy pool p (va2pde linearAddr) (va2pte linearAddr) (x ||| 0b11111 ||| flag) r.2 := by
  unfold openPhysicalPage
  refine (ensureTable_spec hL hO hA hp hi).bind fun k₁ h => ?_
  have hpd : pa2va (k.proc p).cr3 = k₁.pd p := by rw [pd, h.proc]
  have hz₁ : k₁.table (frameAt (k₁.pde p (va2pde linearAddr))) (va2pte linearAddr) = 0 := by
    rw [← pte_of_pde h.used, h.pte p hp _ hi, hz]
  rw [hpd]
  show Yields (if k₁.table (frameAt (k₁.pde p (va2pde linearAddr))) (va2pte linearAddr) ≠ 0 then
    .ok (0xFFFFFFFF, k₁) else .ok (0, k₁.setWord (frameAt (k₁.pde p (va2pde linearAddr)))
      (va2pte linearAddr) (x ||| 0b11111 ||| flag))) _
  rw [if_neg (not_not.mpr hz₁)]
  exact ⟨rfl, h.setEntry hp hi (va2pte_lt _) fun _ => hv⟩

/-- `open_physical_memory` for one page. -/
theorem openPhysicalMemory_one {linearAddr flag : Nat} (hL : k.Layout phy pool)
    (hO : Owned k.heap own pool) (hA : Agree own k) (hp : p ∈ k.processTable)
    (hi : va2pde linearAddr < USER_PDES)
    (hz : k.pte p (va2pde linearAddr) (va2pte linearAddr) = 0)
    (hv : Entry phy (x ||| 0b11111 ||| flag)) :
    Yields (k.openPhysicalMemory p x linearAddr 1 flag) fun r => r.1 = 0 ∧
      Opened k own phy pool p (va2pde linearAddr) (va2pte linearAddr) (x ||| 0b11111 ||| flag) r.2 := by
  unfold openPhysicalMemory
  refine (openPhysicalPage_spec hL hO hA hp hi hz hv).bind fun r hr => ?_
  obtain ⟨r, k₁⟩ := r
  obtain ⟨rfl, hr⟩ := hr
  exact ⟨rfl, hr⟩

/-! ## A fresh page behind an entry

An entry is overwritten with a page just allocated. What was behind it before is the caller's
concern. -/

/-- The entry `(i, j)` of `p`, which the ledger has without a page, has got the page `f`. -/
structure Replaced (k : Kernel) (own : Owner → Option Nat) (phy : Prop) (pool : Set Nat) (p i j f : Nat)
    (k' : Kernel) : Prop where
  proc : k'.proc = k.proc
  thr : k'.thr = k.thr
  processTable : k'.processTable = k.processTable
  currentProc : k'.currentProc = k.currentProc
  currentThread : k'.currentThread = k.currentThread
  free : page f ⊆ k.heap.freeSet
  physical : frameAt (va2pa f ||| 0b11111) = f
  layout : k'.Layout phy pool
  pde : ∀ q ∈ k.processTable, ∀ a, k'.pde q a = k.pde q a
  pte : ∀ q ∈ k.processTable, ∀ a < USER_PDES, ∀ b,
    k'.pte q a b = if q = p ∧ a = i ∧ b = j then va2pa f ||| 0b11111 else k.pte q a b
  half : SameHalf pool k k'
  frames : k'.frameOf = Function.update k.frameOf (.pte p i j) (some f)
  owned : Owned k'.heap (Function.update own (.pte p i j) (some f)) pool

/-- The entry owns the new page. -/
theorem Replaced.of_allocated {h' : Heap} (hf : Owned.Allocated k.heap own pool f h')
    (hL : k.Layout phy pool) (hO : Owned k.heap own pool) (hp : p ∈ k.processTable)
    (hi : i < USER_PDES) (hj : j < 1024) (h0 : k.pde p i ≠ 0) (hnone : own (.pte p i j) = none) :
    Replaced k own phy pool p i j f (({ k with heap := h' } : Kernel).setWord (frameAt (k.pde p i)) j
      (va2pa f ||| 0b11111)) := by
  have hphys := hf.physical hO
  have hL' := hL.withHeap h'
  refine ⟨rfl, rfl, rfl, rfl, rfl, hf.free, ?_, hL'.setEntry hp hi h0 fun _ => entry_or hphys.1,
    fun q hq a => pde_setEntry hL' hp hi h0 hq a, fun q hq a ha b => pte_setEntry hL' hp hi h0 hq ha b,
    (hL'.half_setEntry hp hi h0).of_heap, ?_, hf.enter _ (fun _ => by simp) hnone⟩
  · rw [frameAt, pageBase_or hphys.1, hphys.2]
  · refine (frameOf_setEntry hL' hp hi h0 hj).trans ?_
    rw [entryFrame_or hphys.1, hphys.2]
    rfl

end Kernel

end NorlitOS
