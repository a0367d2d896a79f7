import NorlitOS.Process.Bookkeeping
import NorlitOS.Process.MapLoop

/-!
# The calls that map memory, for every range

`SYSCALL_OPEN_PHYSICAL_MEMORY` and `SYSCALL_ALLOC_MEMORY` run the same loop. What a call of either
kind does is described by `MapCall`, for any address and any number of pages. Two consequences:

1. `SYSCALL_ALLOC_MEMORY` takes one page from the allocator however many it maps, so the pages are
   fresh exactly if it maps one;
2. a call that fails has changed nothing exactly if it failed at its first page.
-/

namespace NorlitOS

open Dyadic Ledger

namespace Kernel

variable {k k' k₁ k₂ k₃ : Kernel} {own : Owner → Option Nat} {pool : Set Nat}
  {p q i x f flag addr kernelPDE ip : Nat} {g : Heap} {r : Nat × Kernel} {regs : StackFrame}
  {es : List Event}

/-! ## One call -/

theorem entryAt_congr (ht : k'.table = k.table) (hp : k'.proc = k.proc) (addr : Nat) :
    k'.entryAt q addr = k.entryAt q addr := by
  unfold entryAt pte pde pd
  rw [ht, hp]

/-- The state in which the loop starts: the registers are saved and the heap is `g`. -/
def mapping (k : Kernel) (regs : StackFrame) (g : Heap) : Kernel := { k.save regs with heap := g }

theorem mapping_entryAt : (k.mapping regs g).entryAt q addr = k.entryAt q addr :=
  entryAt_congr rfl rfl addr

/-- A call that maps the pages at `x` to those at `cx`, with the result `r` of the loop. -/
structure MapCall (k : Kernel) (regs : StackFrame) (g : Heap) (x flag : Nat) (r : Nat × Kernel)
    (k' : Kernel) : Prop where
  loop : (k.mapping regs g).openPhysicalMemory k.currentProc x regs.cx regs.bx flag = .ok r
  table : k'.table = r.2.table
  proc : k'.proc = r.2.proc
  thr : k'.thr = (r.2.setAx r.2.currentThread r.1).thr
  processTable : k'.processTable = r.2.processTable

/-- `SYSCALL_OPEN_PHYSICAL_MEMORY`. -/
theorem step_openPhysicalMemory (hax : regs.ax = 4) (hok : k.step (.systemCall regs) = .ok k') :
    ∃ r, MapCall k regs k.heap regs.dx PAGE_TYPE_PHY r k' ∧ k'.heap = r.2.heap := by
  have hsys : (k.save regs).sysOpenPhysicalMemory regs.dx regs.cx regs.bx = .ok k' := by
    change (k.save regs).systemCall regs.ax regs.dx regs.cx regs.bx = .ok k' at hok
    rw [hax] at hok
    exact hok
  unfold sysOpenPhysicalMemory at hsys
  obtain ⟨r, hloop, hrest⟩ := bind_eq_ok.mp hsys
  have heq : r.2.setAx r.2.currentThread r.1 = k' := Except.ok.inj hrest
  exact ⟨r, ⟨hloop, heq ▸ rfl, heq ▸ rfl, heq ▸ rfl, heq ▸ rfl⟩, heq ▸ rfl⟩

/-- `SYSCALL_ALLOC_MEMORY`: the page `f` has been taken before, and a failing call gives it back. -/
theorem step_allocMemory (h : k.Inv True pool) (hax : regs.ax = 5)
    (hok : k.step (.systemCall regs) = .ok k') :
    ∃ f g r, Owned.Allocated k.heap k.frameOf pool f g ∧ MapCall k regs g (va2pa f) 0 r k' ∧
      (r.1 ≠ 0xFFFFFFFF → k'.heap = r.2.heap) ∧
      (r.1 = 0xFFFFFFFF → r.2.heap.memoryBlockFree f 12 = .ok k'.heap) := by
  have hsys : (k.save regs).sysAllocMemory regs.cx regs.bx = .ok k' := by
    change (k.save regs).systemCall regs.ax regs.dx regs.cx regs.bx = .ok k' at hok
    rw [hax] at hok
    exact hok
  unfold sysAllocMemory at hsys
  have hO : Owned (k.save regs).heap k.frameOf pool := h.owned
  obtain ⟨a, halloc, hrest⟩ := bind_eq_ok.mp hsys
  obtain ⟨f, g, rfl, hA⟩ := (allocPhysicalPage_spec hO).elim halloc
  have hphys := hA.physical hO
  obtain ⟨r, hloop, hrest⟩ := bind_eq_ok.mp hrest
  refine ⟨f, g, r, hA, ?_⟩
  change (if r.1 = 0xFFFFFFFF then (r.2.setAx r.2.currentThread r.1).recyclePhysicalPage (va2pa f)
    else .ok (r.2.setAx r.2.currentThread r.1)) = .ok k' at hrest
  -- the page goes back where the mapping fails
  split at hrest
  · next hr =>
    rw [recyclePhysicalPage, hphys.2, freePage] at hrest
    obtain ⟨h', hfree, hrest⟩ := bind_eq_ok.mp hrest
    have heq := Except.ok.inj hrest
    exact ⟨⟨hloop, heq ▸ rfl, heq ▸ rfl, heq ▸ rfl, heq ▸ rfl⟩, fun hne => absurd hr hne,
      fun _ => heq ▸ hfree⟩
  · next hr =>
    have heq := Except.ok.inj hrest
    exact ⟨⟨hloop, heq ▸ rfl, heq ▸ rfl, heq ▸ rfl, heq ▸ rfl⟩, fun _ => heq ▸ rfl,
      fun hc => absurd hc hr⟩

theorem mapping_layout (h : k.Inv True pool) : (k.mapping regs g).Layout True pool :=
  (h.save (r := regs)).layout.withHeap g

theorem mapping_agree (hA : Agree own k) : Agree own (k.mapping regs g) := by
  have hframes : (k.save regs).frameOf = k.frameOf := (sameButRegs_save regs).sameMaps.frameOf
  have hA' : Agree own (k.save regs) :=
    ⟨fun q => by rw [hframes]; exact hA.dir q, fun q a => by rw [hframes]; exact hA.table q a⟩
  exact hA'.withHeap g

section MapCall

variable (hM : MapCall k regs g x flag r k') (h : k.Inv True pool) (hO : Owned g own pool)
  (hA : Agree own k)

include hM

theorem MapCall.entryAt (addr : Nat) : k'.entryAt q addr = r.2.entryAt q addr :=
  entryAt_congr hM.table hM.proc addr

include h hO hA

/-- The loop fills empty entries. -/
theorem MapCall.extended :
    (∃ own' pool', Extended (k.mapping regs g) own pool k.currentProc r.2 own' pool') ∧
      (r.1 = 0 ∨ r.1 = 0xFFFFFFFF) ∧ (r.1 = 0 → ∀ i < regs.bx,
        k'.entryAt k.currentProc (nthPage regs.cx i) = nthPage x i ||| 0b11111 ||| flag) ∧
      (regs.bx ≠ 0 → k.entryAt k.currentProc regs.cx = 0 →
        k'.entryAt k.currentProc regs.cx ≠ 0) := by
  have hrun : k.currentProc ∈ (k.mapping regs g).processTable := h.threads.running
  obtain ⟨hE, hr, hall, hfirst⟩ := (openPhysicalMemory_extended (mapping_layout h) hO
    (mapping_agree hA) hrun).elim hM.loop
  refine ⟨hE, hr, fun h0 i hi => ?_, fun hn hz => ?_⟩
  · rw [hM.entryAt]
    exact hall h0 i hi
  · rw [hM.entryAt]
    exact hfirst hn (mapping_entryAt.trans hz)

/-- What the call returns. -/
theorem MapCall.ax : (k'.thr k.currentThread).regs.ax = r.1 := by
  obtain ⟨⟨own', pool', hE⟩, -⟩ := hM.extended h hO hA
  have hcur : r.2.currentThread = k.currentThread := hE.currentThread
  rw [hM.thr, hcur, setAx, modThr_thr_self]

/-- At a first page in use the loop ends at once. -/
theorem MapCall.of_used (hn : regs.bx ≠ 0) (hu : k.entryAt k.currentProc regs.cx ≠ 0) :
    r = (0xFFFFFFFF, k.mapping regs g) := by
  have hrun : k.currentProc ∈ (k.mapping regs g).processTable := h.threads.running
  have hloop := hM.loop
  obtain ⟨n, hbx⟩ := Nat.exists_eq_succ_of_ne_zero hn
  rw [hbx] at hloop
  refine (openPhysicalMemory_succ (Q := fun r => r = (0xFFFFFFFF, k.mapping regs g))
    (mapping_layout h) hO (mapping_agree hA) hrun (fun _ => rfl) fun _ _ _ hz _ _ _ => ?_).elim hloop
  exact absurd (mapping_entryAt.symm.trans hz) hu

/-- A call that fails maps at least one page. -/
theorem MapCall.bx_ne_zero (hret : (k'.thr k.currentThread).regs.ax = 0xFFFFFFFF) : regs.bx ≠ 0 := by
  intro h0
  have hloop := hM.loop
  rw [h0] at hloop
  have hr : (0, k.mapping regs g) = r := Except.ok.inj hloop
  rw [hM.ax h hO hA, ← hr] at hret
  exact absurd (show 0 = 0xFFFFFFFF from hret) (by decide)

end MapCall

/-- The page `SYSCALL_ALLOC_MEMORY` has taken is the kernel's own until the loop has run. -/
theorem inHand_owned (hf : Owned.Allocated k.heap k.frameOf pool f g) :
    Owned g (Function.update k.frameOf inHand (some f)) pool ∧
      Agree (Function.update k.frameOf inHand (some f)) k := by
  refine ⟨hf.enter inHand (fun _ => by simp [inHand]) frameOf_inHand, fun q => ?_, fun q a => ?_⟩
  · rw [Function.update_of_ne (by simp [inHand])]
  · rw [Function.update_of_ne (by simp [inHand])]

/-! ## Fresh pages -/

/-- The frame behind page `i` of a range of `p`. -/
def backing (k : Kernel) (p addr i : Nat) : Nat := frameAt (k.entryAt p (nthPage addr i))

/-- The `n` pages at `addr` have frames of their own, each free before and owned by its entry
alone now. -/
structure FreshPages (k k' : Kernel) (p addr n : Nat) : Prop where
  mapped : ∀ i < n, k'.entryAt p (nthPage addr i) ≠ 0
  distinct : ∀ i < n, ∀ j < n, k'.backing p addr i = k'.backing p addr j → i = j
  free : ∀ i < n, page (k'.backing p addr i) ⊆ k.heap.freeSet
  taken : ∀ i < n, Disjoint (page (k'.backing p addr i)) k'.heap.freeSet
  owner : ∀ i < n, ∀ o, k'.frameOf o = some (k'.backing p addr i) →
    o = .pte p (va2pde (nthPage addr i)) (va2pte (nthPage addr i))
  kernel : ∀ i < n, ∀ q ∈ k'.processTable, ∀ a, USER_PDES ≤ a → a < 1024 → k'.pde q a ≠ 0 →
    frameAt (k'.pde q a) ≠ k'.backing p addr i

/-- One page at a user address. -/
theorem freshPages_one (h : k.Inv True pool) (hax : regs.ax = 5) (hcx : regs.cx < PAGE_OFFSET)
    (hbx : regs.bx = 1) (hok : k.step (.systemCall regs) = .ok k')
    (hret : (k'.thr k.currentThread).regs.ax = 0) :
    FreshPages k k' k.currentProc regs.cx regs.bx := by
  obtain ⟨f, g, r, hf, hM, -⟩ := step_allocMemory h hax hok
  obtain ⟨hO, hA⟩ := inHand_owned hf
  obtain ⟨⟨own', pool', hE⟩, -, hall, -⟩ := hM.extended h hO hA
  have hphys := hf.physical h.owned
  have hi := va2pde_user hcx
  have hentry : k'.entryAt k.currentProc (nthPage regs.cx 0) = va2pa f ||| 0b11111 := by
    rw [hall ((hM.ax h hO hA).symm.trans hret) 0 (by omega), nthPage_zero, Nat.or_zero]
  have hback : k'.backing k.currentProc regs.cx 0 = f := by
    rw [backing, hentry, frameAt, pageBase_or hphys.1, hphys.2]
  have hInv : k'.Inv True pool := by
    have hsys : (k.save regs).sysAllocMemory regs.cx 1 = .ok k' := by
      change (k.save regs).systemCall regs.ax regs.dx regs.cx regs.bx = .ok k' at hok
      rw [hax, hbx] at hok
      exact hok
    exact (sysAllocMemory_user h.save hi).elim hsys
  have hrun : k.currentProc ∈ k'.processTable := by
    rw [hM.processTable]
    exact hE.mem h.threads.running
  have hown : k'.frameOf (.pte k.currentProc (va2pde (nthPage regs.cx 0))
      (va2pte (nthPage regs.cx 0))) = some f := by
    rw [frameOf_pte hrun (by rw [nthPage_zero]; exact hi) (va2pte_lt _)]
    show entryFrame (k'.entryAt _ _) = _
    rw [hentry, entryFrame_or hphys.1, hphys.2]
  -- there is only page 0
  have hone : ∀ {i}, i < regs.bx → i = 0 := fun hi => by omega
  constructor
  case mapped =>
    intro i hi
    rw [hone hi, hentry]
    exact ne_zero_of_testBit (testBit_or hphys.1)
  case distinct =>
    intro i hi j hj _
    rw [hone hi, hone hj]
  case free =>
    intro i hi
    rw [hone hi, hback]
    exact hf.free
  case taken =>
    intro i hi
    rw [hone hi, hback]
    exact hInv.owned.accounts.unfree hown
  case owner =>
    intro i hi o ho
    rw [hone hi, hback] at ho
    rw [hone hi]
    exact hInv.owned.owner_unique ho hown
  case kernel =>
    intro i hi q hq a ha ha' h0 heq
    rw [hone hi, hback] at heq
    refine hInv.layout.kernelHalf hq ha ha' h0 ?_
    rw [heq]
    exact hInv.owned.accounts.cell_subset hown (self_mem_page f)

/-- The second page of a larger range gets the frame behind the first one, which nobody has taken
from the allocator. -/
theorem not_freshPages (h : k.Inv True pool) (hax : regs.ax = 5) (hbx : 2 ≤ regs.bx)
    (hok : k.step (.systemCall regs) = .ok k') (hret : (k'.thr k.currentThread).regs.ax = 0) :
    ¬ FreshPages k k' k.currentProc regs.cx regs.bx := by
  intro hF
  obtain ⟨f, g, r, hf, hM, hheap, -⟩ := step_allocMemory h hax hok
  obtain ⟨hO, hA⟩ := inHand_owned hf
  obtain ⟨⟨own', pool', hE⟩, -, hall, -⟩ := hM.extended h hO hA
  have hr : r.1 = 0 := (hM.ax h hO hA).symm.trans hret
  have hphys := hf.physical h.owned
  obtain ⟨hlo, hhi⟩ := hf.mem_managed h.owned
  have hdvd : PAGE_SIZE ∣ add32 (va2pa f) PAGE_SIZE := by
    unfold va2pa sub32 add32
    unfold PAGE_OFFSET MAX_MAPPING at *
    have hal := hf.aligned
    unfold PAGE_SIZE at *
    omega
  have hnext : pa2va (add32 (va2pa f) PAGE_SIZE) = f + PAGE_SIZE := by
    unfold pa2va va2pa sub32 add32
    unfold PAGE_OFFSET MAX_MAPPING at *
    unfold PAGE_SIZE
    omega
  have hback : k'.backing k.currentProc regs.cx 1 = f + PAGE_SIZE := by
    rw [backing, hall hr 1 hbx, nthPage_succ, nthPage_zero, Nat.or_zero, frameAt, pageBase_or hdvd,
      hnext]
  have hfree := hF.free 1 hbx
  have htaken := hF.taken 1 hbx
  rw [hback] at hfree htaken
  -- it has left the free memory, so it is a table made in this call
  have hg : f + PAGE_SIZE ∈ g.freeSet := by
    rw [hf.freeSet]
    refine ⟨hfree (self_mem_page _), fun hin => ?_⟩
    have heq := eq_of_aligned_mem (k := 12) hf.aligned (Nat.dvd_add hf.aligned (Nat.dvd_refl PAGE_SIZE)) hin
    unfold PAGE_SIZE at heq
    omega
  have hgone : f + PAGE_SIZE ∉ r.2.heap.freeSet := by
    rw [← hheap (by rw [hr]; decide)]
    exact Set.disjoint_left.mp htaken (self_mem_page _)
  obtain ⟨a, ha, h0, hin⟩ := hE.tables _ hg hgone
  have hpde : k'.pde k.currentProc a = r.2.pde k.currentProc a := by
    unfold pde pd
    rw [hM.table, hM.proc]
  have htable : frameAt (k'.pde k.currentProc a) = f + PAGE_SIZE := by
    rw [hpde]
    exact (eq_of_aligned_mem (k := 12) (frameAt_dvd _) (Nat.dvd_add hf.aligned (Nat.dvd_refl PAGE_SIZE))
      hin).symm
  rw [← hpde] at h0
  have hrun : k.currentProc ∈ k'.processTable := by
    rw [hM.processTable]
    exact hE.mem h.threads.running
  rcases Nat.lt_or_ge a USER_PDES with hu | hu
  · have howner := hF.owner 1 hbx (.pageTable k.currentProc a)
      (by rw [frameOf_pageTable hrun hu h0, htable, hback])
    cases howner
  · exact hF.kernel 1 hbx _ hrun a hu ha h0 (by rw [htable, hback])

/-- **Fresh frames.** In every state that careful entries reach, a call of `SYSCALL_ALLOC_MEMORY`
that returns 0 has backed its range with fresh frames exactly if the range is one page. -/
theorem run_fresh_iff (hB : k.Boot kernelPDE) (hinit : k.initProc kernelPDE ip = .ok k₁)
    (hrun : Run EntersCarefully k₁ es k₂) (hax : regs.ax = 5) (hcx : regs.cx < PAGE_OFFSET)
    (hbx : 1 ≤ regs.bx) (hok : k₂.step (.systemCall regs) = .ok k₃)
    (hret : (k₃.thr k₂.currentThread).regs.ax = 0) :
    FreshPages k₂ k₃ k₂.currentProc regs.cx regs.bx ↔ regs.bx = 1 := by
  obtain ⟨pool, -, h⟩ := hB.run_inv hinit hrun
  constructor
  · intro hF
    by_contra hne
    exact not_freshPages h hax (by omega) hok hret hF
  · exact fun hone => freshPages_one h hax hcx hone hok hret

/-- A process takes one page. -/
theorem run_fresh_iff_one : ∃ k k₁ k₂ k₃ : Kernel, k.Boot 0 ∧ k.initProc 0 0 = .ok k₁ ∧
    Run EntersCarefully k₁ [.createProcess 0 0 100, call 6 0 0 0] k₂ ∧
      k₂.step (call 5 0 0x400000 1) = .ok k₃ ∧
        FreshPages k₂ k₃ k₂.currentProc 0x400000 1 := by
  obtain ⟨k, k₁, k₂, k₃, hB, hinit, hrun, hs, hret⟩ := run_of_booted_step (a := 0xC0400000)
    (n := 0x400000) (l := [.createProcess 0 0 100, call 6 0 0 0]) (e := call 5 0 0x400000 1)
    (P := fun k k' => (k'.thr k.currentThread).regs.ax = 0) (by decide +kernel)
  have hreach := run_of_plain (by simp [Plain, call, noRegs]) hrun
  exact ⟨k, k₁, k₂, k₃, hB, hinit, hreach, hs.2,
    (run_fresh_iff hB hinit hreach rfl (by decide) le_rfl hs.2 hret).mpr rfl⟩

/-- A process asks for two pages. -/
theorem not_run_fresh : ¬ ∀ (k k₁ k₂ k₃ : Kernel) (kernelPDE ip : Nat) (es : List Event)
    (regs : StackFrame), k.Boot kernelPDE → k.initProc kernelPDE ip = .ok k₁ → Run Enters k₁ es k₂ →
      regs.ax = 5 → regs.cx < PAGE_OFFSET → 1 ≤ regs.bx → k₂.step (.systemCall regs) = .ok k₃ →
        (k₃.thr k₂.currentThread).regs.ax = 0 →
          FreshPages k₂ k₃ k₂.currentProc regs.cx regs.bx := by
  intro hall
  obtain ⟨k, k₁, k₂, k₃, hB, hinit, hrun, hs, hret⟩ := run_of_booted_step (a := 0xC0400000)
    (n := 0x400000) (l := [.createProcess 0 0 100, call 6 0 0 0]) (e := call 5 0 0x400000 2)
    (P := fun k k' => (k'.thr k.currentThread).regs.ax = 0) (by decide +kernel)
  obtain ⟨pool, -, h⟩ := hB.run_inv hinit (run_of_plain (by simp [Plain, call, noRegs]) hrun)
  exact not_freshPages h rfl le_rfl hs.2 hret
    (hall k k₁ k₂ k₃ 0 0 _ _ hB hinit hrun rfl (by decide) (by decide) hs.2 hret)

/-! ## Calls that fail -/

/-- The running process sees what it saw before, and no page that is mapped has become free. -/
structure Atomic (k k' : Kernel) : Prop where
  translation : ∀ addr, k'.entryAt k.currentProc addr = k.entryAt k.currentProc addr
  mapped : ∀ q ∈ k'.processTable, ∀ addr, k'.entryAt q addr ≠ 0 →
    Disjoint (page (frameAt (k'.entryAt q addr))) (k'.heap.freeSet \ k.heap.freeSet)

/-- A call that fails at its first page. -/
theorem atomic_of_used (h : k.Inv True pool) (hax : regs.ax = 4 ∨ regs.ax = 5)
    (hok : k.step (.systemCall regs) = .ok k') (hret : (k'.thr k.currentThread).regs.ax = 0xFFFFFFFF)
    (hu : k.entryAt k.currentProc regs.cx ≠ 0) : Atomic k k' := by
  have same : ∀ {g x flag r}, MapCall k regs g x flag r k' → ∀ {own}, Owned g own pool →
      Agree own k → k'.heap.freeSet = k.heap.freeSet → Atomic k k' := by
    intro g x flag r hM own hO hA hfree
    have hr := hM.of_used h hO hA (hM.bx_ne_zero h hO hA hret) hu
    refine ⟨fun addr => ?_, fun q _ addr _ => ?_⟩
    · rw [hM.entryAt, hr]
      exact mapping_entryAt
    · rw [hfree, Set.sdiff_self]
      exact Set.disjoint_empty _
  rcases hax with h4 | h5
  · obtain ⟨r, hM, hheap⟩ := step_openPhysicalMemory h4 hok
    have hr := hM.of_used h h.owned (Agree.refl k) (hM.bx_ne_zero h h.owned (Agree.refl k) hret) hu
    refine same hM h.owned (Agree.refl k) ?_
    rw [hheap, hr]
    rfl
  · obtain ⟨f, g, r, hf, hM, -, hfail⟩ := step_allocMemory h h5 hok
    obtain ⟨hO, hA⟩ := inHand_owned hf
    have hr := hM.of_used h hO hA (hM.bx_ne_zero h hO hA hret) hu
    refine same hM hO hA ?_
    -- the page goes back
    have hback := hfail (by rw [hr])
    rw [hr] at hback
    obtain ⟨h', hok', hO'⟩ := hO.free (o := inHand) (Function.update_self _ _ _)
    obtain rfl := Except.ok.inj (hok'.symm.trans hback)
    rw [Function.update_idem, Function.update_eq_self_iff.mpr frameOf_inHand.symm] at hO'
    have hacc : Accounts page (without k.frameOf ∅) k'.heap.freeSet pool := by
      rw [without_empty]
      exact hO'.accounts
    rw [h.owned.accounts.free_of_without hacc]
    simp

/-- A call that has mapped its first page. -/
theorem not_atomic_of_mapped (h : k.Inv True pool) (hax : regs.ax = 4 ∨ regs.ax = 5)
    (hok : k.step (.systemCall regs) = .ok k') (hret : (k'.thr k.currentThread).regs.ax = 0xFFFFFFFF)
    (hz : k.entryAt k.currentProc regs.cx = 0) : ¬ Atomic k k' := by
  intro hat
  have key : ∀ {g x flag r}, MapCall k regs g x flag r k' → ∀ {own}, Owned g own pool →
      Agree own k → False := by
    intro g x flag r hM own hO hA
    obtain ⟨-, -, -, hfirst⟩ := hM.extended h hO hA
    exact hfirst (hM.bx_ne_zero h hO hA hret) hz ((hat.translation regs.cx).trans hz)
  rcases hax with h4 | h5
  · obtain ⟨r, hM, -⟩ := step_openPhysicalMemory h4 hok
    exact key hM h.owned (Agree.refl k)
  · obtain ⟨f, g, r, hf, hM, -⟩ := step_allocMemory h h5 hok
    obtain ⟨hO, hA⟩ := inHand_owned hf
    exact key hM hO hA

/-- **Mapping calls that fail.** In every state that careful entries reach, a call that returns
`-1` has left everything in place exactly if the first page of its range was in use. -/
theorem run_atomic_iff (hB : k.Boot kernelPDE) (hinit : k.initProc kernelPDE ip = .ok k₁)
    (hrun : Run EntersCarefully k₁ es k₂) (hax : regs.ax = 4 ∨ regs.ax = 5)
    (hok : k₂.step (.systemCall regs) = .ok k₃)
    (hret : (k₃.thr k₂.currentThread).regs.ax = 0xFFFFFFFF) :
    Atomic k₂ k₃ ↔ k₂.entryAt k₂.currentProc regs.cx ≠ 0 := by
  obtain ⟨pool, -, h⟩ := hB.run_inv hinit hrun
  constructor
  · exact fun hat hz => not_atomic_of_mapped h hax hok hret hz hat
  · exact atomic_of_used h hax hok hret

/-- A range whose first page is in use. -/
theorem run_atomic_iff_used : ∃ k k₁ k₂ k₃ : Kernel, k.Boot 0 ∧ k.initProc 0 0 = .ok k₁ ∧
    Run EntersCarefully k₁ [.createProcess 0 0 100, call 6 0 0 0, call 5 0 0x400000 1] k₂ ∧
      k₂.step (call 4 0xB8000 0x400000 2) = .ok k₃ ∧ Atomic k₂ k₃ := by
  obtain ⟨k, k₁, k₂, k₃, hB, hinit, hrun, hs, hret, hu⟩ := run_of_booted_step (a := 0xC0400000)
    (n := 0x400000) (l := [.createProcess 0 0 100, call 6 0 0 0, call 5 0 0x400000 1])
    (e := call 4 0xB8000 0x400000 2) (P := fun k k' => (k'.thr k.currentThread).regs.ax = 0xFFFFFFFF ∧
      k.entryAt k.currentProc 0x400000 ≠ 0) (by decide +kernel)
  have hreach := run_of_plain (by simp [Plain, call, noRegs]) hrun
  exact ⟨k, k₁, k₂, k₃, hB, hinit, hreach, hs.2, (run_atomic_iff hB hinit hreach (Or.inl rfl) hs.2
    hret).mpr hu⟩

/-- Two pages are asked for and the second one is in use: the first one stays mapped, to a page
that is free again. -/
theorem not_run_atomic : ¬ ∀ (k k₁ k₂ k₃ : Kernel) (kernelPDE ip : Nat) (es : List Event)
    (regs : StackFrame), k.Boot kernelPDE → k.initProc kernelPDE ip = .ok k₁ → Run Enters k₁ es k₂ →
      (regs.ax = 4 ∨ regs.ax = 5) → k₂.step (.systemCall regs) = .ok k₃ →
        (k₃.thr k₂.currentThread).regs.ax = 0xFFFFFFFF → Atomic k₂ k₃ := by
  intro hall
  obtain ⟨k, k₁, k₂, k₃, hB, hinit, hrun, hs, hret, hz⟩ := run_of_booted_step (a := 0xC0400000)
    (n := 0x400000) (l := [.createProcess 0 0 100, call 6 0 0 0, call 5 0 0x400000 1])
    (e := call 5 0 0x3FF000 2) (P := fun k k' => (k'.thr k.currentThread).regs.ax = 0xFFFFFFFF ∧
      k.entryAt k.currentProc 0x3FF000 = 0) (by decide +kernel)
  obtain ⟨pool, -, h⟩ := hB.run_inv hinit (run_of_plain (by simp [Plain, call, noRegs]) hrun)
  have hat := hall k k₁ k₂ k₃ 0 0 _ _ hB hinit hrun (Or.inr rfl) hs.2 hret
  exact not_atomic_of_mapped h (Or.inr rfl) hs.2 hret hz hat

end Kernel

end NorlitOS
