import NorlitOS.Process.Delivery
import NorlitOS.Process.Isolation

/-!
# The kernel does not write the pages of processes

The stores of the kernel through linear addresses go to directories, to page tables, and to pages
it has just taken from the allocator. So a frame that is in use and is no directory and no table,
a page of a process or a page on its way in a message, is the same after a kernel entry. An entry
that frees pages takes none behind them, with one exception: `SYSCALL_RECEIVE` unmaps a page first.
-/

namespace NorlitOS

open Dyadic Ledger Loop

namespace Kernel

variable {k k' k₁ k₂ : Kernel} {phy : Prop} {pool : Set Nat}
  {p q t i j f g a c n x addr flag v : Nat}
  {r : Nat × Kernel} {own : Owner → Option Nat} {keep : Nat → Bool} {regs : StackFrame}

/-- The frame `f` is in use, and it is no directory and no table. -/
structure InUse (k : Kernel) (f : Nat) : Prop extends k.Fresh f where
  used : f ∉ k.heap.freeSet

/-- No page has been freed, and the frame `f` is as it was. -/
structure Leaves (k : Kernel) (f : Nat) (k' : Kernel) : Prop where
  wellFormed : k'.heap.WellFormed
  freeSet : k'.heap.freeSet ⊆ k.heap.freeSet
  table : k'.table f = k.table f

theorem Leaves.refl (hw : k.heap.WellFormed) : Leaves k f k := ⟨hw, subset_rfl, rfl⟩

theorem Leaves.trans (h₁ : Leaves k f k₁) (h₂ : Leaves k₁ f k₂) : Leaves k f k₂ :=
  ⟨h₂.wellFormed, h₂.freeSet.trans h₁.freeSet, h₂.table.trans h₁.table⟩

/-- A store of a word is in one page only. -/
theorem setWord_table_of_ne (h : f ≠ g) : (k.setWord g i v).table f = k.table f := by
  funext b
  rw [setWord_table, if_neg fun hc => h hc.1]

theorem setPage_table_of_ne {row : Nat → Nat} (h : f ≠ g) :
    (k.setPage g row).table f = k.table f := by
  funext b
  rw [setPage_table, if_neg h]

/-- A store into another page leaves the frame as it was. -/
theorem Leaves.setWord (h : Leaves k f k') (hne : f ≠ g) : Leaves k f (k'.setWord g i v) :=
  ⟨h.wellFormed, h.freeSet, (setWord_table_of_ne hne).trans h.table⟩

theorem Leaves.setPage {row : Nat → Nat} (h : Leaves k f k') (hne : f ≠ g) :
    Leaves k f (k'.setPage g row) :=
  ⟨h.wellFormed, h.freeSet, (setPage_table_of_ne hne).trans h.table⟩

/-- Stores into records. -/
theorem Leaves.of_eq (h : Leaves k f k₁) (hh : k'.heap = k₁.heap) (ht : k'.table = k₁.table) :
    Leaves k f k' :=
  ⟨hh ▸ h.wellFormed, hh ▸ h.freeSet, ht ▸ h.table⟩

/-- The directories and tables are the same pages as before. -/
theorem Fresh.of_sameSpaces (hf : k.Fresh f) (hS : SameSpaces k k') (ht : k'.table = k.table) :
    k'.Fresh f where
  dir {p} hp := by
    rw [hS.pd]
    exact hf.dir (hS.processTable ▸ hp)
  table {p i} hp hi h0 := by
    rw [pde_of_sameSpaces hS ht] at h0 ⊢
    exact hf.table (hS.processTable ▸ hp) hi h0

/-- So they are where no translation has changed. -/
theorem SameMaps.fresh (hS : SameMaps k k') (hf : k.Fresh f) : k'.Fresh f :=
  hf.of_sameSpaces hS.toSameSpaces hS.table

/-- A frame that belongs to somebody, and not as a directory or a table. -/
theorem Inv.inUse {o : Owner} (h : k.Inv phy pool) (ho : k.frameOf o = some f)
    (hdir : ∀ p, o ≠ .pageDirectory p) (htable : ∀ p i, o ≠ .pageTable p i) : k.InUse f where
  dir {p} hp hc := hdir p (h.owned.owner_unique ho (hc ▸ frameOf_pageDirectory hp))
  table {p i} hp hi h0 hc :=
    htable p i (h.owned.owner_unique ho (hc ▸ frameOf_pageTable hp hi h0))
  used := h.owned.notMem_free ho

/-! ## Taking pages

A page that the allocator returns was free before, so it is not the frame in use. What the kernel
writes into it, a new table, a new directory or zeroes, does not reach that frame. -/

/-- A page taken from the allocator. -/
structure PageTaken (h : Heap) (a : Nat) (h' : Heap) : Prop where
  wellFormed : h'.WellFormed
  freeSet : h'.freeSet ⊆ h.freeSet
  free : a ∈ h.freeSet
  physical : frameAt (va2pa a) = a
  entry : frameAt (va2pa a ||| 0b11111) = a

/-- `memoryAlloc` of a page, which is aligned and in the kernel half. -/
theorem pageTaken_of_alloc {h h' : Heap} (hw : h.WellFormed)
    (hok : h.memoryAlloc 12 = .ok (a, h')) : PageTaken h a h' := by
  have hrep := Heap.wellFormed_iff_rep.mp hw
  rcases @Heap.memoryAlloc_spec h _ 12 hrep (by decide) (by decide) with
    ⟨b, g, hok', hdvd, hT⟩ | ⟨herr, -⟩
  · obtain ⟨rfl, rfl⟩ := Prod.mk.inj (Except.ok.inj (hok.symm.trans hok'))
    obtain ⟨hw', hfree⟩ := hT.rep.wellFormed
    have hmem : a ∈ h.freeSet := hT.free (self_mem_block 12 a)
    have hphys := va2pa_managed hdvd (hrep.inside hmem)
    refine ⟨hw', ?_, hmem, frameAt_va2pa hphys, ?_⟩
    · rw [show h'.freeSet = _ from hfree]
      exact Set.sdiff_subset
    · rw [frameAt_or hphys.1, hphys.2]
  · exact absurd (hok.symm.trans herr) (by simp)

/-- `allocPage` changes the allocator only. -/
theorem allocPage_taken (hw : k.heap.WellFormed) (hok : k.allocPage = .ok r) :
    ∃ h', r.2 = { k with heap := h' } ∧ PageTaken k.heap r.1 h' := by
  obtain ⟨⟨b, h'⟩, halloc, hr⟩ := bind_eq_ok.mp hok
  obtain rfl := Except.ok.inj hr
  exact ⟨h', rfl, pageTaken_of_alloc hw halloc⟩

/-- `allocPhysicalPage` returns the physical address of the page. -/
theorem allocPhysicalPage_taken (hw : k.heap.WellFormed) (hok : k.allocPhysicalPage = .ok r) :
    ∃ a h', r = (va2pa a, { k with heap := h' }) ∧ PageTaken k.heap a h' := by
  obtain ⟨⟨a, k₁⟩, halloc, hr⟩ := bind_eq_ok.mp hok
  obtain ⟨h', rfl, hT⟩ := allocPage_taken hw halloc
  exact ⟨a, h', (Except.ok.inj hr).symm, hT⟩

/-- A frame in use is not the one that is taken. -/
theorem PageTaken.ne {h h' : Heap} (hT : PageTaken h a h') (hf : f ∉ h.freeSet) : f ≠ a := by
  rintro rfl
  exact hf hT.free

theorem PageTaken.leaves {h' : Heap} (hT : PageTaken k.heap a h') :
    Leaves k f { k with heap := h' } := ⟨hT.wellFormed, hT.freeSet, rfl⟩

/-- A table that is made is a page that was free. -/
theorem ensureTable_leaves (hw : k.heap.WellFormed) (hok : k.ensureTable c i = .ok k')
    (hc : f ≠ c) (hf : f ∉ k.heap.freeSet) : Leaves k f k' ∧ k'.proc = k.proc ∧
      (k' = k ∧ k.table c i ≠ 0 ∨ frameAt (k'.table c i) ∈ k.heap.freeSet) := by
  unfold ensureTable at hok
  split at hok
  · obtain ⟨⟨a, k₁⟩, halloc, hr⟩ := bind_eq_ok.mp hok
    obtain ⟨h', rfl, hT⟩ := allocPage_taken hw halloc
    obtain rfl := Except.ok.inj hr
    refine ⟨(hT.leaves.setPage (hT.ne hf)).setWord hc, rfl, Or.inr ?_⟩
    rw [setWord_table, if_pos ⟨rfl, rfl⟩, hT.entry]
    exact hT.free
  · next h0 =>
    obtain rfl := Except.ok.inj hok
    exact ⟨Leaves.refl hw, rfl, Or.inl ⟨rfl, h0⟩⟩

/-- One page mapped in `p`: the directory is written, and a table. -/
theorem openPhysicalPage_leaves (hw : k.heap.WellFormed)
    (hok : k.openPhysicalPage p x addr flag = .ok r) (hd : f ≠ k.pd p)
    (ht : k.pde p (va2pde addr) ≠ 0 → f ≠ frameAt (k.pde p (va2pde addr)))
    (hf : f ∉ k.heap.freeSet) : Leaves k f r.2 := by
  obtain ⟨k₁, htable, hr⟩ := bind_eq_ok.mp hok
  change k.ensureTable (k.pd p) (va2pde addr) = .ok k₁ at htable
  obtain ⟨hL, -, hor⟩ := ensureTable_leaves hw htable hd hf
  have hne : f ≠ frameAt (k₁.table (k.pd p) (va2pde addr)) := by
    -- an old table is not `f`, and a new one was free
    rcases hor with ⟨heq, h0⟩ | hnew
    · rw [heq]
      exact ht h0
    · intro hc
      rw [← hc] at hnew
      exact hf hnew
  change (if k₁.table (frameAt (k₁.table (k.pd p) (va2pde addr))) (va2pte addr) ≠ 0 then
    .ok (0xFFFFFFFF, k₁) else .ok (0, k₁.setWord (frameAt (k₁.table (k.pd p) (va2pde addr)))
      (va2pte addr) (x ||| 0b11111 ||| flag))) = Except.ok r at hr
  split at hr
  · obtain rfl := Except.ok.inj hr
    exact hL
  · obtain rfl := Except.ok.inj hr
    exact hL.setWord hne

/-- Mapping one page may make a table; besides that it writes one entry. -/
theorem openPhysicalMemory_leaves (hw : k.heap.WellFormed) (hU : k.InUse f)
    (hok : k.openPhysicalMemory p x addr 1 flag = .ok r) (hp : p ∈ k.processTable)
    (ha : va2pde addr < USER_PDES) : Leaves k f r.2 := by
  obtain ⟨⟨s, k₁⟩, hopen, hr⟩ := bind_eq_ok.mp hok
  have hL := openPhysicalPage_leaves hw hopen (hU.dir hp) (hU.table hp ha) hU.used
  change (if s = 0xFFFFFFFF then .ok (0xFFFFFFFF, k₁) else .ok (0, k₁)) = Except.ok r at hr
  split at hr
  · obtain rfl := Except.ok.inj hr
    exact hL
  · obtain rfl := Except.ok.inj hr
    exact hL

/-! ## Messages

`SYSCALL_SEND` moves a page from one process to another by its entries. The page itself is not
written, except that an interrupt brings a page of its own, which is new. -/

/-- A frame in use still is where no translation has changed. -/
theorem InUse.of_sameMaps (hU : k.InUse f) (hS : SameMaps k k') : k'.InUse f :=
  ⟨hS.fresh hU.toFresh, hS.heap ▸ hU.used⟩

theorem InUse.taken {h' : Heap} (hU : k.InUse f) (hT : PageTaken k.heap a h') :
    ({ k with heap := h' } : Kernel).InUse f :=
  ⟨⟨hU.dir, hU.table⟩, fun hf => hU.used (hT.freeSet hf)⟩

/-- The page handed to a blocked thread is mapped where the thread waits. -/
theorem handOver_leaves {h' : Heap} (h : k.Inv phy pool) (hU : k.InUse f)
    (hp : p ∈ k.processTable) (ht : t ∈ (k.proc p).thread) (hf : (k.thr t).flag = 2)
    (hw : h'.WellFormed) (hfree : h'.freeSet ⊆ k.heap.freeSet) {source : Nat}
    (hok : ({ k.answering p t source with heap := h' } : Kernel).openPhysicalMemory p x
      (k.thr t).regs.cx 1 0 = .ok r) : Leaves k f r.2 := by
  have hB := (h.procOk hp).blocked t ht hf
  have hS : SameMaps k (k.answering p t source) := sameMaps_answering
  have hU' : ({ k.answering p t source with heap := h' } : Kernel).InUse f :=
    ⟨⟨(hS.fresh hU.toFresh).dir, (hS.fresh hU.toFresh).table⟩, fun hc => hU.used (hfree hc)⟩
  have hL := openPhysicalMemory_leaves hw hU' hok (hS.processTable.symm ▸ hp) (va2pde_user hB.user)
  exact ⟨hL.wellFormed, hL.freeSet.trans hfree, hL.table.trans (congrFun hS.table f)⟩

/-- **`sendInterrupt`.** -/
theorem sendInterrupt_table (h : k.Inv phy pool) (hp : p ∈ k.processTable) (hU : k.InUse f)
    (hok : k.sendInterrupt p = .ok k') : k'.table f = k.table f := by
  have hw := h.owned.wellFormed
  unfold sendInterrupt at hok
  -- a thread waits for it, or the message is queued if there is room
  by_cases hr : (k.proc p).receiving ≠ 0
  · rw [if_pos hr] at hok
    obtain ⟨t, ht, hfound, hf⟩ := (h.procOk hp).findBlocked hr
    have hscan : Kernel.findBlocked k.thr none
        ((k.modProc p fun P => { P with receiving := sub32 P.receiving 1 }).proc p).thread =
          .ok t := by
      rw [modProc_proc_self]
      exact hfound
    simp only [modProc_thr, hscan, ok_bind] at hok
    obtain ⟨r, halloc, hrest⟩ := bind_eq_ok.mp hok
    obtain ⟨a, h', rfl, hT⟩ := allocPhysicalPage_taken (k := k.answering p t 0xFFFFFFFF) hw halloc
    obtain ⟨r, hopen, hlast⟩ := bind_eq_ok.mp hrest
    have hcx : ((k.answering p t 0xFFFFFFFF).thr t).regs.cx = (k.thr t).regs.cx := answering_cx t
    simp only [hcx] at hopen
    obtain rfl := Except.ok.inj hlast
    exact (congrFun sameMaps_threadAwake.table f).trans
      (handOver_leaves h hU hp ht hf hT.wellFormed hT.freeSet hopen).table
  · rw [if_neg hr] at hok
    by_cases hc : (k.proc p).msgCount < MAX_MESSAGE_COUNT
    · rw [if_pos hc] at hok
      obtain ⟨r, halloc, hrest⟩ := bind_eq_ok.mp hok
      obtain ⟨a, h', rfl, -⟩ := allocPhysicalPage_taken hw halloc
      obtain rfl := Except.ok.inj hrest
      rfl
    · rw [if_neg hc] at hok
      obtain rfl := Except.ok.inj hok
      rfl

/-- **`SYSCALL_SEND`** to an existing process: the entry that is refilled is one of a table. -/
theorem sendTo_table {source b : Nat} (h : k.Inv phy pool) (hp : p ∈ k.processTable)
    (hs : k.Sendable a b) (hU : k.InUse f)
    (hok : k.sendTo p source (frameAt (k.pde k.currentProc a)) b = .ok k') :
    k'.table f = k.table f := by
  have hw := h.owned.wellFormed
  have hne := hU.table h.threads.running hs.user hs.table
  unfold sendTo at hok
  -- handed to a thread that waits, or queued, or refused
  by_cases hr : (k.proc p).receiving ≠ 0
  · rw [if_pos hr] at hok
    obtain ⟨t, ht, hfound, hf⟩ := (h.procOk hp).findBlocked hr
    have hscan : Kernel.findBlocked k.thr none
        ((k.modProc p fun P => { P with receiving := sub32 P.receiving 1 }).proc p).thread =
          .ok t := by
      rw [modProc_proc_self]
      exact hfound
    simp only [modProc_thr, hscan, ok_bind] at hok
    obtain ⟨r, hopen, hrest⟩ := bind_eq_ok.mp hok
    have hcx : ((k.answering p t source).thr t).regs.cx = (k.thr t).regs.cx := answering_cx t
    change (k.answering p t source).openPhysicalMemory p _ ((k.answering p t source).thr t).regs.cx
      1 0 = .ok r at hopen
    rw [hcx] at hopen
    have hL := handOver_leaves h hU hp ht hf hw subset_rfl hopen
    obtain ⟨r', halloc, hlast⟩ := bind_eq_ok.mp hrest
    obtain ⟨g, h', rfl, -⟩ := allocPhysicalPage_taken hL.wellFormed halloc
    obtain rfl := Except.ok.inj hlast
    refine (congrFun sameMaps_setAx.table f).trans ?_
    refine (congrFun sameMaps_threadAwake.table f).trans ?_
    exact (setWord_table_of_ne hne).trans hL.table
  · rw [if_neg hr] at hok
    by_cases hc : (k.proc p).msgCount < MAX_MESSAGE_COUNT
    · rw [if_pos hc] at hok
      obtain ⟨r, halloc, hrest⟩ := bind_eq_ok.mp hok
      obtain ⟨g, h', rfl, -⟩ := allocPhysicalPage_taken hw halloc
      obtain rfl := Except.ok.inj hrest
      show (({ k with heap := h' } : Kernel).setWord (frameAt (k.pde k.currentProc a)) b
        (va2pa g ||| 0b11111)).table f = k.table f
      exact setWord_table_of_ne hne
    · rw [if_neg hc] at hok
      obtain rfl := Except.ok.inj hok
      rfl

/-- The frame is as it was behind `SYSCALL_SEND`, whatever the call returns. -/
theorem sysSend_table {edx ecx ebx : Nat} (h : k.Inv phy pool) (hU : k.InUse f)
    (hok : k.sysSend edx ecx ebx = .ok k') : k'.table f = k.table f := by
  unfold sysSend at hok
  rw [frameAt_cr3 h.layout h.threads.running] at hok
  change (if _ then _ else _) = _ at hok
  split at hok
  · next hc =>
    obtain ⟨hlt, -, hpde, hpte, hphy⟩ := hc
    have h0 : k.pde k.currentProc (va2pde ecx) ≠ 0 := ne_zero_of_testBit hpde
    have hs : k.Sendable (va2pde ecx) (va2pte ecx) :=
      ⟨va2pde_user hlt, va2pte_lt ecx, h0, by rw [pte_of_pde h0]; exact hpte,
        by rw [pte_of_pde h0]; exact hphy⟩
    -- no receiver, or a message of it
    cases hfound : k.getProcessById edx with
    | none =>
      rw [hfound] at hok
      obtain rfl := Except.ok.inj hok
      rfl
    | some p =>
      rw [hfound] at hok
      exact sendTo_table h (getProcessById_mem hfound) hs hU hok
  · obtain rfl := Except.ok.inj hok
    rfl

/-! ## The scheduler and `SYSCALL_RECEIVE`

The scheduler writes the entry of the processor's own page into the directory of the next process.
`SYSCALL_RECEIVE` first unmaps a page that is in the way: the frame behind that one entry is given
back and may be anything afterwards. -/

/-- The entry of the processor's own page is written. -/
theorem Scheduled.table_of (hS : Scheduled k flag k') (hd : ∀ q ∈ k.processTable, f ≠ k.pd q) :
    k'.table f = k.table f := by
  rw [hS.table]
  exact setWord_table_of_ne (hd _ hS.next)

/-- What `SYSCALL_RECEIVE` does when nothing is mapped at the address. -/
theorem receiveAt_table (h : k.Inv phy pool) (hU : k.InUse f) (ha : va2pde addr < USER_PDES)
    (hok : k.receiveAt addr = .ok k') : k'.table f = k.table f := by
  unfold receiveAt at hok
  by_cases hc : (k.proc k.currentProc).msgCount = 0
  · rw [if_pos hc] at hok
    obtain ⟨k₁, hsleep, hlast⟩ := bind_eq_ok.mp hok
    obtain ⟨c, hS⟩ := (threadSleep_spec h).elim hsleep
    obtain rfl := Except.ok.inj hlast
    have hA := sameMaps_asleep (k := k) (c := c)
    -- `f` is no directory of any process
    have hd : ∀ q ∈ (k.asleep c).processTable, f ≠ (k.asleep c).pd q := by
      intro q hq
      rw [hA.pd]
      exact hU.dir hq
    exact (hS.table_of hd).trans (congrFun hA.table f)
  · rw [if_neg hc] at hok
    obtain ⟨r, hopen, hlast⟩ := bind_eq_ok.mp hok
    have hfresh := hU.toFresh.of_sameSpaces (dequeue_sameSpaces (p := k.currentProc)) rfl
    have hL := openPhysicalMemory_leaves (k := k.dequeue k.currentProc) h.owned.wellFormed
      ⟨hfresh, hU.used⟩ hopen h.threads.running ha
    obtain rfl := Except.ok.inj hlast
    exact (congrFun sameMaps_setAx.table f).trans hL.table

/-- **`SYSCALL_RECEIVE`.** The page that was mapped at the address is free when another one is
taken for a table. -/
theorem sysReceive_table {o : Owner} (h : k.Inv phy pool) (ho : k.frameOf o = some f)
    (hdir : ∀ p, o ≠ .pageDirectory p) (htable : ∀ p i, o ≠ .pageTable p i)
    (hne : o ≠ .pte k.currentProc (va2pde addr) (va2pte addr))
    (hok : k.sysReceive addr = .ok k') : k'.table f = k.table f := by
  have hrun := h.threads.running
  have hU := h.inUse ho hdir htable
  unfold sysReceive at hok
  rw [frameAt_cr3 h.layout hrun] at hok
  simp only [show ∀ i, k.table (k.pd k.currentProc) i = k.pde k.currentProc i from fun _ => rfl]
    at hok
  by_cases hc : addr < PAGE_OFFSET ∧ addr % PAGE_SIZE = 0
  · rw [if_pos hc] at hok
    have hi := va2pde_user hc.1
    -- a page is in the way, or there is none
    by_cases hpres : (k.pde k.currentProc (va2pde addr)).testBit 0 = true ∧
        (k.table (frameAt (k.pde k.currentProc (va2pde addr))) (va2pte addr)).testBit 0 = true
    · rw [if_pos hpres] at hok
      have h0 := ne_zero_of_testBit hpres.1
      have hodd := hpres.2
      rw [← pte_of_pde (j := va2pte addr) h0] at hodd hok
      by_cases hphy : isPhy (k.pte k.currentProc (va2pde addr) (va2pte addr)) = true
      · rw [if_pos hphy] at hok
        obtain rfl := Except.ok.inj hok
        rfl
      · rw [if_neg hphy] at hok
        rw [Bool.not_eq_true] at hphy
        have hj := va2pte_lt addr
        obtain ⟨h', hfree, hkeep, hUn⟩ := unmap_spec h hc.1 h0 (ne_zero_of_testBit hodd) hphy
        rw [hfree, ok_bind] at hok
        set k₁ := ({ k with heap := h' } : Kernel).setWord
          (frameAt (k.pde k.currentProc (va2pde addr))) (va2pte addr) 0 with hk₁
        -- the frame keeps its owner
        have ho₁ : k₁.frameOf o = some f := by
          have hframes := frameOf_setEntry (v := 0) (h.layout.withHeap h') hrun hi h0 hj
          refine (congrFun hframes o).trans ?_
          rw [Function.update_of_ne hne]
          exact ho
        have hlast := receiveAt_table hkeep.inv (hkeep.inv.inUse ho₁ hdir htable) hi hok
        exact hlast.trans (setWord_table_of_ne (hU.table hrun hi h0))
    · rw [if_neg hpres] at hok
      exact receiveAt_table h hU hi hok
  · rw [if_neg hc] at hok
    obtain rfl := Except.ok.inj hok
    rfl

/-! ## Threads and processes

Everything a new thread or a new process gets is in pages that were free: its stack, its
directory, its records. -/

/-- The table of a new stack is a new page, and it is named in the directory. -/
theorem allocThreadStack_leaves (hw : k.heap.WellFormed) (hok : k.allocThreadStack p = .ok r)
    (hd : f ≠ frameAt (k.proc p).cr3) (hf : f ∉ k.heap.freeSet) : Leaves k f r.2 := by
  unfold allocThreadStack at hok
  dsimp only at hok
  split at hok
  · obtain ⟨⟨s, k₁⟩, halloc, hrest⟩ := bind_eq_ok.mp hok
    obtain ⟨h₁, rfl, hT⟩ := allocPage_taken hw halloc
    obtain ⟨r', halloc', hlast⟩ := bind_eq_ok.mp hrest
    obtain ⟨g, h₂, rfl, hT'⟩ := allocPhysicalPage_taken
      (k := ({ k with heap := h₁ } : Kernel).setPage s _) hT.wellFormed halloc'
    obtain rfl := Except.ok.inj hlast
    have hL : Leaves k f { ({ k with heap := h₁ } : Kernel).setPage s fun i =>
        if i < 1023 then 0 else k.table s i with heap := h₂ } :=
      (hT.leaves.setPage (hT.ne hf)).trans hT'.leaves
    exact (hL.setWord (hT.ne hf)).setWord hd
  · obtain rfl := Except.ok.inj hok
    exact Leaves.refl hw

/-- The record of the thread is in a new page too. -/
theorem createThread_leaves {ip : Nat} (hw : k.heap.WellFormed)
    (hok : k.createThread p ip = .ok r) (hd : f ≠ frameAt (k.proc p).cr3)
    (hf : f ∉ k.heap.freeSet) : Leaves k f r.2 := by
  obtain ⟨⟨sp, k₁⟩, hstack, hrest⟩ := bind_eq_ok.mp hok
  have hL := allocThreadStack_leaves hw hstack hd hf
  change (if sp = 0 then _ else _) = Except.ok r at hrest
  split at hrest
  · obtain rfl := Except.ok.inj hrest
    exact hL
  · obtain ⟨⟨t, k₂⟩, halloc, hlast⟩ := bind_eq_ok.mp hrest
    obtain ⟨h₂, rfl, hT⟩ := allocPage_taken hL.wellFormed halloc
    obtain rfl := Except.ok.inj hlast
    exact (hL.trans hT.leaves).of_eq rfl rfl

/-- A new process: its directory is a page that was free. -/
theorem createProcess_leaves {ip privilege priority : Nat} (hw : k.heap.WellFormed)
    (hok : k.createProcess ip privilege priority = .ok r) (hf : f ∉ k.heap.freeSet) :
    Leaves k f r.2 := by
  obtain ⟨⟨cr3, k₁⟩, hpde, hrest⟩ := bind_eq_ok.mp hok
  obtain ⟨⟨d, k₂⟩, halloc, hset⟩ := bind_eq_ok.mp hpde
  obtain ⟨h', rfl, hT⟩ := allocPage_taken hw halloc
  obtain ⟨rfl, rfl⟩ := Prod.mk.inj (Except.ok.inj hset)
  obtain ⟨⟨p, h₂⟩, hmalloc, hrest⟩ := bind_eq_ok.mp hrest
  set k₁ := ({ k with heap := h' } : Kernel).setPage d fun i =>
    if i < va2pde PAGE_OFFSET then 0 else k.table (frameAt (k.proc k.currentProc).cr3) i with hk₁
  have hL : Leaves k f k₁ := hT.leaves.setPage (hT.ne hf)
  have hL₂ : Leaves k f { k₁ with heap := h₂ } := by
    -- the record of the process is taken from the allocator as well
    rcases @Heap.malloc_spec h' h'.freeSet processSize
      (Heap.wellFormed_iff_rep.mp hT.wellFormed) with ⟨b, g, hok', -, hTk, -⟩ | herr
    · obtain ⟨-, rfl⟩ := Prod.mk.inj (Except.ok.inj (hmalloc.symm.trans hok'))
      obtain ⟨hw₂, hfree⟩ := hTk.rep.wellFormed
      refine ⟨hw₂, ?_, hL.table⟩
      rw [show ({ k₁ with heap := h₂ } : Kernel).heap.freeSet = _ from hfree]
      exact Set.sdiff_subset.trans hT.freeSet
    · exact absurd (hmalloc.symm.trans herr) (by simp)
  obtain ⟨⟨t, k₃⟩, hthread, hlast⟩ := bind_eq_ok.mp hrest
  set k₂ := ({ k₁ with heap := h₂ } : Kernel).modProc p fun P => { P with
    cr3 := va2pa d, privilege := privilege, avlThread := 0, thread := [] } with hk₂
  have hdir : f ≠ frameAt (k₂.proc p).cr3 := by
    rw [hk₂, modProc_proc_self, hT.physical]
    exact hT.ne hf
  have hnot : f ∉ k₂.heap.freeSet := fun hc => hf (hL₂.freeSet hc)
  have hL₃ := createThread_leaves (k := k₂) hL₂.wellFormed hthread hdir hnot
  have hmid : Leaves k f k₂ := hL₂.of_eq rfl rfl
  have hall : Leaves k f k₃ := hmid.trans hL₃
  obtain rfl := Except.ok.inj hlast
  exact hall.of_eq rfl rfl

/-- `SYSCALL_ALLOC_MEMORY` of one page in the user half. -/
theorem sysAllocMemory_table (h : k.Inv phy pool) (hU : k.InUse f)
    (ha : va2pde addr < USER_PDES) (hok : k.sysAllocMemory addr 1 = .ok k') :
    k'.table f = k.table f := by
  obtain ⟨r, halloc, hrest⟩ := bind_eq_ok.mp hok
  obtain ⟨a, h', rfl, hT⟩ := allocPhysicalPage_taken h.owned.wellFormed halloc
  obtain ⟨⟨s, k₁⟩, hopen, hlast⟩ := bind_eq_ok.mp hrest
  have hL := openPhysicalMemory_leaves (k := { k with heap := h' }) hT.wellFormed (hU.taken hT)
    hopen h.threads.running ha
  change (if s = 0xFFFFFFFF then _ else _) = Except.ok k' at hlast
  split at hlast
  · obtain ⟨h'', -, hlast⟩ := bind_eq_ok.mp hlast
    obtain rfl := Except.ok.inj hlast
    exact hL.table
  · obtain rfl := Except.ok.inj hlast
    exact hL.table

/-- A stack that grows gets a page that was free, and writes one entry of a table. -/
theorem growStack_table (h : k.Inv phy pool) (hU : k.InUse f)
    (hg : growsStack (k.thr k.currentThread) addr = true) (hok : k.growStack addr = .ok k') :
    k'.table f = k.table f := by
  have hrun := h.threads.running
  have hi := va2pde_user (h.lt_of_growsStack hg)
  unfold growStack at hok
  rw [frameAt_cr3 h.layout hrun] at hok
  obtain ⟨k₁, htable, hrest⟩ := bind_eq_ok.mp hok
  obtain ⟨hL, -, hor⟩ := ensureTable_leaves h.owned.wellFormed htable (hU.dir hrun) hU.used
  obtain ⟨r, halloc, hlast⟩ := bind_eq_ok.mp hrest
  obtain ⟨a, h', rfl, -⟩ := allocPhysicalPage_taken hL.wellFormed halloc
  obtain rfl := Except.ok.inj hlast
  have hne : f ≠ frameAt (k₁.table (k.pd k.currentProc) (va2pde addr)) := by
    -- an old table is not `f`, and a new one was free
    rcases hor with ⟨heq, h0⟩ | hnew
    · rw [heq]
      exact hU.table hrun hi h0
    · intro hc
      rw [← hc] at hnew
      exact hU.used hnew
  exact (setWord_table_of_ne hne).trans hL.table

/-! ## Disposal

Pages go back without being written. What is written are the two entries of a stack window and the
entry that the scheduler copies, both in directories. -/

/-- Giving a page back changes the allocator only. -/
theorem recycleEntry_heap (hok : recycleEntry keep g i k = .ok k') :
    ∃ h', k' = { k with heap := h' } := by
  unfold recycleEntry at hok
  split at hok
  · obtain ⟨h', -, hlast⟩ := bind_eq_ok.mp hok
    exact ⟨h', (Except.ok.inj hlast).symm⟩
  · exact ⟨k.heap, (Except.ok.inj hok).symm⟩

/-- So does giving back those of a table. -/
theorem recycleTable_heap (hok : recycleTable keep g k = .ok k') :
    ∃ h', k' = { k with heap := h' } := by
  obtain ⟨k₁, hloop, hfree⟩ := bind_eq_ok.mp hok
  obtain ⟨h₁, rfl⟩ := forRange_rel (R := fun s t : Kernel => ∃ h', t = { s with heap := h' })
    (fun s => ⟨s.heap, rfl⟩) (fun s t u ⟨h₁, ht⟩ ⟨h₂, hu⟩ => ⟨h₂, by rw [hu, ht]⟩)
    (fun _ _ _ hbody => recycleEntry_heap hbody) hloop
  obtain ⟨h', -, hlast⟩ := bind_eq_ok.mp hfree
  exact ⟨h', (Except.ok.inj hlast).symm⟩

/-- So does giving back a whole directory. -/
theorem recycleProcessPDE_heap (hok : k.recycleProcessPDE c = .ok k') :
    ∃ h', k' = { k with heap := h' } := by
  obtain ⟨k₁, hloop, hfree⟩ := bind_eq_ok.mp hok
  obtain ⟨h₁, rfl⟩ := forRange_rel (R := fun s t : Kernel => ∃ h', t = { s with heap := h' })
    (fun s => ⟨s.heap, rfl⟩) (fun s t u ⟨h₁, ht⟩ ⟨h₂, hu⟩ => ⟨h₂, by rw [hu, ht]⟩)
    (fun i s t hbody => by
      split at hbody
      · exact recycleTable_heap hbody
      · exact ⟨s.heap, (Except.ok.inj hbody).symm⟩) hloop
  obtain ⟨h', -, hlast⟩ := bind_eq_ok.mp hfree
  exact ⟨h', (Except.ok.inj hlast).symm⟩

/-- Messages that are dropped are not written. -/
theorem recycleMessages_table (hok : recycleMessages p n k = .ok k') : k'.table = k.table := by
  induction n generalizing k with
  | zero => rw [Except.ok.inj hok]
  | succ n ih =>
    obtain ⟨k₁, hfree, hrest⟩ := bind_eq_ok.mp hok
    obtain ⟨h', -, hlast⟩ := bind_eq_ok.mp hfree
    obtain rfl := Except.ok.inj hlast
    have hsame := ih hrest
    exact hsame

/-- When the last thread has gone, only the scheduler writes. -/
theorem disposeEmpty_table (hd : ∀ q ∈ k.processTable, f ≠ k.pd q)
    (hok : k.disposeEmpty p = .ok k') : k'.table f = k.table f := by
  obtain ⟨k₁, hswitch, hrest⟩ := bind_eq_ok.mp hok
  have h₁ : k₁.table f = k.table f := by
    unfold switchFrom at hswitch
    split at hswitch
    · exact (schedule_spec.elim hswitch).table_of hd
    · rw [Except.ok.inj hswitch]
  obtain ⟨k₂, hpde, hrest⟩ := bind_eq_ok.mp hrest
  obtain ⟨h₂, rfl⟩ := recycleProcessPDE_heap hpde
  obtain ⟨k₃, hmessages, hrest⟩ := bind_eq_ok.mp hrest
  obtain ⟨h₄, -, hlast⟩ := bind_eq_ok.mp hrest
  obtain rfl := Except.ok.inj hlast
  exact (congrFun (recycleMessages_table hmessages) f).trans h₁

/-- The stores of `disposeThread` go to directories. -/
theorem disposeThread_table (h : k.Inv phy pool) (hp : p ∈ k.processTable)
    (ht : t ∈ (k.proc p).thread) (hw : k.NormalWindow p t)
    (hd : ∀ q ∈ k.processTable, f ≠ k.pd q) (hok : k.disposeThread t = .ok k') :
    k'.table f = k.table f := by
  obtain ⟨k₁, heq, hD, -⟩ := depart_spec h hp ht hw
  rw [heq] at hok
  obtain ⟨k₂, hrest, hfree⟩ := bind_eq_ok.mp hok
  obtain ⟨h', -, hlast⟩ := bind_eq_ok.mp hfree
  have h₁ : k₁.table f = k.table f := by
    rw [hD.table, setWord_table_of_ne (hd p hp), setWord_table_of_ne (hd p hp)]
  -- the entries of the window are cleared, but no directory moves
  have hpd : ∀ q, k₁.pd q = k.pd q := by
    intro q
    unfold pd
    by_cases hqp : q = p
    · rw [hqp, hD.proc_self]
      rfl
    · rw [hD.proc_of_ne hqp]
  have hd₁ : ∀ q ∈ k₁.processTable, f ≠ k₁.pd q := by
    intro q hq
    rw [hpd]
    exact hd q (hD.processTable ▸ hq)
  have h₂ : k₂.table f = k₁.table f := by
    unfold disposeRest at hrest
    split at hrest
    · exact disposeEmpty_table hd₁ hrest
    · next c _ _ =>
      split at hrest
      · have hM : SameMaps k₁ (k₁.modProc p fun P => { P with current := c }) :=
          sameMaps_modProc (fun _ => rfl) (fun _ => rfl) (fun _ => rfl) (fun _ => rfl) fun _ => rfl
        refine (schedule_spec.elim hrest).table_of fun q hq => ?_
        rw [hM.pd]
        exact hd₁ q hq
      · rw [Except.ok.inj hrest]
  obtain rfl := Except.ok.inj hlast
  exact h₂.trans h₁

/-- The directories of the processes that are left are as before. -/
theorem dir_of_without {S : Set Owner} (hf : ∀ q ∈ k.processTable, f ≠ k.pd q)
    (hframes : k'.frameOf = without k.frameOf S) : ∀ q ∈ k'.processTable, f ≠ k'.pd q := by
  intro q hq
  have hdir := frameOf_pageDirectory hq
  rw [hframes] at hdir
  have hold := (without_eq_some hdir).1
  by_cases hq₀ : q ∈ k.processTable
  · rw [frameOf_pageDirectory hq₀] at hold
    exact Option.some.inj hold ▸ hf q hq₀
  · rw [frameOf_of_not_mem hq₀ rfl] at hold
    exact absurd hold (by simp)

/-- The rounds of `disposeProcess`, by the number of threads. -/
theorem disposeThreads_table (h : k.Inv phy pool) (hp : p ∈ k.processTable)
    (hn : (k.proc p).thread.length = n) (hw : k.NormalWindows p)
    (hd : ∀ q ∈ k.processTable, f ≠ k.pd q) (hok : disposeThreads p n k = .ok k') :
    k'.table f = k.table f := by
  induction n generalizing k with
  | zero => exact absurd hok (by simp [disposeThreads])
  | succ n ih =>
    have hcur := (h.procOk hp).current
    obtain ⟨k₁, hdispose, hrest⟩ := bind_eq_ok.mp hok
    obtain ⟨h₁, hD⟩ := (disposeThread_spec h hp hcur (hw _ hcur)).elim hdispose
    have htable := disposeThread_table h hp hcur (hw _ hcur) hd hdispose
    split at hrest
    · next hne =>
      -- threads are left, so the process is still in the ring
      have hl : ¬ (k.proc p).thread = [(k.proc p).current] := by
        intro hl
        rw [hD.thread] at hne
        exact hne ((erase_eq_nil hcur).mpr hl)
      have hring : k₁.processTable = k.processTable := by rw [hD.processTable, if_neg hl]
      have hp₁ : p ∈ k₁.processTable := hring ▸ hp
      have hlen : (k₁.proc p).thread.length = n := by
        rw [hD.thread, List.length_erase_of_mem hcur, hn]
        rfl
      have hrounds := ih h₁ hp₁ hlen (hD.normalWindows hp₁ h₁.layout (h.procOk hp).nodup hw)
        (dir_of_without hd hD.frames) hrest
      exact hrounds.trans htable
    · rw [← Except.ok.inj hrest]
      exact htable

/-- The process may be the one that runs; then the scheduler is called first. -/
theorem disposeProcess_table (h : k.Inv phy pool) (hp : p ∈ k.processTable)
    (hw : k.NormalWindows p) (hd : ∀ q ∈ k.processTable, f ≠ k.pd q)
    (hok : k.disposeProcess p = .ok k') : k'.table f = k.table f := by
  unfold disposeProcess at hok
  rw [if_pos (List.ne_nil_of_mem (h.procOk hp).current)] at hok
  exact disposeThreads_table h hp rfl hw hd hok

/-- An exception disposes the process that runs. -/
theorem exceptionHandler_table (h : k.Inv phy pool) (hw : k.NormalWindows k.currentProc)
    (hd : ∀ q ∈ k.processTable, f ≠ k.pd q) (hok : k.exceptionHandler = .ok k') :
    k'.table f = k.table f := by
  have hrun := h.threads.running
  obtain ⟨k₁, hschedule, hrest⟩ := bind_eq_ok.mp hok
  have hS := schedule_spec.elim hschedule
  have hp₁ : k.currentProc ∈ k₁.processTable := hS.processTable.symm ▸ hrun
  have hd₁ : ∀ q ∈ k₁.processTable, f ≠ k₁.pd q := by
    intro q hq
    rw [hS.sameLists.pd]
    exact hd q (hS.processTable ▸ hq)
  exact (disposeProcess_table (h.scheduled hS) hp₁ (hS.normalWindows h hrun hw) hd₁ hrest).trans
    (hS.table_of hd)

/-! ## Every entry

With the lemmas above the events are gone through one by one. An entry that maps physical memory
is not among them: it could name the frame of anyone. -/

/-- The system calls but `SYSCALL_OPEN_PHYSICAL_MEMORY`. -/
theorem systemCall_table {o : Owner} {eax edx ecx ebx : Nat} (h : k.Inv phy pool)
    (hdis : eax = 3 → k.Disposable (k.disposeTarget edx))
    (hwin : eax = 3 → k.NormalWindow (k.thr (k.disposeTarget edx)).process (k.disposeTarget edx))
    (hwins : 6 < eax → k.NormalWindows k.currentProc) (h4 : eax ≠ 4)
    (h5 : eax = 5 → ebx = 1 ∧ ecx < PAGE_OFFSET) (ho : k.frameOf o = some f)
    (hdir : ∀ p, o ≠ .pageDirectory p) (htable : ∀ p i, o ≠ .pageTable p i)
    (hrecv : eax = 1 → o ≠ .pte k.currentProc (va2pde ecx) (va2pte ecx))
    (hok : k.systemCall eax edx ecx ebx = .ok k') : k'.table f = k.table f := by
  have hU := h.inUse ho hdir htable
  have hd : ∀ q ∈ k.processTable, f ≠ k.pd q := fun q hq => hU.dir hq
  -- by the number of the call, as the table of system calls does
  match eax with
  | 0 => exact sysSend_table h hU hok
  | 1 => exact sysReceive_table h ho hdir htable (hrecv rfl) hok
  | 2 =>
    obtain ⟨r, hcreate, hlast⟩ := bind_eq_ok.mp hok
    have hne : f ≠ frameAt (k.proc k.currentProc).cr3 := by
      rw [frameAt_cr3 h.layout h.threads.running]
      exact hU.dir h.threads.running
    have hL := createThread_leaves h.owned.wellFormed hcreate hne hU.used
    obtain rfl := Except.ok.inj hlast
    exact hL.table
  | 3 =>
    obtain ⟨p, hp, ht, -⟩ := hdis rfl
    have hwin' := hwin rfl
    rw [(h.procOk hp).back _ ht] at hwin'
    exact disposeThread_table h hp ht hwin' hd hok
  | 4 => exact absurd rfl h4
  | 5 =>
    obtain ⟨rfl, hlt⟩ := h5 rfl
    exact sysAllocMemory_table h hU (va2pde_user hlt) hok
  | 6 =>
    obtain ⟨k₁, hschedule, hlast⟩ := bind_eq_ok.mp hok
    obtain rfl := Except.ok.inj hlast
    exact (schedule_spec.elim hschedule).table_of hd
  | n + 7 => exact exceptionHandler_table h (hwins (by omega)) hd hok

/-- **A kernel entry does not write what others own.** Without physical mappings, a frame that
belongs to an owner, but not as a directory or a table, is the same behind the entry. The frame
`SYSCALL_RECEIVE` unmaps is left out. -/
theorem step_table {o : Owner} {ev : Event} (h : k.Inv False pool) (hs : k.EntersOwning ev k')
    (ho : k.frameOf o = some f) (hdir : ∀ p, o ≠ .pageDirectory p)
    (htable : ∀ p i, o ≠ .pageTable p i)
    (hrecv : ∀ regs, ev = .systemCall regs → regs.ax = 1 →
      o ≠ .pte k.currentProc (va2pde regs.cx) (va2pte regs.cx)) : k'.table f = k.table f := by
  obtain ⟨howning, hadm, hok⟩ := hs
  have hcare := careful_of_owning h hadm howning
  have hU := h.inUse ho hdir htable
  have hsave : ∀ regs, (k.save regs).InUse f := fun regs =>
    hU.of_sameMaps (sameButRegs_save regs).sameMaps
  cases ev with
  | createProcess ip privilege priority =>
    obtain ⟨r, hcreate, hlast⟩ := bind_eq_ok.mp hok
    obtain rfl := Except.ok.inj hlast
    exact (createProcess_leaves h.owned.wellFormed hcreate hU.used).table
  | disposeProcess p =>
    exact disposeProcess_table h hadm.mem hcare (fun q hq => hU.dir hq) hok
  | systemCall regs =>
    have ho' : (k.save regs).frameOf o = some f := by
      rw [(sameButRegs_save regs).sameMaps.frameOf]
      exact ho
    obtain ⟨hdis, -⟩ := hadm
    obtain ⟨-, hwin, hwins⟩ := hcare
    -- the page at which a message is received is excluded
    refine systemCall_table (k := k.save regs) h.save hdis (fun h3 => ?_)
      (fun h6 => normalWindows_save.mpr (hwins h6)) howning.1
      (fun h5 => ⟨(howning.2 h5).1, (howning.2 h5).2.2⟩) ho' hdir htable
      (fun h1 => hrecv regs rfl h1) hok
    have htarget : (k.save regs).disposeTarget regs.dx = k.disposeTarget regs.dx := rfl
    rw [htarget, (sameButRegs_save regs).thr_process]
    exact normalWindow_save.mpr (hwin h3)
  | interrupt regs p => exact sendInterrupt_table (k := k.save regs) h.save hadm (hsave regs) hok
  | tick regs =>
    obtain ⟨-, k₁, hT, hS⟩ := (timerTick_spec h.save).elim hok
    have hU₁ := (hsave regs).of_sameMaps hT.sameMaps
    exact (hS.table_of fun q hq => hU₁.dir hq).trans (congrFun hT.table f)
  | pageFault regs cr2 =>
    change (if growsStack _ cr2 then _ else _) = _ at hok
    split at hok
    · next hg => exact growStack_table (k := k.save regs) h.save (hsave regs) hg hok
    · next hg =>
      rw [growsStack_save] at hg
      exact exceptionHandler_table (k := k.save regs) h.save (normalWindows_save.mpr (hcare hg))
        (fun q hq => (hsave regs).dir hq) hok
  | exception regs =>
    exact exceptionHandler_table (k := k.save regs) h.save (normalWindows_save.mpr hcare)
      (fun q hq => (hsave regs).dir hq) hok

end Kernel

end NorlitOS
