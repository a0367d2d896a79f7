import NorlitOS.Process.Interrupt

/-!
# Mapping memory for the running process

`SYSCALL_OPEN_PHYSICAL_MEMORY`, `SYSCALL_ALLOC_MEMORY` and the growth of a stack. In the user
half nothing leaves the pool. An entry of the kernel half is never recycled: the frames behind
it leave the pool for good.
-/

namespace NorlitOS

open Dyadic Ledger

namespace Kernel

variable {k k' k₁ : Kernel} {own : Owner → Option Nat} {phy : Prop} {pool pool' : Set Nat}
  {p q t i j x f n v addr flag : Nat}

/-! ## Smaller pools

Frames that go into the kernel half are owned by no one, so the invariant goes on with a pool
without them. -/

theorem sameRunning_withHeap {h' : Heap} : SameRunning k { k with heap := h' } :=
  ⟨rfl, rfl, rfl, rfl, rfl, fun _ _ _ _ _ _ => rfl⟩

theorem Inv.withHeap {h' : Heap} (h : k.Inv phy pool) (hO : Owned h' k.frameOf pool) :
    ({ k with heap := h' } : Kernel).Inv phy pool :=
  ⟨hO, h.layout.withHeap h', sameRunning_withHeap.threads h⟩

/-- A frame nobody will give back. -/
theorem Inv.leak {h' : Heap} (h : k.Inv phy pool)
    (hf : Owned.Allocated k.heap k.frameOf pool f h') :
    ({ k with heap := h' } : Kernel).Inv phy (pool \ page f) := by
  have hL := h.layout.leak h.owned (Agree.refl k) hf.free
  exact ⟨hf.leak, hL.withHeap h', sameRunning_withHeap.threads h⟩

/-! ## The kernel half

A page of the kernel half is mapped for all processes at once, since they share its tables. -/

/-- A store behind an entry of the kernel half. -/
theorem Inv.setWord_outside (h : k.Inv phy pool) (hf : f ∉ pool) :
    (k.setWord f j v).Inv phy pool ∧ SameRunning k (k.setWord f j v) := by
  have hS : SameRunning k (k.setWord f j v) :=
    ⟨rfl, rfl, rfl, rfl, rfl, fun q hq _ a ha b => pte_setWord_outside h.layout hf hq ha b⟩
  refine ⟨⟨?_, h.layout.setWord_outside hf, hS.threads h⟩, hS⟩
  rw [frameOf_setWord_outside h.layout hf]
  exact h.owned

theorem ensureKernelTable_spec (h : k.Inv phy pool) (hi : USER_PDES ≤ i) :
    Yields (k.ensureTable (k.pd k.currentProc) i) fun k' =>
      (∃ pool' ⊆ pool, k'.Inv phy pool') ∧ SameRunning k k' ∧ k'.pde k.currentProc i ≠ 0 ∧
        (k' = k ∨ ∀ j, k'.table (frameAt (k'.pde k.currentProc i)) j = 0) := by
  refine (kernelTable_spec h.layout h.owned (Agree.refl k) h.threads.running hi).mono fun k' hk' => ?_
  obtain ⟨pool', hT⟩ := hk'
  have hS : SameRunning k k' := ⟨hT.processTable, hT.currentProc, hT.currentThread, hT.proc, hT.thr,
    fun q hq _ a ha b => hT.pte q hq a ha b⟩
  have hO : Owned k'.heap k'.frameOf pool' := by
    rw [hT.frames]
    exact hT.owned
  exact ⟨⟨pool', hT.inPool, hO, hT.layout, hS.threads h⟩, hS, hT.used, hT.new.imp_right (·.clear)⟩

/-- The entry of `addr` maps a page already. -/
def Used (k : Kernel) (addr : Nat) : Prop :=
  k.pde k.currentProc (va2pde addr) ≠ 0 ∧
    k.table (frameAt (k.pde k.currentProc (va2pde addr))) (va2pte addr) ≠ 0

/-- A page mapped in the kernel half. -/
theorem openKernelPage_spec (h : k.Inv phy pool) (hi : USER_PDES ≤ va2pde addr) :
    Yields (k.openPhysicalPage k.currentProc x addr flag) fun r =>
      (∃ pool' ⊆ pool, r.2.Inv phy pool') ∧ SameRunning k r.2 ∧ (r.1 = 0xFFFFFFFF → k.Used addr) := by
  unfold openPhysicalPage
  refine (ensureKernelTable_spec h hi).bind fun k₁ hk₁ => ?_
  obtain ⟨⟨pool₁, hsub, h₁⟩, hS, h0, hnew⟩ := hk₁
  have hpd : pa2va (k.proc k.currentProc).cr3 = k₁.pd k.currentProc := by rw [pd, hS.proc]
  have hout : frameAt (k₁.pde k.currentProc (va2pde addr)) ∉ pool₁ :=
    h₁.layout.kernelHalf (hS.processTable ▸ h.threads.running) hi (va2pde_lt addr) h0
  rw [hpd]
  show Yields (if k₁.table (frameAt (k₁.pde k.currentProc (va2pde addr))) (va2pte addr) ≠ 0 then
    .ok (0xFFFFFFFF, k₁) else .ok (0, k₁.setWord (frameAt (k₁.pde k.currentProc (va2pde addr)))
      (va2pte addr) (x ||| 0b11111 ||| flag))) _
  split
  · next hz =>
    refine ⟨⟨pool₁, hsub, h₁⟩, hS, fun _ => ?_⟩
    -- the entry is in use, so the table is an old one
    rcases hnew with rfl | hnew
    · exact ⟨h0, hz⟩
    · exact absurd (hnew _) hz
  · obtain ⟨h₂, hS₂⟩ := h₁.setWord_outside (j := va2pte addr) (v := x ||| 0b11111 ||| flag) hout
    refine ⟨⟨pool₁, hsub, h₂⟩, hS.trans hS₂, fun hz => ?_⟩
    cases (hz : (0 : Nat) = 0xFFFFFFFF)

/-! ## The user half

A table or an entry of the running process. -/

theorem Tabled.sameRunning (hT : Tabled k own phy pool k.currentProc i k') : SameRunning k k' :=
  ⟨hT.processTable, hT.currentProc, hT.currentThread, hT.proc, hT.thr,
    fun q hq _ a ha b => hT.pte q hq a ha b⟩

theorem Tabled.inv (hT : Tabled k k.frameOf phy pool k.currentProc i k') (h : k.Inv phy pool) :
    k'.Inv phy pool :=
  ⟨by rw [hT.frames]; exact hT.owned, hT.layout, hT.sameRunning.threads h⟩

theorem Opened.sameRunning (ho : Opened k own phy pool k.currentProc i j v k') : SameRunning k k' :=
  ⟨ho.processTable, ho.currentProc, ho.currentThread, ho.proc, ho.thr, fun q hq hne a ha b => by
    rw [ho.pte q hq a ha b, if_neg fun hc => hne hc.1]⟩

/-- A `PAGE_TYPE_PHY` entry owns nothing. -/
theorem Opened.inv_phy (ho : Opened k k.frameOf phy pool k.currentProc i j
    (x ||| 0b11111 ||| PAGE_TYPE_PHY) k') (h : k.Inv phy pool) (hi : i < USER_PDES) (hj : j < 1024)
    (hz : k.pte k.currentProc i j = 0) : k'.Inv phy pool := by
  refine ⟨?_, ho.layout, ho.sameRunning.threads h⟩
  have hnone : k.frameOf (.pte k.currentProc i j) = none :=
    (frameOf_pte h.threads.running hi hj).trans (by rw [hz, entryFrame_zero])
  have hframes := ho.frames
  rw [entryFrame_phy (phy_entry x).2, Function.update_comm (by simp),
    show Function.update k.frameOf (.pte k.currentProc i j) none = k.frameOf from
      Function.update_eq_self_iff.mpr hnone.symm] at hframes
  rw [hframes]
  exact ho.owned

/-- A physical page mapped in the user half. -/
theorem openUserPage_spec (h : k.Inv phy pool) (hphy : phy) (hi : va2pde addr < USER_PDES) :
    Yields (k.openPhysicalPage k.currentProc x addr PAGE_TYPE_PHY) fun r =>
      r.2.Inv phy pool ∧ SameRunning k r.2 := by
  have hrun := h.threads.running
  unfold openPhysicalPage
  refine (ensureTable_spec h.layout h.owned (Agree.refl k) hrun hi).bind fun k₁ hT => ?_
  have hpd : pa2va (k.proc k.currentProc).cr3 = k₁.pd k.currentProc := by rw [pd, hT.proc]
  rw [hpd]
  show Yields (if k₁.table (frameAt (k₁.pde k.currentProc (va2pde addr))) (va2pte addr) ≠ 0 then
    .ok (0xFFFFFFFF, k₁) else .ok (0, k₁.setWord (frameAt (k₁.pde k.currentProc (va2pde addr)))
      (va2pte addr) (x ||| 0b11111 ||| PAGE_TYPE_PHY))) _
  by_cases hz : k₁.table (frameAt (k₁.pde k.currentProc (va2pde addr))) (va2pte addr) ≠ 0
  · rw [if_pos hz]
    exact ⟨hT.inv h, hT.sameRunning⟩
  · rw [if_neg hz]
    -- a physical mapping owns no frame
    have hopen := hT.setEntry hrun hi (va2pte_lt addr) fun _ => ⟨(phy_entry x).1, fun _ => hphy⟩
    have hz₀ : k.pte k.currentProc (va2pde addr) (va2pte addr) = 0 := by
      rw [← hT.pte _ hrun _ hi, pte_of_pde hT.used]
      exact not_not.mp hz
    exact ⟨hopen.inv_phy h hi (va2pte_lt addr) hz₀, hopen.sameRunning⟩

/-! ## `SYSCALL_OPEN_PHYSICAL_MEMORY`

The loop of the call, and the registers that it leaves. -/

/-- The loop over the pages: each keeps the invariant, some shrink the pool. -/
theorem openPhysicalMemory_spec (h : k.Inv phy pool) (hphy : phy) :
    Yields (k.openPhysicalMemory k.currentProc x addr n PAGE_TYPE_PHY) fun r =>
      (∃ pool' ⊆ pool, r.2.Inv phy pool') ∧ SameRunning k r.2 := by
  induction n generalizing k pool x addr with
  | zero => exact ⟨⟨pool, subset_rfl, h⟩, SameRunning.refl k⟩
  | succ n ih =>
    have hpage : Yields (k.openPhysicalPage k.currentProc x addr PAGE_TYPE_PHY) fun r =>
        (∃ pool' ⊆ pool, r.2.Inv phy pool') ∧ SameRunning k r.2 := by
      -- page by page, in one half or the other
      rcases Nat.lt_or_ge (va2pde addr) USER_PDES with hi | hi
      · exact (openUserPage_spec h hphy hi).mono fun r hr => ⟨⟨pool, subset_rfl, hr.1⟩, hr.2⟩
      · exact (openKernelPage_spec h hi).mono fun r hr => ⟨hr.1, hr.2.1⟩
    unfold openPhysicalMemory
    refine hpage.bind fun r hr => ?_
    obtain ⟨r, k₁⟩ := r
    obtain ⟨⟨pool₁, hsub, h₁⟩, hS⟩ := hr
    show Yields (if r = 0xFFFFFFFF then .ok (0xFFFFFFFF, k₁) else _) _
    split
    · exact ⟨⟨pool₁, hsub, h₁⟩, hS⟩
    · have hcur : k.currentProc = k₁.currentProc := hS.currentProc.symm
      rw [hcur]
      refine (ih h₁).mono fun r' hr' => ?_
      obtain ⟨⟨pool₂, hsub₂, h₂⟩, hS₂⟩ := hr'
      exact ⟨⟨pool₂, hsub₂.trans hsub, h₂⟩, hS.trans hS₂⟩

theorem sysOpenPhysicalMemory_spec {edx ecx ebx : Nat} (h : k.Inv phy pool) (hphy : phy) :
    Yields (k.sysOpenPhysicalMemory edx ecx ebx) fun k' => ∃ pool' ⊆ pool, k'.Inv phy pool' := by
  unfold sysOpenPhysicalMemory
  refine (openPhysicalMemory_spec h hphy).bind fun r hr => ?_
  obtain ⟨⟨pool', hsub, h'⟩, -⟩ := hr
  exact ⟨pool', hsub, (sameButRegs_setAx _).inv h'⟩

/-! ## `SYSCALL_ALLOC_MEMORY`

Fresh pages, one after the other, at addresses that the caller chooses. What was mapped there is
overwritten, so the ledger is right only if nothing was. -/

/-- At an entry in use nothing is mapped. -/
theorem openPhysicalMemory_used (hu : k.Used addr) :
    k.openPhysicalMemory k.currentProc x addr (n + 1) flag = .ok (0xFFFFFFFF, k) := by
  have htab : k.ensureTable (pa2va (k.proc k.currentProc).cr3) (va2pde addr) = .ok k := by
    rw [ensureTable, if_neg]
    exact hu.1
  have hpage : k.openPhysicalPage k.currentProc x addr flag = .ok (0xFFFFFFFF, k) := by
    unfold openPhysicalPage
    dsimp only
    rw [htab, ok_bind, if_pos]
    exact hu.2
  rw [openPhysicalMemory, hpage, ok_bind]
  exact if_pos rfl

/-- The failing call: the fresh page is given back. -/
theorem allocUsed_spec {h' : Heap} (h : k.Inv phy pool) (hu : k.Used addr)
    (hf : Owned.Allocated k.heap k.frameOf pool f h') :
    Yields (do
      let (r, k₁) ← ({ k with heap := h' } : Kernel).openPhysicalMemory k.currentProc (va2pa f)
        addr (n + 1) 0
      let k₁ := k₁.setAx k₁.currentThread r
      if r = 0xFFFFFFFF then k₁.recyclePhysicalPage (va2pa f) else .ok k₁) fun k' => k'.Inv phy pool := by
  rw [openPhysicalMemory_used (k := { k with heap := h' }) hu, ok_bind]
  have hO := hf.enter inHand (fun _ => by simp [inHand]) frameOf_inHand
  have hphys := hf.physical h.owned
  obtain ⟨h'', hok, hO'⟩ := freePage_spec (k := ({ k with heap := h' } : Kernel).setAx
    k.currentThread 0xFFFFFFFF) hO (Function.update_self _ _ _)
  rw [Function.update_idem, Function.update_eq_self_iff.mpr frameOf_inHand.symm] at hO'
  show Yields (if 0xFFFFFFFF = 0xFFFFFFFF then _ else _) _
  rw [if_pos rfl, recyclePhysicalPage, hphys.2]
  refine Yields.of_eq_ok hok ?_
  have hS := sameButRegs_setAx (k := k) 0xFFFFFFFF
  rw [← hS.sameMaps.frameOf] at hO'
  exact (hS.inv h).withHeap hO'

/-- **`SYSCALL_ALLOC_MEMORY`** of one page in the user half. -/
theorem sysAllocMemory_user {ecx : Nat} (h : k.Inv phy pool) (hi : va2pde ecx < USER_PDES) :
    Yields (k.sysAllocMemory ecx 1) fun k' => k'.Inv phy pool := by
  have hrun := h.threads.running
  have hj := va2pte_lt ecx
  unfold sysAllocMemory
  refine (allocPhysicalPage_spec h.owned).bind fun r hr => ?_
  obtain ⟨f, h', rfl, hf⟩ := hr
  have hphys := hf.physical h.owned
  by_cases hz : k.pte k.currentProc (va2pde ecx) (va2pte ecx) = 0
  · have hnone : k.frameOf (.pte k.currentProc (va2pde ecx) (va2pte ecx)) = none :=
      (frameOf_pte hrun hi hj).trans (by rw [hz, entryFrame_zero])
    have hA : Agree (Function.update k.frameOf (.pte k.currentProc (va2pde ecx) (va2pte ecx))
        (some f)) { k with heap := h' } := Agree.update_pte ((Agree.refl k).withHeap h')
    refine (openPhysicalMemory_one (h.layout.withHeap h') (hf.enter _ (fun _ => by simp) hnone) hA
      hrun hi hz (by rw [Nat.or_zero]; exact entry_or hphys.1)).bind fun r hr => ?_
    obtain ⟨r, k₂⟩ := r
    obtain ⟨rfl, hopen⟩ := hr
    rw [Nat.or_zero] at hopen
    have hS : SameRunning k k₂ := sameRunning_withHeap.trans hopen.sameRunning
    have hframes := hopen.frames_eq hphys.1
    rw [hphys.2] at hframes
    have hInv : k₂.Inv phy pool := ⟨by rw [hframes]; exact hopen.owned, hopen.layout, hS.threads h⟩
    show Yields (if 0 = 0xFFFFFFFF then _ else _) _
    rw [if_neg (by decide)]
    exact (sameButRegs_setAx 0).inv hInv
  -- the entry is in use, so the page goes back
  · have h0 : k.pde k.currentProc (va2pde ecx) ≠ 0 := fun h0 => hz (pte_of_no_pde h0)
    rw [pte_of_pde h0] at hz
    exact allocUsed_spec (n := 0) h ⟨h0, hz⟩ hf

/-- One page or none, at any address. -/
theorem sysAllocMemory_spec {ecx ebx : Nat} (h : k.Inv phy pool) (hn : ebx ≤ 1) :
    Yields (k.sysAllocMemory ecx ebx) fun k' => ∃ pool' ⊆ pool, k'.Inv phy pool' := by
  rcases Nat.lt_or_ge (va2pde ecx) USER_PDES with hi | hi
  · rcases Nat.le_one_iff_eq_zero_or_eq_one.mp hn with rfl | rfl
    · unfold sysAllocMemory
      refine (allocPhysicalPage_spec h.owned).bind fun r hr => ?_
      obtain ⟨f, h', rfl, hf⟩ := hr
      exact ⟨_, Set.sdiff_subset, (sameButRegs_setAx 0).inv (h.leak hf)⟩
    · exact (sysAllocMemory_user h hi).mono fun k' hk' => ⟨pool, subset_rfl, hk'⟩
  · unfold sysAllocMemory
    refine (allocPhysicalPage_spec h.owned).bind fun r hr => ?_
    obtain ⟨f, h', rfl, hf⟩ := hr
    -- what goes into the kernel half is lost to the pool
    have hleak := h.leak hf
    rcases Nat.le_one_iff_eq_zero_or_eq_one.mp hn with rfl | rfl
    · exact ⟨_, Set.sdiff_subset, (sameButRegs_setAx 0).inv hleak⟩
    · by_cases hu : k.Used ecx
      · exact (allocUsed_spec (n := 0) h hu hf).mono fun k' hk' => ⟨pool, subset_rfl, hk'⟩
      · unfold openPhysicalMemory
        have hpage : Yields (({ k with heap := h' } : Kernel).openPhysicalPage k.currentProc (va2pa f)
            ecx 0) _ := openKernelPage_spec hleak hi
        refine Yields.bind (P := fun r => r.1 = 0 ∧ ∃ pool' ⊆ pool, r.2.Inv phy pool')
          (hpage.bind fun r hr => ?_) fun r hr => ?_
        · obtain ⟨r, k₁⟩ := r
          obtain ⟨⟨pool₁, hsub, h₁⟩, -, hused⟩ := hr
          show Yields (if r = 0xFFFFFFFF then .ok (0xFFFFFFFF, k₁) else .ok (0, k₁)) _
          rw [if_neg fun hc => hu (hused hc)]
          exact ⟨rfl, pool₁, hsub.trans Set.sdiff_subset, h₁⟩
        · obtain ⟨r, k₁⟩ := r
          obtain ⟨rfl, pool₁, hsub, h₁⟩ := hr
          show Yields (if 0 = 0xFFFFFFFF then _ else _) _
          rw [if_neg (by decide)]
          exact ⟨pool₁, hsub, (sameButRegs_setAx 0).inv h₁⟩

/-! ## Growing a stack

A page fault in the window of the running thread gets a fresh page. -/

theorem Replaced.inv (hr : Replaced k k.frameOf phy pool k.currentProc i j f k') (h : k.Inv phy pool) :
    k'.Inv phy pool := by
  have hS : SameRunning k k' := by
    refine ⟨hr.processTable, hr.currentProc, hr.currentThread, hr.proc, hr.thr,
      fun q hq hne a ha b => ?_⟩
    rw [hr.pte q hq a ha b, if_neg fun hc => hne hc.1]
  exact ⟨by rw [hr.frames]; exact hr.owned, hr.layout, hS.threads h⟩

/-- The stack window lies in the user half. -/
theorem Inv.lt_of_growsStack (h : k.Inv phy pool)
    (hg : growsStack (k.thr k.currentThread) addr = true) : addr < PAGE_OFFSET := by
  obtain ⟨i, hw⟩ := h.layout.window h.threads.running h.current_mem
  unfold growsStack at hg
  rw [decide_eq_true_iff] at hg
  have hlt := hg.2.1
  have hhigh := hw.high
  rw [hw.stacktop] at hlt
  unfold USER_PDES at hhigh
  unfold PAGE_OFFSET
  omega

/-- Stack growth at a page that is not present, as two changes of the tables. -/
theorem growStack_replaced (h : k.Inv phy pool)
    (hg : growsStack (k.thr k.currentThread) addr = true)
    (hz : k.pte k.currentProc (va2pde addr) (va2pte addr) = 0) :
    Yields (k.growStack addr) fun k' => ∃ k₁ f, k₁.Inv phy pool ∧
      Tabled k k.frameOf phy pool k.currentProc (va2pde addr) k₁ ∧
        Replaced k₁ k₁.frameOf phy pool k₁.currentProc (va2pde addr) (va2pte addr) f k' := by
  have hrun := h.threads.running
  have hi := va2pde_user (h.lt_of_growsStack hg)
  unfold growStack
  rw [frameAt_cr3 h.layout hrun]
  refine (ensureTable_spec h.layout h.owned (Agree.refl k) hrun hi).bind fun k₁ hT => ?_
  have h₁ := hT.inv h
  refine (allocPhysicalPage_spec h₁.owned).bind fun r hr => ?_
  obtain ⟨f, h', rfl, hf⟩ := hr
  have hcur : k₁.currentProc = k.currentProc := hT.currentProc
  -- the entry is empty, so nothing is lost by overwriting it
  have hnone : k₁.frameOf (.pte k₁.currentProc (va2pde addr) (va2pte addr)) = none := by
    rw [frameOf_pte h₁.threads.running hi (va2pte_lt addr), hcur, hT.pte _ hrun _ hi, hz,
      entryFrame_zero]
  have hpd : k.pd k.currentProc = k₁.pd k₁.currentProc := by rw [pd, pd, hT.proc, hcur]
  rw [hpd]
  exact ⟨k₁, f, h₁, hT, Replaced.of_allocated hf h₁.layout h₁.owned h₁.threads.running hi
    (va2pte_lt addr) (hcur ▸ hT.used) hnone⟩

/-- **Stack growth** at a page that is not present. -/
theorem growStack_spec (h : k.Inv phy pool) (hg : growsStack (k.thr k.currentThread) addr = true)
    (hz : k.pte k.currentProc (va2pde addr) (va2pte addr) = 0) :
    Yields (k.growStack addr) fun k' => k'.Inv phy pool ∧ k'.proc = k.proc ∧
      k'.processTable = k.processTable := by
  refine (growStack_replaced h hg hz).mono fun k' hk' => ?_
  obtain ⟨k₁, f, h₁, hT, hr⟩ := hk'
  exact ⟨hr.inv h₁, hr.proc.trans hT.proc, hr.processTable.trans hT.processTable⟩

end Kernel

end NorlitOS
