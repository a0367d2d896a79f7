import NorlitOS.Process.MapRequests

/-!
# The kernel half of the address spaces

No system call writes the directory and table entries above `PAGE_OFFSET`, except that the two
mapping calls do not look at the address: a range that reaches the kernel half on free pages is
mapped there, in tables all processes share.
-/

namespace NorlitOS

open Dyadic Ledger

namespace Kernel

variable {k k' k₁ k₂ k₃ : Kernel} {own : Owner → Option Nat} {phy : Prop} {pool : Set Nat}
  {p q x flag kernelPDE ip : Nat} {g : Heap} {r : Nat × Kernel} {regs : StackFrame}
  {es : List Event}

/-- The entries that cover the addresses from `PAGE_OFFSET` on are the same for every process. The
directory entry at `PAGE_OFFSET` itself is the one `schedule` copies between directories. -/
structure KernelSame (k k' : Kernel) : Prop where
  words : ∀ q ∈ k.processTable, ∀ i, USER_PDES ≤ i → i < 1024 → k.pde q i ≠ 0 → ∀ j < 1024,
    k'.table (frameAt (k.pde q i)) j = k.table (frameAt (k.pde q i)) j
  pde : ∀ q ∈ k.processTable, q ∈ k'.processTable → ∀ i, USER_PDES < i → i < 1024 →
    k'.pde q i = k.pde q i
  own : ∀ q ∈ k.processTable, q ∈ k'.processTable →
    ∃ r ∈ k.processTable, k'.pde q USER_PDES = k.pde r USER_PDES

theorem SameHalf.kernelSame (hS : SameHalf pool k k') (hL : k.Layout phy pool) : KernelSame k k' where
  words q hq i hi hi' h0 j _ := by rw [hS.outside _ (hL.kernelHalf hq hi hi' h0)]
  pde q hq hq' i hi _ := hS.pde q hq hq' i hi
  own := hS.own

/-! ## The calls that do not map -/

theorem systemCall_half {eax edx ecx ebx : Nat} (h : k.Inv phy pool)
    (hcx : (k.thr k.currentThread).regs.cx = ecx) (hmap : ¬ (eax = 4 ∨ eax = 5))
    (hdis : eax = 3 → k.Disposable (k.disposeTarget edx))
    (hwin : eax = 3 → k.NormalWindow (k.thr (k.disposeTarget edx)).process (k.disposeTarget edx))
    (hwins : 6 < eax → k.NormalWindows k.currentProc) :
    Yields (k.systemCall eax edx ecx ebx) fun k' => SameHalf pool k k' := by
  match eax with
  | 0 => exact (sysSend_spec h).mono fun _ hk' => hk'.1.half
  | 1 => exact (sysReceive_spec h hcx).mono fun _ hk' => hk'.1.half
  | 2 => exact (sysCreateThread_spec h).mono fun _ hk' => hk'.1.half
  | 3 =>
    obtain ⟨p, hp, ht, -⟩ := hdis rfl
    have hwin' := hwin rfl
    rw [(h.procOk hp).back _ ht] at hwin'
    exact (sysDisposeThread_spec h hp ht hwin').mono fun _ hk' => hk'.2.half
  -- the calls that map are treated by themselves
  | 4 => exact absurd (Or.inl rfl) hmap
  | 5 => exact absurd (Or.inr rfl) hmap
  | 6 => exact (sysNice_spec h).mono fun _ hk' => hk'.1.half
  | n + 7 =>
    exact (exceptionHandler_spec h (hwins (by omega))).mono fun _ hk' => hk'.2.half

theorem kernelSame_of_not_mapping (h : k.Inv True pool) (hmap : ¬ (regs.ax = 4 ∨ regs.ax = 5))
    (hadm : k.Admissible (.systemCall regs)) (hcare : k.Careful (.systemCall regs))
    (hok : k.step (.systemCall regs) = .ok k') : KernelSame k k' := by
  have hhalf : SameHalf pool (k.save regs) k' := by
    refine (systemCall_half h.save save_cx hmap hadm.1 (fun h3 => ?_)
      (fun h6 => normalWindows_save.mpr (hcare.2.2 h6))).elim hok
    rw [show (k.save regs).disposeTarget regs.dx = k.disposeTarget regs.dx from rfl,
      (sameButRegs_save regs).thr_process]
    exact normalWindow_save.mpr (hcare.2.1 h3)
  exact ((sameButRegs_save regs).half.trans_of_eq hhalf rfl).kernelSame h.layout

/-! ## The mapping calls -/

section MapCall

variable (hM : MapCall k regs g x flag r k') (h : k.Inv True pool) (hO : Owned g own pool)
  (hA : Agree own k)

include hM h hO hA

theorem MapCall.kernelSame (hstay : k.StaysUser k.currentProc regs.cx regs.bx) : KernelSame k k' := by
  have hrun : k.currentProc ∈ (k.mapping regs g).processTable := h.threads.running
  have hstay' : (k.mapping regs g).StaysUser k.currentProc regs.cx regs.bx := by
    intro i hi hempty
    exact hstay i hi fun j hj => mapping_entryAt.symm.trans (hempty j hj)
  have hhalf : SameHalf pool (k.mapping regs g) r.2 := (openPhysicalMemory_half (mapping_layout h) hO
    (mapping_agree hA) hrun hstay').elim hM.loop
  have hfirst : SameHalf pool k (k.mapping regs g) := SameHalf.of_eq rfl fun _ => rfl
  have hlast : SameHalf pool r.2 k' := SameHalf.of_eq hM.table fun q => by rw [hM.proc]
  obtain ⟨⟨own', pool', hE⟩, -⟩ := hM.extended h hO hA
  exact ((hfirst.trans_of_eq hhalf rfl).trans_of_eq hlast hE.processTable).kernelSame h.layout

/-- An entry of the kernel half that was empty and is not empty now. -/
theorem MapCall.not_kernelSame (hstay : ¬ k.StaysUser k.currentProc regs.cx regs.bx) :
    ¬ KernelSame k k' := by
  classical
  intro hS
  have hrun : k.currentProc ∈ k.processTable := h.threads.running
  have hrun₀ : k.currentProc ∈ (k.mapping regs g).processTable := hrun
  -- the first page of the kernel half that the loop reaches
  unfold StaysUser at hstay
  push Not at hstay
  obtain ⟨n, hn, hempty, hkernel⟩ := hstay
  have hex : ∃ i, USER_PDES ≤ va2pde (nthPage regs.cx i) := ⟨n, hkernel⟩
  have hle : Nat.find hex ≤ n := Nat.find_min' hex hkernel
  obtain ⟨b, hb, hz, hset⟩ := (openPhysicalMemory_kernel (mapping_layout h) hO (mapping_agree hA)
    hrun₀ (lt_of_le_of_lt hle hn)
    (fun j hj => mapping_entryAt.trans (hempty j (hj.trans hle)))
    (fun j hj => Nat.lt_of_not_le (Nat.find_min hex hj)) (Nat.find_spec hex)).elim hM.loop
  rw [mapping_entryAt] at hz
  obtain ⟨⟨own', pool', hE⟩, -⟩ := hM.extended h hO hA
  have hlt := va2pde_lt b
  have hpde : ∀ i, k'.pde k.currentProc i = r.2.pde k.currentProc i := by
    intro i
    unfold Kernel.pde pd
    rw [hM.table, hM.proc]
  have hrun' : k.currentProc ∈ k'.processTable := by
    rw [hM.processTable]
    exact hE.mem hrun
  have hset' : k'.entryAt k.currentProc b ≠ 0 := by rwa [hM.entryAt]
  by_cases h0 : k.pde k.currentProc (va2pde b) = 0
  · -- the table is new
    have h0' : k'.pde k.currentProc (va2pde b) ≠ 0 := fun hc => hset' (pte_of_no_pde hc)
    rcases Nat.eq_or_lt_of_le hb with heq | hlt'
    · obtain ⟨s, hs, hcopy⟩ := hS.own _ hrun hrun'
      rw [heq] at hcopy
      have hfresh : page (frameAt (r.2.pde k.currentProc (va2pde b))) ⊆ g.freeSet :=
        hE.fresh _ h0 (by rwa [← hpde])
      rw [← hpde, hcopy] at hfresh
      rw [hcopy] at h0'
      exact h.layout.kernelHalf hs hb hlt h0' (hO.accounts.free_subset (hfresh (self_mem_page _)))
    · exact h0' ((hS.pde _ hrun hrun' _ hlt' hlt).trans h0)
  · have hsame : k'.pde k.currentProc (va2pde b) = k.pde k.currentProc (va2pde b) :=
      (hpde _).trans (hE.pde _ hrun₀ _ h0)
    have hword := hS.words _ hrun _ hb hlt h0 _ (va2pte_lt b)
    unfold Kernel.entryAt at hz hset'
    rw [pte_of_pde h0] at hz
    rw [pte_of_pde (by rwa [hsame]), hsame, hword] at hset'
    exact hset' hz

end MapCall

theorem mapping_kernelSame_iff (h : k.Inv True pool) (hax : regs.ax = 4 ∨ regs.ax = 5)
    (hok : k.step (.systemCall regs) = .ok k') :
    KernelSame k k' ↔ k.StaysUser k.currentProc regs.cx regs.bx := by
  have key : ∀ {g x flag r}, MapCall k regs g x flag r k' → ∀ {own}, Owned g own pool →
      Agree own k → (KernelSame k k' ↔ k.StaysUser k.currentProc regs.cx regs.bx) := by
    intro g x flag r hM own hO hA
    constructor
    · intro hS
      by_contra hstay
      exact hM.not_kernelSame h hO hA hstay hS
    · exact hM.kernelSame h hO hA
  cases hax with
  | inl h4 =>
    obtain ⟨r, hM, -⟩ := step_openPhysicalMemory h4 hok
    exact key hM h.owned (Agree.refl k)
  | inr h5 =>
    obtain ⟨f, g, r, hf, hM, -⟩ := step_allocMemory h h5 hok
    obtain ⟨hO, hA⟩ := inHand_owned hf
    exact key hM hO hA

/-! ## Every call -/

/-- **The kernel half.** In every state that careful entries reach, a system call with any
registers leaves the kernel half as it is, unless it is a mapping call; and that one does so
exactly if the free pages its range starts with lie in the user half. -/
theorem run_kernelSame_iff (hB : k.Boot kernelPDE) (hinit : k.initProc kernelPDE ip = .ok k₁)
    (hrun : Run EntersCarefully k₁ es k₂) (hadm : k₂.Admissible (.systemCall regs))
    (hcare : regs.ax ≠ 5 → k₂.Careful (.systemCall regs))
    (hok : k₂.step (.systemCall regs) = .ok k₃) :
    KernelSame k₂ k₃ ↔
      (regs.ax = 4 ∨ regs.ax = 5 → k₂.StaysUser k₂.currentProc regs.cx regs.bx) := by
  obtain ⟨pool, -, h⟩ := hB.run_inv hinit hrun
  by_cases hmap : regs.ax = 4 ∨ regs.ax = 5
  · rw [mapping_kernelSame_iff h hmap hok]
    exact ⟨fun hstay _ => hstay, fun hstay => hstay hmap⟩
  · have hne : regs.ax ≠ 5 := fun h5 => hmap (Or.inr h5)
    exact ⟨fun _ hc => absurd hc hmap,
      fun _ => kernelSame_of_not_mapping h hmap hadm (hcare hne) hok⟩

/-- A page just below `PAGE_OFFSET`. -/
theorem run_kernelSame_iff_last : ∃ k k₁ k₂ k₃ : Kernel, k.Boot 0 ∧ k.initProc 0 0 = .ok k₁ ∧
    Run EntersCarefully k₁ [.createProcess 0 0 100, call 6 0 0 0] k₂ ∧
      k₂.step (call 4 0xB8000 0xBFFFE000 1) = .ok k₃ ∧ KernelSame k₂ k₃ := by
  obtain ⟨k, k₁, k₂, k₃, hB, hinit, hrun, hs, hret⟩ := run_of_booted_step (a := 0xC0400000)
    (n := 0x400000) (l := [.createProcess 0 0 100, call 6 0 0 0]) (e := call 4 0xB8000 0xBFFFE000 1)
    (P := fun _ _ => True) (by decide +kernel)
  have hreach := run_of_plain (by simp [Plain, call, noRegs]) hrun
  refine ⟨k, k₁, k₂, k₃, hB, hinit, hreach, hs.2, (run_kernelSame_iff hB hinit hreach hs.1
    (fun _ => careful_of_plain (Or.inr (Or.inl rfl))) hs.2).mpr fun _ i hi _ => ?_⟩
  obtain rfl : i = 0 := Nat.lt_one_iff.mp hi
  rw [nthPage_zero]
  decide

/-- A process maps a page of its choice at an address of the kernel. -/
theorem not_run_kernelSame : ¬ ∀ (k k₁ k₂ k₃ : Kernel) (kernelPDE ip : Nat) (es : List Event)
    (regs : StackFrame), k.Boot kernelPDE → k.initProc kernelPDE ip = .ok k₁ → Run Enters k₁ es k₂ →
      k₂.Enters (.systemCall regs) k₃ → KernelSame k₂ k₃ := by
  intro hall
  obtain ⟨k, k₁, k₂, k₃, hB, hinit, hrun, hs, hz⟩ := run_of_booted_step (a := 0xC0400000)
    (n := 0x400000) (l := [.createProcess 0 0 100, call 6 0 0 0])
    (e := call 4 0xB8000 0xF0000000 1)
    (P := fun k _ => k.entryAt k.currentProc 0xF0000000 = 0) (by decide +kernel)
  obtain ⟨pool, -, h⟩ := hB.run_inv hinit (run_of_plain (by simp [Plain, call, noRegs]) hrun)
  have hstay := (mapping_kernelSame_iff h (Or.inl rfl) hs.2).mp
    (hall k k₁ k₂ k₃ 0 0 _ _ hB hinit hrun hs)
  -- the one page of the range is free and lies in the kernel half
  have huser := hstay 0 (by decide) fun j hj => by
    rw [Nat.le_zero.mp hj, nthPage_zero]
    exact hz
  rw [nthPage_zero] at huser
  exact absurd huser (by decide)

end Kernel

end NorlitOS
