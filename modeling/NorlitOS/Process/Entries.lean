import NorlitOS.Lib.Run
import NorlitOS.Process.Boot
import NorlitOS.Process.Exit
import NorlitOS.Process.Receive
import NorlitOS.Process.Send

/-!
# Runs of the kernel

A run is a sequence of kernel entries. `Admissible` is what every entry relies on: a thread that
is disposed is a live one, and Init is never disposed. `Careful` rules out the two calls that
break the ownership of frames. Every admissible and careful entry keeps the invariant, so it
holds in every state of a run that starts in `init_proc`.
-/

namespace NorlitOS

open Dyadic Ledger

namespace Kernel

variable {k k' k₁ : Kernel} {phy : Prop} {pool pool' : Set Nat} {p q t : Nat} {regs : StackFrame}
  {ev : Event}

/-- A process that may be disposed: not Init, the head of the list. -/
def Mortal (k : Kernel) (p : Nat) : Prop := p ∈ k.processTable.tail

theorem Mortal.mem (h : k.Mortal p) : p ∈ k.processTable := List.mem_of_mem_tail h

/-- A live thread whose disposal does not take Init with it. -/
def Disposable (k : Kernel) (t : Nat) : Prop :=
  ∃ p ∈ k.processTable, t ∈ (k.proc p).thread ∧ ((k.proc p).thread = [t] → k.Mortal p)

/-- The page fault is one that `pageFaultHandler` answers with a new stack page. -/
def GrowsStack (k : Kernel) (cr2 : Nat) : Prop := growsStack (k.thr k.currentThread) cr2 = true

/-- What the kernel relies on when it is entered. -/
def Admissible (k : Kernel) : Event → Prop
  | .createProcess _ _ _ => True
  | .disposeProcess p => k.Mortal p
  | .systemCall regs =>
    (regs.ax = 3 → k.Disposable (k.disposeTarget regs.dx)) ∧ (6 < regs.ax → k.Mortal k.currentProc)
  | .interrupt _ p => p ∈ k.processTable
  | .tick _ => True
  | .pageFault _ cr2 =>
    (k.GrowsStack cr2 → k.pte k.currentProc (va2pde cr2) (va2pte cr2) = 0) ∧
      (¬ k.GrowsStack cr2 → k.Mortal k.currentProc)
  | .exception _ => k.Mortal k.currentProc

/-- `SYSCALL_ALLOC_MEMORY` maps at most the page it has allocated, and no stack window that is
recycled holds a physical page. -/
def Careful (k : Kernel) : Event → Prop
  | .createProcess _ _ _ => True
  | .disposeProcess p => k.NormalWindows p
  | .systemCall regs =>
    (regs.ax = 5 → regs.bx ≤ 1) ∧
      (regs.ax = 3 → k.NormalWindow (k.thr (k.disposeTarget regs.dx)).process
        (k.disposeTarget regs.dx)) ∧
      (6 < regs.ax → k.NormalWindows k.currentProc)
  | .interrupt _ _ => True
  | .tick _ => True
  | .pageFault _ cr2 => ¬ k.GrowsStack cr2 → k.NormalWindows k.currentProc
  | .exception _ => k.NormalWindows k.currentProc

/-- No physical page is mapped, and `SYSCALL_ALLOC_MEMORY` maps one page in the user half. -/
def Owning : Event → Prop
  | .systemCall regs => regs.ax ≠ 4 ∧
      (regs.ax = 5 → regs.bx = 1 ∧ regs.cx % PAGE_SIZE = 0 ∧ regs.cx < PAGE_OFFSET)
  | _ => True

/-! ## The registers of the interrupted thread

Every entry begins by storing registers into the record of the thread that was running. The lemmas
say that this matters to none of the conditions. -/

section Save

theorem save_thread : ((k.save regs).proc p).thread = (k.proc p).thread := rfl

/-- The address in `ecx` is the one of the call. -/
theorem save_cx : ((k.save regs).thr (k.save regs).currentThread).regs.cx = regs.cx := by
  show ((k.save regs).thr k.currentThread).regs.cx = regs.cx
  rw [save, modThr_thr_self]

theorem save_stacktop (t : Nat) : ((k.save regs).thr t).stacktop = (k.thr t).stacktop :=
  (sameButRegs_save regs).sameMaps.stacktop t

theorem save_pte (p a b : Nat) : (k.save regs).pte p a b = k.pte p a b :=
  (sameButRegs_save regs).sameMaps.pte p a b

theorem Inv.save {r : StackFrame} (h : k.Inv phy pool) : (k.save r).Inv phy pool :=
  (sameButRegs_save r).inv h

/-- A window is normal as it was before. -/
theorem normalWindow_save : (k.save regs).NormalWindow p t ↔ k.NormalWindow p t := by
  unfold NormalWindow
  rw [save_stacktop]
  simp only [save_pte]

theorem normalWindows_save : (k.save regs).NormalWindows p ↔ k.NormalWindows p := by
  unfold NormalWindows
  simp only [save_thread, normalWindow_save]

/-- Whether a fault lets the stack grow is decided by what was there before. -/
theorem growsStack_save {addr : Nat} :
    growsStack ((k.save regs).thr (k.save regs).currentThread) addr =
      growsStack (k.thr k.currentThread) addr := by
  unfold growsStack
  rw [save_stacktop]
  rfl

end Save

/-! ## System calls

The number of the call decides, and each call has its specification. -/

/-- **A system call keeps the invariant.** Some calls shrink the pool: a frame mapped into the
kernel half never comes back. -/
theorem systemCall_spec {eax edx ecx ebx : Nat} (h : k.Inv phy pool)
    (hcx : (k.thr k.currentThread).regs.cx = ecx)
    (hdis : eax = 3 → k.Disposable (k.disposeTarget edx)) (hkill : 6 < eax → k.Mortal k.currentProc)
    (halloc : eax = 5 → ebx ≤ 1)
    (hwin : eax = 3 → k.NormalWindow (k.thr (k.disposeTarget edx)).process (k.disposeTarget edx))
    (hwins : 6 < eax → k.NormalWindows k.currentProc) (hphy : eax = 4 → phy) :
    Yields (k.systemCall eax edx ecx ebx) fun k' => (∃ pool' ⊆ pool, k'.Inv phy pool') ∧
      (eax ≠ 4 → (eax = 5 → ebx = 1 ∧ ecx < PAGE_OFFSET) → k'.Inv phy pool) := by
  have keep : ∀ {x : Except Stop Kernel}, Yields x (fun k' => k'.Inv phy pool) →
      Yields x fun k' => (∃ pool' ⊆ pool, k'.Inv phy pool') ∧
        (eax ≠ 4 → (eax = 5 → ebx = 1 ∧ ecx < PAGE_OFFSET) → k'.Inv phy pool) :=
    fun hx => hx.mono fun k' hk' => ⟨⟨pool, subset_rfl, hk'⟩, fun _ _ => hk'⟩
  match eax with
  | 0 => exact keep ((sysSend_spec h).mono fun _ hk' => hk'.1.inv)
  | 1 => exact keep ((sysReceive_spec h hcx).mono fun _ hk' => hk'.1.inv)
  | 2 => exact keep ((sysCreateThread_spec h).mono fun _ hk' => hk'.1.inv)
  | 3 =>
    obtain ⟨p, hp, ht, -⟩ := hdis rfl
    have hwin' := hwin rfl
    rw [(h.procOk hp).back _ ht] at hwin'
    exact keep ((sysDisposeThread_spec h hp ht hwin').mono fun _ hk' => hk'.1)
  -- the two calls that map can use up part of the pool
  | 4 =>
    refine (sysOpenPhysicalMemory_spec h (hphy rfl)).mono fun k' hk' => ⟨hk', fun hne => ?_⟩
    exact absurd rfl hne
  | 5 =>
    by_cases hone : ebx = 1 ∧ ecx < PAGE_OFFSET
    · obtain ⟨rfl, hlt⟩ := hone
      exact keep (sysAllocMemory_user h (va2pde_user hlt))
    · exact (sysAllocMemory_spec h (halloc rfl)).mono fun k' hk' =>
        ⟨hk', fun _ hc => absurd (hc rfl) hone⟩
  | 6 => exact keep ((sysNice_spec h).mono fun _ hk' => hk'.1.inv)
  | n + 7 =>
    have hn : 6 < n + 7 := by omega
    exact keep ((exceptionHandler_spec h (hwins hn)).mono fun _ hk' => hk'.1)

/-! ## Kernel entries

All entries together. `Enters` is one that the kernel returns from, and runs are sequences of
these. -/

/-- **One kernel entry** keeps the invariant. -/
theorem step_spec (h : k.Inv phy pool) (hadm : k.Admissible ev) (hcare : k.Careful ev)
    (hphy : ∀ regs, ev = .systemCall regs → regs.ax = 4 → phy) :
    Yields (k.step ev) fun k' => (∃ pool' ⊆ pool, k'.Inv phy pool') ∧
      (Owning ev → k'.Inv phy pool) := by
  have keep : ∀ {x : Except Stop Kernel}, Yields x (fun k' => k'.Inv phy pool) →
      Yields x fun k' => (∃ pool' ⊆ pool, k'.Inv phy pool') ∧ (Owning ev → k'.Inv phy pool) :=
    fun hx => hx.mono fun k' hk' => ⟨⟨pool, subset_rfl, hk'⟩, fun _ => hk'⟩
  cases ev with
  | createProcess ip privilege priority =>
    exact keep ((createProcess_spec h).bind fun r hr => hr.1)
  | disposeProcess p =>
    exact keep ((disposeProcess_spec h hadm.mem hcare).mono fun _ hk' => hk'.1)
  | systemCall regs =>
    obtain ⟨hdis, hkill⟩ := hadm
    obtain ⟨halloc, hwin, hwins⟩ := hcare
    refine (systemCall_spec h.save save_cx hdis hkill halloc (fun h3 => ?_)
      (fun h6 => normalWindows_save.mpr (hwins h6)) (hphy regs rfl)).mono fun k' hk' =>
        ⟨hk'.1, fun ho => hk'.2 ho.1 fun h5 => ⟨(ho.2 h5).1, (ho.2 h5).2.2⟩⟩
    -- storing the registers does not change which thread is meant
    have htarget : (k.save regs).disposeTarget regs.dx = k.disposeTarget regs.dx := rfl
    rw [htarget, (sameButRegs_save regs).thr_process]
    exact normalWindow_save.mpr (hwin h3)
  | interrupt regs p =>
    exact keep ((sendInterrupt_spec h.save hadm).mono fun _ hk' => hk'.1)
  | tick regs =>
    exact keep ((timerTick_spec h.save).mono fun _ hk' => hk'.1)
  | pageFault regs cr2 =>
    refine keep (pageFaultHandler_spec h.save (fun hg => ?_) fun hg => ?_)
    · rw [growsStack_save] at hg
      exact (save_pte _ _ _).trans (hadm.1 hg)
    · rw [growsStack_save] at hg
      exact normalWindows_save.mpr (hcare (by rw [GrowsStack, hg]; decide))
  | exception regs =>
    exact keep ((exceptionHandler_spec h.save (normalWindows_save.mpr hcare)).mono
      fun _ hk' => hk'.1)

/-- A `SEND` among the entries. -/
theorem sent_of_step (h : k.Inv phy pool) (hax : regs.ax = 0)
    (hok : k.step (.systemCall regs) = .ok k') : Sent (k.save regs) regs.dx regs.cx regs.bx k' := by
  change (k.save regs).systemCall regs.ax regs.dx regs.cx regs.bx = .ok k' at hok
  rw [hax] at hok
  exact ((sysSend_spec h.save).elim hok).2

/-- A `RECEIVE` among the entries. -/
theorem received_of_step (h : k.Inv phy pool) (hax : regs.ax = 1)
    (hok : k.step (.systemCall regs) = .ok k') : Received (k.save regs) regs.cx k' := by
  change (k.save regs).systemCall regs.ax regs.dx regs.cx regs.bx = .ok k' at hok
  rw [hax] at hok
  exact ((sysReceive_spec h.save save_cx).elim hok).2

/-- A kernel entry that returns. -/
def Enters (k : Kernel) (ev : Event) (k' : Kernel) : Prop := k.Admissible ev ∧ k.step ev = .ok k'

/-- A kernel entry that respects the ownership of frames. -/
def EntersCarefully (k : Kernel) (ev : Event) (k' : Kernel) : Prop := k.Careful ev ∧ k.Enters ev k'

/-- Without physical mappings every window is a normal one. -/
theorem Inv.normalWindow (h : k.Inv False pool) (hp : p ∈ k.processTable)
    (ht : t ∈ (k.proc p).thread) : k.NormalWindow p t := by
  intro a ha b hb
  have hhigh := (window_stackEntry h hp ht).high
  by_cases h0 : k.pte p a b = 0
  · rw [h0]
    rfl
  · have hn := (h.layout.entry hp (by omega) hb h0).normal
    cases hphy : isPhy (k.pte p a b) with
    | true => exact (hn hphy).elim
    | false => rfl

/-- Without physical mappings every window is normal. -/
theorem Inv.normalWindows (h : k.Inv False pool) (hp : p ∈ k.processTable) : k.NormalWindows p :=
  fun _ ht => h.normalWindow hp ht

/-- A run that maps one page at a time is careful. -/
theorem careful_of_owning (h : k.Inv False pool) (hadm : k.Admissible ev) (ho : Owning ev) :
    k.Careful ev := by
  have hrun := h.threads.running
  cases ev with
  | createProcess ip privilege priority => trivial
  | disposeProcess p => exact h.normalWindows hadm.mem
  | systemCall regs =>
    refine ⟨fun h5 => (ho.2 h5).1.le, fun h3 => ?_, fun _ => h.normalWindows hrun⟩
    obtain ⟨p, hp, ht, -⟩ := hadm.1 h3
    rw [(h.procOk hp).back _ ht]
    exact h.normalWindow hp ht
  | interrupt regs p => trivial
  | tick regs => trivial
  | pageFault regs cr2 => exact fun _ => h.normalWindows hrun
  | exception regs => exact h.normalWindows hrun

/-- **The run rule.** -/
theorem run_inv {es : List Event} (hrun : Run EntersCarefully k es k') (h : k.Inv True pool) :
    ∃ pool' ⊆ pool, k'.Inv True pool' := by
  refine Run.invariant (I := fun k => ∃ pool' ⊆ pool, k.Inv True pool') ?_ hrun
    ⟨pool, subset_rfl, h⟩
  rintro s e t ⟨pool₁, hsub, h₁⟩ ⟨hcare, hadm, hok⟩
  obtain ⟨⟨pool₂, hsub₂, h₂⟩, -⟩ :=
    (step_spec h₁ hadm hcare fun _ _ _ => trivial).elim hok
  exact ⟨pool₂, hsub₂.trans hsub, h₂⟩

/-- A kernel entry without physical mappings. -/
def EntersOwning (k : Kernel) (ev : Event) (k' : Kernel) : Prop := Owning ev ∧ k.Enters ev k'

/-- Without them every admissible entry is careful too. -/
theorem step_owning (h : k.Inv False pool) (hs : k.EntersOwning ev k') : k'.Inv False pool := by
  obtain ⟨ho, hadm, hok⟩ := hs
  have hcare := careful_of_owning h hadm ho
  refine ((step_spec h hadm hcare fun regs heq h4 => ?_).elim hok).2 ho
  subst heq
  exact ho.1 h4

end Kernel

end NorlitOS
