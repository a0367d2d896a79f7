import NorlitOS.Process.Isolation

/-!
# Process identifiers

A process keeps the identifier `newProcess` gives it, the first one that is not in use. There are
fewer processes than words of memory, so no identifier is `0xFFFFFFFF`, the source that `RECEIVE`
returns for an interrupt.
-/

namespace NorlitOS

open Dyadic Ledger

namespace Kernel

variable {k k' k₁ k₂ : Kernel} {phy : Prop} {pool : Set Nat} {p q t x source msg flag : Nat}
  {edx ecx ebx kernelPDE ip n : Nat} {regs : StackFrame} {ev : Event} {es : List Event}

/-- The processes of `k'` are processes of `k` and have the same identifiers. -/
structure SameIds (k k' : Kernel) : Prop where
  ring : k'.processTable.Sublist k.processTable
  pid : ∀ q ∈ k'.processTable, (k'.proc q).pid = (k.proc q).pid

namespace SameIds

theorem mem (h : SameIds k k') (q : Nat) (hq : q ∈ k'.processTable) : q ∈ k.processTable :=
  h.ring.subset hq

theorem trans (h₁ : SameIds k k₁) (h₂ : SameIds k₁ k₂) : SameIds k k₂ where
  ring := h₂.ring.trans h₁.ring
  pid q hq := (h₂.pid q hq).trans (h₁.pid q (h₂.mem q hq))

/-- Where the ring is the same it is enough that no identifier changes. -/
theorem of_eq (hring : k'.processTable = k.processTable)
    (hproc : ∀ q, (k'.proc q).pid = (k.proc q).pid) : SameIds k k' where
  ring := by rw [hring]
  pid q _ := hproc q

/-- Records that are not touched have their identifiers. -/
theorem of_proc (hring : k'.processTable = k.processTable) (hproc : k'.proc = k.proc) :
    SameIds k k' := of_eq hring fun q => by rw [hproc]

end SameIds

/-- One record has been updated, and its identifier was left alone. -/
theorem modProc_pid {f : Process → Process} (hf : ∀ P, (f P).pid = P.pid) (q : Nat) :
    ((k.modProc p f).proc q).pid = (k.proc q).pid := by
  rw [modProc_proc]
  split
  · next h =>
    rw [h]
    exact hf _
  · rfl

/-! ## What keeps the identifiers

Only `newProcess` writes `pid`. Every step of the kernel but this one keeps the identifiers of
those that are left; the list follows the ways a system call can end. -/

/-- Registers are not in the record of a process. -/
theorem SameButRegs.sameIds (hS : SameButRegs k k') : SameIds k k' :=
  .of_proc hS.processTable hS.proc

theorem SameRunning.sameIds (hS : SameRunning k k') : SameIds k k' :=
  .of_proc hS.processTable hS.proc

theorem Scheduled.sameIds (hS : Scheduled k flag k') : SameIds k k' :=
  .of_eq hS.processTable fun q => by rw [hS.proc]

/-- A message handed over changes counters. -/
theorem Handed.sameIds (hH : Handed k p t source x k') : SameIds k k' := by
  refine .of_eq hH.processTable fun q => ?_
  rw [hH.proc]
  apply modProc_pid
  exact fun _ => rfl

/-- A message queued changes the buffer. -/
theorem Queued.sameIds (hQ : Queued k p msg k') : SameIds k k' := by
  refine .of_eq hQ.processTable fun q => ?_
  rw [hQ.proc]
  apply modProc_pid
  exact fun _ => rfl

/-- A message taken changes the buffer too. -/
theorem Taken.sameIds (hT : Taken k ecx k') : SameIds k k' := by
  refine .of_eq hT.processTable fun q => ?_
  rw [hT.proc]
  apply modProc_pid
  exact fun _ => rfl

/-- A thread that begins to wait changes counters, and the scheduler runs. -/
theorem Waiting.sameIds (hW : Waiting k k') : SameIds k k' := by
  refine .of_eq hW.processTable fun q => ?_
  by_cases hq : q = k.currentProc
  · rw [hq, hW.self]
  · rw [hW.other q hq]

/-- A new thread changes the list of threads. -/
theorem Spawned.sameIds {own : Owner → Option Nat} (hS : Spawned k own phy pool p t k') :
    SameIds k k' := by
  obtain ⟨l, -, hproc⟩ := hS.proc
  refine .of_eq hS.processTable fun q => ?_
  rw [hproc]
  apply modProc_pid
  exact fun _ => rfl

/-- A thread that goes may take its process with it. -/
theorem Disposed.sameIds (hD : Disposed k pool p t k') : SameIds k k' where
  ring := by
    rw [hD.processTable]
    split
    · exact List.erase_sublist
    · exact List.Sublist.refl _
  pid q hq := by
    by_cases hqp : q = p
    · rw [hqp] at hq ⊢
      exact hD.pid hq
    · rw [hD.other q hqp]

/-- The ring without the process is in the same order. -/
theorem Exited.sameIds (hE : Exited k pool p k') (hnd : k.processTable.Nodup) : SameIds k k' where
  ring := by
    rw [hE.processTable]
    exact List.erase_sublist
  pid q hq := by
    rw [hE.processTable, hnd.mem_erase_iff] at hq
    rw [hE.other q hq.1]

/-- `SYSCALL_SEND`. -/
theorem Sent.sameIds (hS : Sent k edx ecx ebx k') : SameIds k k' := by
  cases hS with
  | accepted _ _ _ hacc heq =>
    rw [heq]
    cases hacc with
    | handed _ _ hH => exact hH.sameIds.trans (sameButRegs_setAx 1).sameIds
    | queued _ _ hQ => exact hQ.sameIds.trans (sameButRegs_setAx 1).sameIds
  | refused _ _ heq =>
    rw [heq]
    exact (sameButRegs_setAx _).sameIds

/-- `SYSCALL_RECEIVE`. -/
theorem Received.sameIds (hR : Received k ecx k') : SameIds k k' := by
  cases hR with
  | took _ hU _ hT heq =>
    rw [heq]
    exact (hU.toSameRunning.sameIds.trans hT.sameIds).trans (sameButRegs_setAx _).sameIds
  | waits _ hU _ hW => exact hU.toSameRunning.sameIds.trans hW.sameIds
  | refused _ heq =>
    rw [heq]
    exact (sameButRegs_setAx _).sameIds

/-- An interrupt. -/
theorem Interrupted.sameIds (hI : Interrupted k p k') : SameIds k k' := by
  cases hI with
  | handed _ _ _ _ hH => exact hH.sameIds
  | queued _ _ _ _ hQ => exact hQ.sameIds
  | full _ _ heq =>
    rw [heq]
    exact .of_proc rfl rfl

/-- A call that maps memory leaves the records alone. -/
theorem MapCall.sameIds {g : Heap} {r : Nat × Kernel} {own : Owner → Option Nat}
    (hM : MapCall k regs g x flag r k') (h : k.Inv True pool) (hO : Owned g own pool)
    (hA : Agree own k) : SameIds k k' := by
  obtain ⟨⟨own', pool', hE⟩, -⟩ := hM.extended h hO hA
  exact .of_proc (hM.processTable.trans hE.processTable) (hM.proc.trans hE.proc)

/-- Both of these calls. -/
theorem mapping_sameIds (h : k.Inv True pool) (hax : regs.ax = 4 ∨ regs.ax = 5)
    (hok : k.step (.systemCall regs) = .ok k') : SameIds k k' := by
  cases hax with
  | inl h4 =>
    obtain ⟨r, hM, -⟩ := step_openPhysicalMemory h4 hok
    exact hM.sameIds h h.owned (Agree.refl k)
  | inr h5 =>
    obtain ⟨f, g, r, hf, hM, -⟩ := step_allocMemory h h5 hok
    obtain ⟨hO, hA⟩ := inHand_owned hf
    exact hM.sameIds h hO hA

/-- The calls that do not map. -/
theorem systemCall_sameIds {eax : Nat} (h : k.Inv phy pool)
    (hcx : (k.thr k.currentThread).regs.cx = ecx) (hmap : ¬ (eax = 4 ∨ eax = 5))
    (hdis : eax = 3 → k.Disposable (k.disposeTarget edx))
    (hwin : eax = 3 → k.NormalWindow (k.thr (k.disposeTarget edx)).process (k.disposeTarget edx))
    (hwins : 6 < eax → k.NormalWindows k.currentProc) :
    Yields (k.systemCall eax edx ecx ebx) (SameIds k) := by
  match eax with
  | 0 => exact (sysSend_spec h).mono fun _ hk' => hk'.2.sameIds
  | 1 => exact (sysReceive_spec h hcx).mono fun _ hk' => hk'.2.sameIds
  | 2 =>
    refine (sysCreateThread_spec h).mono fun k' hk' => ?_
    obtain ⟨-, k₁, v, rfl, hor⟩ := hk'
    rcases hor with rfl | ⟨t, hS⟩
    · exact (sameButRegs_setAx v).sameIds
    · exact hS.sameIds.trans (sameButRegs_setAx v).sameIds
  -- disposing takes numbers away and changes none
  | 3 =>
    obtain ⟨p, hp, ht, -⟩ := hdis rfl
    have hwin' := hwin rfl
    rw [(h.procOk hp).back _ ht] at hwin'
    exact (sysDisposeThread_spec h hp ht hwin').mono fun _ hk' => hk'.2.sameIds
  | 4 => exact absurd (Or.inl rfl) hmap
  | 5 => exact absurd (Or.inr rfl) hmap
  | 6 =>
    refine (sysNice_spec h).mono fun k' hk' => ?_
    obtain ⟨-, k₁, hS, rfl⟩ := hk'
    exact hS.sameIds.trans (.of_eq rfl (modProc_pid fun _ => rfl))
  | n + 7 =>
    exact (exceptionHandler_spec h (hwins (by omega))).mono
      fun _ hk' => hk'.2.sameIds h.threads.nodup

/-- A page fault grows a stack or ends a process. -/
theorem pageFaultHandler_sameIds {addr : Nat} (h : k.Inv phy pool)
    (hz : k.GrowsStack addr → k.pte k.currentProc (va2pde addr) (va2pte addr) = 0)
    (hw : ¬ k.GrowsStack addr → k.NormalWindows k.currentProc) :
    Yields (k.pageFaultHandler addr) (SameIds k) := by
  show Yields (if growsStack (k.thr k.currentThread) addr then _ else _) _
  by_cases hg : k.GrowsStack addr
  · rw [if_pos (show growsStack (k.thr k.currentThread) addr = true from hg)]
    exact (growStack_spec h hg (hz hg)).mono fun _ hk' => .of_proc hk'.2.2 hk'.2.1
  · rw [if_neg (show ¬ growsStack (k.thr k.currentThread) addr = true from hg)]
    exact (exceptionHandler_spec h (hw hg)).mono fun _ hk' => hk'.2.sameIds h.threads.nodup

/-- **Identifiers do not change.** Every careful entry but `createProcess` keeps them. -/
theorem EntersCarefully.sameIds (hs : k.EntersCarefully ev k') (h : k.Inv True pool)
    (hev : ∀ ip privilege priority, ev ≠ .createProcess ip privilege priority) : SameIds k k' := by
  obtain ⟨hcare, hadm, hok⟩ := hs
  have hsave : ∀ regs, SameIds k (k.save regs) := fun regs => (sameButRegs_save regs).sameIds
  cases ev with
  | createProcess ip privilege priority => exact absurd rfl (hev ip privilege priority)
  | disposeProcess p =>
    exact ((disposeProcess_spec h hadm.mem hcare).elim hok).2.sameIds h.threads.nodup
  | systemCall regs =>
    by_cases hmap : regs.ax = 4 ∨ regs.ax = 5
    · exact mapping_sameIds h hmap hok
    · obtain ⟨-, hwin, hwins⟩ := hcare
      refine (hsave regs).trans ((systemCall_sameIds h.save save_cx hmap hadm.1 (fun h3 => ?_)
        fun h6 => normalWindows_save.mpr (hwins h6)).elim hok)
      -- the thread is found as before the registers were stored
      have htarget : (k.save regs).disposeTarget regs.dx = k.disposeTarget regs.dx := rfl
      rw [htarget, (sameButRegs_save regs).thr_process]
      exact normalWindow_save.mpr (hwin h3)
  | interrupt regs p =>
    exact (hsave regs).trans ((sendInterrupt_spec h.save hadm).elim hok).2.sameIds
  | tick regs =>
    obtain ⟨-, k₁, hT, hS⟩ := (timerTick_spec h.save).elim hok
    have hT' : SameIds (k.save regs) k₁ := .of_eq hT.processTable fun q => by rw [hT.proc]
    exact ((hsave regs).trans hT').trans hS.sameIds
  | pageFault regs cr2 =>
    have hgrows : (k.save regs).GrowsStack cr2 ↔ k.GrowsStack cr2 := by
      unfold GrowsStack
      rw [growsStack_save]
    refine (hsave regs).trans ((pageFaultHandler_sameIds h.save (fun hg => ?_) fun hg => ?_).elim hok)
    · exact (save_pte _ _ _).trans (hadm.1 (hgrows.mp hg))
    · exact normalWindows_save.mpr (hcare fun hg' => hg (hgrows.mpr hg'))
  | exception regs =>
    exact (hsave regs).trans (((exceptionHandler_spec h.save (normalWindows_save.mpr hcare)).elim
      hok).2.sameIds h.threads.nodup)

/-! ## New identifiers

`newProcess` looks through the ring, which is in the order of the identifiers, for the first
number that is missing. So a new identifier is at most one above the number of processes, and the
order is kept. -/

/-- The number of words of the managed memory. -/
def MANAGED_WORDS : Nat := 0x30000000

/-- Every record has a word of the memory to itself. -/
theorem Inv.length_processTable (h : k.Inv phy pool) : k.processTable.length ≤ MANAGED_WORDS := by
  have hsub : k.processTable.toFinset ⊆ (Finset.Ico 0xC0000000 0xF0000000).image (· + 4) := by
    intro p hp
    have hmem := List.mem_toFinset.mp hp
    have hrec : k.frameOf (.record p) = some (p - 4) := if_pos hmem
    have hin := h.owned.mem_managed hrec
    have hlow : 0xC0000000 ≤ p - 4 := hin.1
    have hhigh : p - 4 < 0xF0000000 := hin.2
    exact Finset.mem_image.mpr ⟨p - 4, Finset.mem_Ico.mpr ⟨hlow, hhigh⟩, by omega⟩
  calc k.processTable.length = k.processTable.toFinset.card :=
        (List.toFinset_card_of_nodup h.threads.nodup).symm
    _ ≤ ((Finset.Ico 0xC0000000 0xF0000000).image (· + 4)).card := Finset.card_le_card hsub
    _ ≤ (Finset.Ico 0xC0000000 0xF0000000).card := Finset.card_image_le
    _ = MANAGED_WORDS := by rw [Nat.card_Ico, MANAGED_WORDS]

/-- Each process that is passed counts one further. -/
theorem insertById_le {id : Nat → Nat} {new : Nat} {l : List Nat} :
    (insertById id new n l).1 ≤ n + l.length := by
  induction l generalizing n with
  | nil => exact le_rfl
  | cons e l ih =>
    rw [insertById]
    split
    · exact Nat.le_add_right n _
    · have hrest := ih (n := n + 1)
      rw [List.length_cons]
      exact hrest.trans (by omega)

/-- The counting starts with one, behind Init. -/
theorem insertProcess_le {id : Nat → Nat} {new : Nat} {ring : List Nat} :
    (insertProcess id new ring).1 ≤ ring.length + 1 := by
  cases ring with
  | nil => exact le_rfl
  | cons init ring =>
    have hle : (insertById id new 1 ring).1 ≤ 1 + ring.length := insertById_le
    show (insertById id new 1 ring).1 ≤ (init :: ring).length + 1
    rw [List.length_cons]
    omega

/-- The identifiers in use are small. -/
def SmallIds (k : Kernel) : Prop := ∀ q ∈ k.processTable, (k.proc q).pid ≤ MANAGED_WORDS + 1

/-- Identifiers that do not change stay small. -/
theorem SameIds.small (hS : SameIds k k') (h : k.SmallIds) : k'.SmallIds := fun q hq => by
  rw [hS.pid q hq]
  exact h q (hS.mem q hq)

/-- A new one is small as well, since a process takes more than a word of memory. -/
theorem Created.small (hC : Created k phy pool p k') (hinv : k.Inv phy pool) (h : k.SmallIds) :
    k'.SmallIds := by
  intro q hq
  by_cases hqp : q = p
  · -- the new one is the first that is not in use
    obtain ⟨id, -, hins⟩ := hC.numbered
    have hpid : (insertProcess id p k.processTable).1 = (k'.proc p).pid := by rw [hins]
    rw [hqp, ← hpid]
    exact insertProcess_le.trans (Nat.succ_le_succ hinv.length_processTable)
  · rw [hC.other q hqp]
    exact h q ((List.mem_cons.mp (hC.ring.mem_iff.mp hq)).resolve_left hqp)

/-- Behind Init the ring is in the order of the identifiers, which are positive. -/
structure Ascending (k : Kernel) : Prop where
  positive : ∀ q ∈ k.processTable.tail, 1 ≤ (k.proc q).pid
  sorted : k.processTable.tail.Pairwise fun q r => (k.proc q).pid < (k.proc r).pid

/-- What is left of the ring is in order. -/
theorem SameIds.ascending (hS : SameIds k k') (h : k.Ascending) : k'.Ascending := by
  have hmem : ∀ q ∈ k'.processTable.tail, (k'.proc q).pid = (k.proc q).pid :=
    fun q hq => hS.pid q (List.mem_of_mem_tail hq)
  refine ⟨fun q hq => ?_, ?_⟩
  · rw [hmem q hq]
    exact h.positive q (hS.ring.tail.subset hq)
  · refine (h.sorted.sublist hS.ring.tail).imp_of_mem fun hq hr hlt => ?_
    rw [hmem _ hq, hmem _ hr]
    exact hlt

/-- The insertion keeps the order: everything in front of the new record has an identifier below
the one it gets, everything behind it has one above. -/
theorem insertById_ascending {id g : Nat → Nat} {new : Nat} {l : List Nat}
    (hnew : g new = (insertById id new n l).1) (hsame : ∀ e ∈ l, g e = id e)
    (hl : l.Pairwise fun d e => id d < id e) (hn : ∀ e ∈ l, n ≤ id e) :
    ((insertById id new n l).2.Pairwise fun d e => g d < g e) ∧
      ∀ e ∈ (insertById id new n l).2, n ≤ g e := by
  induction l generalizing n with
  | nil =>
    refine ⟨List.pairwise_singleton _ _, fun e he => ?_⟩
    rw [List.mem_singleton.mp he, hnew]
    exact le_rfl
  | cons a l ih =>
    obtain ⟨hhead, hrest⟩ := List.pairwise_cons.mp hl
    obtain ⟨hna, hnl⟩ := List.forall_mem_cons.mp hn
    obtain ⟨hsa, hsl⟩ := List.forall_mem_cons.mp hsame
    rw [insertById] at hnew ⊢
    -- the walk goes on as long as the numbers are taken
    by_cases ha : id a ≠ n
    · -- a gap in front of `a`
      rw [if_pos ha] at hnew ⊢
      have hlow : n < id a := lt_of_le_of_ne hna ha.symm
      have hall : ∀ e ∈ a :: l, n < g e := by
        refine List.forall_mem_cons.mpr ⟨hsa ▸ hlow, fun e he => ?_⟩
        rw [hsl e he]
        exact hlow.trans (hhead e he)
      refine ⟨List.pairwise_cons.mpr ⟨fun e he => by rw [hnew]; exact hall e he,
        hl.imp_of_mem fun hd he hlt => ?_⟩, List.forall_mem_cons.mpr ⟨hnew.ge, fun e he => ?_⟩⟩
      · rw [hsame _ hd, hsame _ he]
        exact hlt
      · exact (hall e he).le
    · rw [if_neg ha] at hnew ⊢
      have hid : id a = n := not_not.mp ha
      obtain ⟨hsorted, hlow⟩ := ih hnew hsl hrest fun e he => hid ▸ hhead e he
      refine ⟨List.pairwise_cons.mpr ⟨fun e he => ?_, hsorted⟩,
        List.forall_mem_cons.mpr ⟨(hsa.trans hid).ge, fun e he => (Nat.le_succ n).trans (hlow e he)⟩⟩
      rw [hsa, hid]
      exact hlow e he

/-- The new process stands where its identifier belongs. -/
theorem Created.ascending (hC : Created k phy pool p k') (hinv : k.Inv phy pool)
    (h : k.Ascending) : k'.Ascending := by
  obtain ⟨id, hid, hins⟩ := hC.numbered
  have hrun := hinv.threads.running
  cases hring : k.processTable with
  | nil =>
    rw [hring] at hrun
    exact absurd hrun List.not_mem_nil
  | cons init ring =>
    have hmem : ∀ q ∈ ring, q ∈ k.processTable := fun q hq => by
      rw [hring]
      exact List.mem_cons_of_mem init hq
    -- only the new process has a new identifier
    have hold : ∀ q ∈ ring, (k'.proc q).pid = id q ∧ id q = (k.proc q).pid := fun q hq => by
      have hqp : q ≠ p := fun hqp => hC.new (hqp ▸ hmem q hq)
      rw [hC.other q hqp]
      exact ⟨(hid q (hmem q hq)).symm, hid q (hmem q hq)⟩
    have hpos := h.positive
    have hsorted := h.sorted
    rw [hring] at hins hpos hsorted
    have hnew : (k'.proc p).pid = (insertById id p 1 ring).1 := (congrArg Prod.fst hins).symm
    have htail : k'.processTable = init :: (insertById id p 1 ring).2 := (congrArg Prod.snd hins).symm
    obtain ⟨hlt, hlow⟩ := insertById_ascending (g := fun q => (k'.proc q).pid) hnew
      (fun q hq => (hold q hq).1) (hsorted.imp_of_mem fun hq hr hlt => by
        rw [(hold _ hq).2, (hold _ hr).2]
        exact hlt) fun q hq => by
        rw [(hold q hq).2]
        exact hpos q hq
    refine ⟨?_, ?_⟩
    · rw [htail]
      exact hlow
    · rw [htail]
      exact hlt

/-- What holds of the identifiers in every state. -/
structure Numbered (k : Kernel) : Prop where
  small : k.SmallIds
  ascending : k.Ascending

/-- One entry keeps both. -/
theorem EntersCarefully.numbered (hs : k.EntersCarefully ev k') (hinv : k.Inv True pool)
    (h : k.Numbered) : k'.Numbered := by
  have hsame : ∀ {k'}, SameIds k k' → k'.Numbered := fun hS =>
    ⟨hS.small h.small, hS.ascending h.ascending⟩
  cases ev with
  | createProcess ip privilege priority =>
    have hC : Yields (k.step (.createProcess ip privilege priority)) Numbered :=
      (createProcess_spec hinv).bind fun r hr =>
        ⟨hr.2.small hinv h.small, hr.2.ascending hinv h.ascending⟩
    exact hC.elim hs.2.2
  | disposeProcess p => exact hsame (hs.sameIds hinv nofun)
  | systemCall regs => exact hsame (hs.sameIds hinv nofun)
  | interrupt regs p => exact hsame (hs.sameIds hinv nofun)
  | tick regs => exact hsame (hs.sameIds hinv nofun)
  | pageFault regs cr2 => exact hsame (hs.sameIds hinv nofun)
  | exception regs => exact hsame (hs.sameIds hinv nofun)

/-- Init has the identifier 0. -/
theorem initProc_numbered (hok : k.initProc kernelPDE ip = .ok k₁) : k₁.Numbered := by
  unfold initProc at hok
  obtain ⟨⟨d, k₂⟩, -, hok⟩ := bind_eq_ok.mp hok
  obtain ⟨⟨init, k₃⟩, -, hok⟩ := bind_eq_ok.mp hok
  cases hok
  refine ⟨fun q hq => ?_, fun q hq => absurd hq List.not_mem_nil, List.Pairwise.nil⟩
  show ((k₃.modProc init fun P => { P with pid := 0, flag := 2 }).proc q).pid ≤ _
  rw [List.mem_singleton.mp hq, modProc_proc_self]
  exact Nat.zero_le _

/-- **Identifiers.** In every state that careful entries reach the identifiers of the processes
behind Init ascend, and none is `0xFFFFFFFF`. -/
theorem Boot.run_numbered (hB : k.Boot kernelPDE) (hinit : k.initProc kernelPDE ip = .ok k₁)
    (hrun : Run EntersCarefully k₁ es k') : k'.Numbered := by
  have hI : (∃ pool, k'.Inv True pool) ∧ k'.Numbered := by
    refine Run.invariant (I := fun k' => (∃ pool, k'.Inv True pool) ∧ k'.Numbered) ?_ hrun
      ⟨⟨_, (initProc_spec hB).elim hinit⟩, initProc_numbered hinit⟩
    intro s e t hst hs
    obtain ⟨⟨pool, hinv⟩, hnum⟩ := hst
    obtain ⟨hcare, hadm, hok⟩ := hs
    obtain ⟨⟨pool', -, hinv'⟩, -⟩ := (step_spec hinv hadm hcare fun _ _ _ => trivial).elim hok
    exact ⟨⟨pool', hinv'⟩, EntersCarefully.numbered ⟨hcare, hadm, hok⟩ hinv hnum⟩
  exact hI.2

/-- Every process but Init is found under its identifier. -/
theorem Ascending.getProcessById (h : k.Ascending) (hp : p ∈ k.processTable.tail) :
    k.getProcessById (k.proc p).pid = some p := by
  have hsorted := h.sorted
  show k.processTable.tail.find? (fun q => (k.proc q).pid = (k.proc p).pid) = some p
  generalize k.processTable.tail = l at hp hsorted
  induction l with
  | nil => exact absurd hp List.not_mem_nil
  | cons a l ih =>
    obtain ⟨hhead, hrest⟩ := List.pairwise_cons.mp hsorted
    cases List.mem_cons.mp hp with
    | inl hpa =>
      rw [hpa]
      exact List.find?_cons_of_pos (decide_eq_true rfl)
    | inr hpl =>
      refine (List.find?_cons_of_neg fun heq => ?_).trans (ih hpl hrest)
      exact (hhead p hpl).ne (of_decide_eq_true heq)

end Kernel

end NorlitOS
