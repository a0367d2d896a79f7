import NorlitOS.Process.Interrupt
import NorlitOS.Process.Members

/-!
# `SYSCALL_RECEIVE`

The call first gives back what is mapped at the address. Then it maps the oldest message there,
or it blocks the running thread: `Waiting` is the state after `threadSleep` and the two stores
behind it. A process whose thread blocks has flag 1, so none of its threads runs before a sender
wakes the blocked one.
-/

namespace NorlitOS

open Dyadic Ledger

namespace Kernel

variable {k k' k₁ : Kernel} {own : Owner → Option Nat} {phy : Prop} {pool : Set Nat}
  {p q t i j a b source x f msg ecx : Nat}

/-! ## Blocking

`threadSleep` puts the thread to sleep and gives the processor away. When the scheduler comes back
to the call, another process runs, and the two stores that are left still name the thread that
called. -/

/-- A thread has a page, and page 0 is no page of the pool. -/
theorem thread_ne_zero (h : k.Inv phy pool) (hp : p ∈ k.processTable) (ht : t ∈ (k.proc p).thread) :
    t ≠ 0 := by
  have hlo := (h.owned.mem_managed (frameOf_threadPage hp ht)).1
  unfold PAGE_OFFSET at hlo
  omega

/-- The running thread asleep; `c` is the flag the process has before the scheduler runs. -/
def asleep (k : Kernel) (c : Nat) : Kernel :=
  ((k.modThr k.currentThread fun T => { T with flag := 1 }).modProc k.currentProc fun P =>
    { P with avlThread := sub32 P.avlThread 1 }).modProc k.currentProc fun P => { P with flag := c }

/-- Going to sleep is a matter of flags and counters. -/
theorem sameMaps_asleep {c : Nat} : SameMaps k (k.asleep c) := by
  have h₁ : SameMaps k (k.modThr k.currentThread fun T => { T with flag := 1 }) :=
    sameMaps_modThr fun _ => rfl
  have h₂ : SameMaps (k.modThr k.currentThread fun T => { T with flag := 1 })
      ((k.modThr k.currentThread fun T => { T with flag := 1 }).modProc k.currentProc fun P =>
        { P with avlThread := sub32 P.avlThread 1 }) :=
    sameMaps_modProc (fun _ => rfl) (fun _ => rfl) (fun _ => rfl) (fun _ => rfl) fun _ => rfl
  exact (h₁.trans h₂).trans
    (sameMaps_modProc (fun _ => rfl) (fun _ => rfl) (fun _ => rfl) (fun _ => rfl) fun _ => rfl)

/-- Naming the running thread again changes nothing. -/
theorem withCurrentThread (h : t = k.currentThread) :
    ({ k with currentThread := t } : Kernel) = k := by
  rw [h]

/-- Both branches of `threadSleep` end in `schedule(1)`. -/
theorem threadSleep_spec (h : k.Inv phy pool) :
    Yields (k.threadSleep k.currentThread) fun k' => ∃ c, Scheduled (k.asleep c) 1 k' := by
  have hback : ((k.modThr k.currentThread fun T => { T with flag := 1 }).thr
      k.currentThread).process = k.currentProc := by
    rw [modThr_thr_self]
    exact (h.procOk h.threads.running).back _ h.current_mem
  have hne := thread_ne_zero h h.threads.running h.current_mem
  unfold threadSleep
  dsimp only
  rw [hback, if_pos hne]
  split
  · unfold processSleep
    dsimp only
    rw [modProc_currentProc, modProc_currentProc, modThr_currentProc, if_pos rfl]
    exact schedule_spec.mono fun k' hk' => ⟨1, hk'⟩
  · rw [withCurrentThread (by
      rw [modProc_currentThread, modProc_currentThread, modThr_currentThread])]
    exact schedule_spec.mono fun k' hk' => ⟨0, hk'⟩

/-- The running thread waits for a message and another process runs. -/
structure Waiting (k k' : Kernel) : Prop where
  heap : k'.heap = k.heap
  processTable : k'.processTable = k.processTable
  next : k'.currentProc ∈ k.processTable
  away : k'.currentProc ≠ k.currentProc
  ready : (k.proc k'.currentProc).flag = 0
  currentThread : k'.currentThread = (k.proc k'.currentProc).current
  thr : k'.thr = (k.modThr k.currentThread fun T => { T with flag := 2 }).thr
  self : k'.proc k.currentProc = { k.proc k.currentProc with
    avlThread := sub32 (k.proc k.currentProc).avlThread 1
    receiving := add32 (k.proc k.currentProc).receiving 1
    flag := 1
    ticks := (k'.proc k.currentProc).ticks }
  other : ∀ q, q ≠ k.currentProc → k'.proc q = { k.proc q with
    flag := if q = k'.currentProc then 2 else (k.proc q).flag
    ticks := (k'.proc q).ticks }
  pte : ∀ q ∈ k.processTable, ∀ a < USER_PDES, ∀ b, k'.pte q a b = k.pte q a b

/-- The two stores behind `threadSleep`. -/
def block (k : Kernel) (p t : Nat) : Kernel :=
  (k.modThr t fun T => { T with flag := 2 }).modProc p fun P =>
    { P with receiving := add32 P.receiving 1 }

theorem sameMaps_block : SameMaps k (k.block p t) := by
  have h₁ : SameMaps k (k.modThr t fun T => { T with flag := 2 }) := sameMaps_modThr fun _ => rfl
  exact h₁.trans
    (sameMaps_modProc (fun _ => rfl) (fun _ => rfl) (fun _ => rfl) (fun _ => rfl) fun _ => rfl)

/-- The counter of one process, and its flag. -/
theorem asleep_proc {c : Nat} : (k.asleep c).proc q = if q = k.currentProc then
    { k.proc k.currentProc with
      avlThread := sub32 (k.proc k.currentProc).avlThread 1
      flag := c }
    else k.proc q := by
  unfold asleep
  rw [modProc_proc, modProc_proc_self]
  split
  · rfl
  · next h => rw [modProc_proc_of_ne h, modThr_proc]

/-- Asleep, scheduled away and marked as waiting. -/
theorem Waiting.of_scheduled {c : Nat} (h : k.Inv phy pool) (hS : Scheduled (k.asleep c) 1 k₁) :
    Waiting k (k₁.block k.currentProc k.currentThread) := by
  have hA := sameMaps_asleep (k := k) (c := c)
  have hB := sameMaps_block (k := k₁) (p := k.currentProc) (t := k.currentThread)
  have hready := hS.ready
  -- the process that called has flag 1, so it is not picked
  have haway : k₁.currentProc ≠ k.currentProc := by
    intro heq
    rw [if_pos (show k₁.currentProc = (k.asleep c).currentProc from heq)] at hready
    exact absurd hready (by decide)
  rw [if_neg (show ¬ k₁.currentProc = (k.asleep c).currentProc from haway), asleep_proc,
    if_neg haway] at hready
  refine ⟨hB.heap.trans (hS.heap.trans hA.heap), hB.processTable.trans (hS.processTable.trans
    hA.processTable), hS.next, haway, hready, ?_, ?_, ?_, fun q hq => ?_, fun q hq a ha b => ?_⟩
  · refine hS.currentThread.trans ?_
    show ((k.asleep c).proc k₁.currentProc).current = (k.proc k₁.currentProc).current
    rw [asleep_proc, if_neg haway]
  · funext u
    show ((k₁.modThr k.currentThread fun T => { T with flag := 2 }).thr u) = _
    rw [modThr_thr, modThr_thr, hS.thr, asleep, modProc_thr, modProc_thr, modThr_thr_self]
    split
    · rfl
    · next hu => rw [modThr_thr_of_ne hu]
  · unfold block
    rw [modProc_proc_self, modThr_proc, hS.proc, asleep_proc, if_pos rfl, if_neg haway.symm,
      if_pos (show k.currentProc = (k.asleep c).currentProc from rfl)]
  · unfold block
    rw [modProc_proc_of_ne hq, modThr_proc, hS.proc, asleep_proc, if_neg hq,
      if_neg (show ¬ q = (k.asleep c).currentProc from hq)]
    rfl
  · rw [hB.pte, hS.pte_user (hA.layout h.layout) hq ha, hA.pte]

namespace Waiting

variable (hW : Waiting k k')

include hW

theorem thread (q : Nat) : (k'.proc q).thread = (k.proc q).thread := by
  by_cases hq : q = k.currentProc
  · rw [hq, hW.self]
  · rw [hW.other q hq]

theorem thr_of_ne {u : Nat} (hu : u ≠ k.currentThread) : k'.thr u = k.thr u := by
  rw [hW.thr, modThr_thr_of_ne hu]

theorem thr_self : k'.thr k.currentThread = { k.thr k.currentThread with flag := 2 } := by
  rw [hW.thr, modThr_thr_self]

/-- The thread that went to sleep is blocked, and it is the only one. -/
theorem procOk_self (h : k.Inv phy pool) (hc : (k.proc k.currentProc).msgCount = 0)
    (hcx : (k.thr k.currentThread).regs.cx = ecx) (hlt : ecx < PAGE_OFFSET) (hal : PAGE_SIZE ∣ ecx)
    (hz : k.pte k.currentProc (va2pde ecx) (va2pte ecx) = 0) : k'.ProcOk k.currentProc := by
  have hrun := h.threads.running
  have hP := h.procOk hrun
  have hmem := h.current_mem
  -- one thread less is ready, and one more is blocked
  obtain ⟨hready, hblocked⟩ := countFlag_moved (hW.thread k.currentProc) hP.nodup hmem
    (fun u hu => by rw [hW.thr_of_ne hu]) (h.flag_eq_zero hmem) (g := 2) (by rw [hW.thr_self])
    (by decide)
  have hlt0 := countFlag_lt h.layout hrun hP.nodup 0
  have hlt2 := countFlag_lt h.layout hrun hP.nodup 2
  constructor
  case current =>
    rw [hW.thread, hW.self]
    exact hP.current
  case nodup =>
    rw [hW.thread]
    exact hP.nodup
  case back =>
    intro u hu
    rw [hW.thread] at hu
    by_cases hut : u = k.currentThread
    · rw [hut, hW.thr_self]
      exact hP.back _ hmem
    · rw [hW.thr_of_ne hut]
      exact hP.back u hu
  case flags =>
    intro u hu
    rw [hW.thread] at hu
    by_cases hut : u = k.currentThread
    · rw [hut, hW.thr_self]
      exact Or.inr rfl
    · rw [hW.thr_of_ne hut]
      exact hP.flags u hu
  case avl =>
    rw [hW.self]
    show sub32 (k.proc k.currentProc).avlThread 1 = k'.countFlag k.currentProc 0
    rw [hP.avl, sub32_of_le (by omega) (by omega)]
    omega
  case receiving =>
    rw [hW.self]
    show add32 (k.proc k.currentProc).receiving 1 = k'.countFlag k.currentProc 2
    rw [hP.receiving, add32_of_lt hlt2, hblocked]
  case head =>
    rw [hW.self]
    exact hP.head
  case tail =>
    rw [hW.self]
    exact hP.tail
  case count =>
    rw [hW.self]
    exact hP.count
  case blocked =>
    intro u hu hf
    rw [hW.thread] at hu
    -- the others were ready, so the one that is blocked is the one that called
    have hut : u = k.currentThread := by
      by_contra hut
      rw [hW.thr_of_ne hut, h.flag_eq_zero hu] at hf
      exact absurd hf (by decide)
    rw [hut]
    refine ⟨?_, by rw [hW.self], hW.away.symm, by rw [hW.self]; exact hc, ?_, ?_, ?_⟩
    · rw [hW.self]
      exact h.threads.currentThread.symm
    · rw [hW.thr_self, hcx]
      exact hlt
    · rw [hW.thr_self, hcx]
      exact hal
    · rw [hW.thr_self, hcx, hW.pte _ hrun _ (va2pde_user hlt)]
      exact hz

/-- The records of other processes stay well-formed. -/
theorem procOk_of_ne (h : k.Inv phy pool) (hq : q ∈ k.processTable) (hne : q ≠ k.currentProc) :
    k'.ProcOk q := by
  have hpq := hW.other q hne
  have hthr : ∀ u ∈ (k.proc q).thread, k'.thr u = k.thr u := fun u hu =>
    hW.thr_of_ne (h.ne_currentThread hq hne hu)
  refine (h.procOk hq).congr ?_ fun u hu hB => ?_
  · refine ⟨?_, ?_, ?_, ?_, ?_, ?_, ?_, fun u hu => by rw [hthr u hu], fun u hu => by rw [hthr u hu]⟩ <;>
      rw [hpq]
  · -- a blocked process is not ready, so it is not the one that runs now
    have hnext : q ≠ k'.currentProc := by
      intro heq
      have hready := hW.ready
      rw [← heq, hB.flag] at hready
      exact absurd hready (by decide)
    refine ⟨?_, ?_, hnext, ?_, ?_, ?_, ?_⟩
    · rw [hpq]
      exact hB.current
    · rw [hpq]
      show (if q = k'.currentProc then 2 else (k.proc q).flag) = 1
      rw [if_neg hnext]
      exact hB.flag
    · rw [hpq]
      exact hB.empty
    · rw [hthr u hu]
      exact hB.user
    · rw [hthr u hu]
      exact hB.aligned
    · rw [hthr u hu, hW.pte q hq _ (va2pde_user hB.user)]
      exact hB.unmapped

/-- The thread waits at an address with nothing mapped, in a process with an empty queue. -/
theorem threads (h : k.Inv phy pool) (hc : (k.proc k.currentProc).msgCount = 0)
    (hcx : (k.thr k.currentThread).regs.cx = ecx) (hlt : ecx < PAGE_OFFSET) (hal : PAGE_SIZE ∣ ecx)
    (hz : k.pte k.currentProc (va2pde ecx) (va2pte ecx) = 0) : k'.Threads := by
  refine ⟨by rw [hW.processTable]; exact h.threads.nodup,
    by rw [hW.processTable]; exact hW.next, ?_, fun q hq => ?_⟩
  · rw [hW.currentThread, hW.other _ hW.away]
  · rw [hW.processTable] at hq
    by_cases hne : q = k.currentProc
    · rw [hne]
      exact hW.procOk_self h hc hcx hlt hal hz
    · exact hW.procOk_of_ne h hq hne

end Waiting

/-- The blocking branch. -/
theorem receiveBlock_spec (h : k.Inv phy pool) (hc : (k.proc k.currentProc).msgCount = 0)
    (hcx : (k.thr k.currentThread).regs.cx = ecx) (hlt : ecx < PAGE_OFFSET) (hal : PAGE_SIZE ∣ ecx)
    (hz : k.pte k.currentProc (va2pde ecx) (va2pte ecx) = 0) :
    Yields (do
      let k₁ ← k.threadSleep k.currentThread
      .ok (k₁.block k.currentProc k.currentThread)) fun k' => Keeps k phy pool k' ∧ Waiting k k' := by
  refine (threadSleep_spec h).bind fun k₁ hk₁ => ?_
  obtain ⟨c, hS⟩ := hk₁
  have hA := sameMaps_asleep (k := k) (c := c)
  have hB := sameMaps_block (k := k₁) (p := k.currentProc) (t := k.currentThread)
  have hW := Waiting.of_scheduled h hS
  have hLA := hA.layout h.layout
  have hrunA : (k.asleep c).currentProc ∈ (k.asleep c).processTable := h.threads.running
  have hhalf : SameHalf pool k k₁ := hA.half.trans_of_eq (hS.sameHalf hLA hrunA) hA.processTable
  refine ⟨⟨⟨?_, hB.layout (hS.layout hLA hrunA), hW.threads h hc hcx hlt hal hz⟩,
    hhalf.trans_of_eq hB.half (hS.processTable.trans hA.processTable)⟩, hW⟩
  rw [hW.heap, hB.frameOf, hS.frameOf hLA, hA.frameOf]
  exact h.owned

/-! ## Taking a message

The oldest message leaves the queue and its page is mapped at the address. Both its owners in the
ledger, the slot before and the entry after, are of the running process. -/

/-- The oldest message of the running process has been mapped at `ecx`. -/
structure Taken (k : Kernel) (ecx : Nat) (k' : Kernel) : Prop where
  processTable : k'.processTable = k.processTable
  currentProc : k'.currentProc = k.currentProc
  currentThread : k'.currentThread = k.currentThread
  proc : k'.proc = (k.dequeue k.currentProc).proc
  thr : k'.thr = k.thr
  mapped : k'.pte k.currentProc (va2pde ecx) (va2pte ecx) = pageBase
    ((k.proc k.currentProc).messages (k.proc k.currentProc).msgTail % 2 ^ 32) ||| 0b11111
  pte : ∀ q ∈ k.processTable, q ≠ k.currentProc → ∀ a < USER_PDES, ∀ b,
    k'.pte q a b = k.pte q a b

/-- No thread changes, and one message less is queued. -/
theorem Taken.threads (hT : Taken k ecx k') (h : k.Inv phy pool)
    (hc : (k.proc k.currentProc).msgCount ≠ 0) : k'.Threads := by
  refine h.threads_of (p := k.currentProc) hT.processTable hT.currentProc hT.currentThread ?_ ?_
    (fun q _ _ u _ => by rw [hT.thr]) (fun q hq hne _ => hT.pte q hq hne) ?_
  · rw [hT.proc, dequeue, modProc_proc_self]
  · intro q hq
    rw [hT.proc]
    exact modProc_proc_of_ne hq
  · have hok := (h.procOk h.threads.running).dequeue hc
    refine hok.congr_running (SameProc.of_eq (by rw [hT.proc]) fun u _ => by rw [hT.thr]; rfl)
      fun u _ => Inv.not_blocked (k := k.dequeue k.currentProc) u

/-- The part of the call that takes a message. -/
theorem receiveTake_spec (h : k.Inv phy pool) (hc : (k.proc k.currentProc).msgCount ≠ 0)
    (hlt : ecx < PAGE_OFFSET) (hz : k.pte k.currentProc (va2pde ecx) (va2pte ecx) = 0) :
    Yields (do
      let msg := (k.proc k.currentProc).messages (k.proc k.currentProc).msgTail
      let (_, k₁) ← (k.dequeue k.currentProc).openPhysicalMemory k.currentProc
        (pageBase (msg % 2 ^ 32)) ecx 1 0
      .ok (k₁.setAx k₁.currentThread (msg / 2 ^ 32))) fun k' => Keeps k phy pool k' ∧
        ∃ k₁, Taken k ecx k₁ ∧ k' = k₁.setAx k₁.currentThread
          ((k.proc k.currentProc).messages (k.proc k.currentProc).msgTail / 2 ^ 32) := by
  have hrun := h.threads.running
  have hP := h.procOk hrun
  have hi := va2pde_user hlt
  set msg := (k.proc k.currentProc).messages (k.proc k.currentProc).msgTail with hmsg
  have hx := pageBase_dvd (msg % 2 ^ 32)
  have hS := dequeue_sameSpaces (k := k) (p := k.currentProc)
  have hpte : ∀ q c d, (k.dequeue k.currentProc).pte q c d = k.pte q c d :=
    fun q c d => pte_of_sameSpaces hS rfl q c d
  have hframe := frameOf_dequeue hP.tail hP.count
  -- the page leaves the queue before it is mapped
  have hslot := frameOf_slot hrun (inQueue_tail hP.tail hc)
  have hfree : k.frameOf (.pte k.currentProc (va2pde ecx) (va2pte ecx)) = none :=
    (frameOf_pte hrun hi (va2pte_lt ecx)).trans (by rw [hz, entryFrame_zero])
  have hO : Owned (k.dequeue k.currentProc).heap _ pool :=
    h.owned.move hslot hfree fun _ => by simp
  rw [← hframe] at hO
  refine (openPhysicalMemory_one (h.layout.of_sameSpaces hS rfl fun _ => rfl) hO
    (Agree.refl _).update_pte hrun hi ((hpte _ _ _).trans hz) ?_).bind fun r hr => ?_
  · rw [Nat.or_zero]
    exact entry_or hx
  obtain ⟨r, k₂⟩ := r
  obtain ⟨-, hopen⟩ := hr
  rw [Nat.or_zero] at hopen
  have hT : Taken k ecx k₂ := by
    refine ⟨hopen.processTable, hopen.currentProc, hopen.currentThread, hopen.proc, hopen.thr, ?_, ?_⟩
    · rw [hopen.pte _ hrun _ hi, if_pos ⟨rfl, rfl, rfl⟩]
    · intro q hq hne c hc d
      rw [hopen.pte q hq c hc, if_neg fun hc => hne hc.1, hpte]
  have hq : SameHalf pool k (k.dequeue k.currentProc) := SameHalf.of_eq rfl hS.cr3
  have hhalf : SameHalf pool k k₂ := hq.trans_of_eq hopen.half rfl
  refine ⟨⟨(sameButRegs_setAx _).inv ⟨?_, hopen.layout, hT.threads h hc⟩,
    hhalf.trans_of_eq (sameButRegs_setAx _).half hopen.processTable⟩, k₂, hT, rfl⟩
  rw [hopen.frames_eq hx]
  exact hopen.owned

/-! ## The whole call

`Received` has one case for each way the call can go: a message is taken, the thread waits, or the
address is not one that can be used. -/

/-- What was mapped at `ecx` in the running process has been given back. -/
structure Unmapped (k : Kernel) (ecx : Nat) (k' : Kernel) : Prop extends SameRunning k k' where
  empty : k'.pte k.currentProc (va2pde ecx) (va2pte ecx) = 0

/-- An address `SYSCALL_RECEIVE` can map a page at. -/
structure Receivable (k : Kernel) (ecx : Nat) : Prop where
  user : ecx < PAGE_OFFSET
  aligned : ecx % PAGE_SIZE = 0
  recyclable : isPhy (k.pte k.currentProc (va2pde ecx) (va2pte ecx)) = false

inductive Received (k : Kernel) (ecx : Nat) (k' : Kernel) : Prop where
  | took {k₁ k₂ : Kernel} (valid : k.Receivable ecx) (unmapped : Unmapped k ecx k₁)
      (queued : (k.proc k.currentProc).msgCount ≠ 0) (taken : Taken k₁ ecx k₂)
      (eq : k' = k₂.setAx k₂.currentThread
        ((k.proc k.currentProc).messages (k.proc k.currentProc).msgTail / 2 ^ 32))
  | waits {k₁ : Kernel} (valid : k.Receivable ecx) (unmapped : Unmapped k ecx k₁)
      (empty : (k.proc k.currentProc).msgCount = 0) (waiting : Waiting k₁ k')
  | refused (invalid : ¬ k.Receivable ecx) (eq : k' = k.setAx k.currentThread 0xFFFFFFFE)

/-- `receiveAt` at an address without a page. -/
theorem receiveAt_spec {k₀ : Kernel} (hv : k₀.Receivable ecx) (hU : Unmapped k₀ ecx k)
    (hk : Keeps k₀ phy pool k) (hcx : (k.thr k.currentThread).regs.cx = ecx) :
    Yields (k.receiveAt ecx) fun k' => Keeps k₀ phy pool k' ∧ Received k₀ ecx k' := by
  have h := hk.inv
  have hkeep : ∀ {k'}, Keeps k phy pool k' → Keeps k₀ phy pool k' := fun hk' =>
    ⟨hk'.inv, hk.half.trans_of_eq hk'.half hU.processTable⟩
  have hz := hU.empty
  rw [← hU.currentProc] at hz
  unfold receiveAt
  -- nothing queued, or the oldest message
  by_cases hc : (k.proc k.currentProc).msgCount = 0
  · rw [if_pos hc]
    refine (receiveBlock_spec h hc hcx hv.user (Nat.dvd_of_mod_eq_zero hv.aligned) hz).mono
      fun k' hk' => ⟨hkeep hk'.1, .waits hv hU ?_ hk'.2⟩
    rw [← hU.proc, ← hU.currentProc]
    exact hc
  · rw [if_neg hc]
    refine (receiveTake_spec h hc hv.user hz).mono fun k' hk' => ?_
    obtain ⟨hk', k₁, hT, heq⟩ := hk'
    refine ⟨hkeep hk', .took hv hU ?_ hT ?_⟩
    · rw [← hU.proc, ← hU.currentProc]
      exact hc
    · rw [heq, hU.proc, hU.currentProc]

/-- Giving back what an entry of the running process maps. -/
theorem unmap_spec (h : k.Inv phy pool) (hlt : ecx < PAGE_OFFSET)
    (h0 : k.pde k.currentProc (va2pde ecx) ≠ 0)
    (hne : k.pte k.currentProc (va2pde ecx) (va2pte ecx) ≠ 0)
    (hphy : isPhy (k.pte k.currentProc (va2pde ecx) (va2pte ecx)) = false) :
    ∃ h', k.recyclePhysicalPage (pageBase (k.pte k.currentProc (va2pde ecx) (va2pte ecx))) =
        .ok { k with heap := h' } ∧
      Keeps k phy pool (({ k with heap := h' } : Kernel).setWord
        (frameAt (k.pde k.currentProc (va2pde ecx))) (va2pte ecx) 0) ∧
      Unmapped k ecx (({ k with heap := h' } : Kernel).setWord
        (frameAt (k.pde k.currentProc (va2pde ecx))) (va2pte ecx) 0) := by
  have hrun := h.threads.running
  have hi := va2pde_user hlt
  have hj := va2pte_lt ecx
  -- the entry owns the page, since it is not a physical mapping
  have hown : k.frameOf (.pte k.currentProc (va2pde ecx) (va2pte ecx)) =
      some (frameAt (k.pte k.currentProc (va2pde ecx) (va2pte ecx))) := by
    rw [frameOf_pte hrun hi hj, entryFrame_of hne hphy]
  obtain ⟨h', hok, hO⟩ := recyclePhysicalPage_spec h.owned hown
  have hL := h.layout.withHeap h'
  set k₁ := ({ k with heap := h' } : Kernel).setWord
    (frameAt (k.pde k.currentProc (va2pde ecx))) (va2pte ecx) 0 with hk₁
  have hpte : ∀ q ∈ k.processTable, ∀ a < USER_PDES, ∀ b, k₁.pte q a b =
      if q = k.currentProc ∧ a = va2pde ecx ∧ b = va2pte ecx then 0 else k.pte q a b :=
    fun q hq a ha b => pte_setEntry hL hrun hi h0 hq ha b
  have hS : SameRunning k k₁ := by
    refine ⟨rfl, rfl, rfl, rfl, rfl, fun q hq hqs a ha b => ?_⟩
    exact (hpte q hq a ha b).trans (if_neg fun hc => hqs hc.1)
  refine ⟨h', hok, ⟨⟨?_, hL.setEntry hrun hi h0 fun hc => absurd rfl hc, ?_⟩,
    (hL.half_setEntry hrun hi h0).of_heap⟩, ⟨hS, ?_⟩⟩
  · have hframes := frameOf_setEntry (v := 0) hL hrun hi h0 hj
    rw [entryFrame_zero] at hframes
    show Owned h' _ pool
    exact hframes ▸ hO
  · exact hS.threads h
  · exact (hpte _ hrun _ hi _).trans (if_pos ⟨rfl, rfl, rfl⟩)

/-- **`SYSCALL_RECEIVE`** keeps the invariant and the kernel half. -/
theorem sysReceive_spec (h : k.Inv phy pool) (hcx : (k.thr k.currentThread).regs.cx = ecx) :
    Yields (k.sysReceive ecx) fun k' => Keeps k phy pool k' ∧ Received k ecx k' := by
  have hrun := h.threads.running
  have hrefuse : ¬ k.Receivable ecx → Keeps k phy pool (k.setAx k.currentThread 0xFFFFFFFE) ∧
      Received k ecx (k.setAx k.currentThread 0xFFFFFFFE) :=
    fun hv => ⟨⟨(sameButRegs_setAx _).inv h, (sameButRegs_setAx _).half⟩, .refused hv rfl⟩
  unfold sysReceive
  rw [frameAt_cr3 h.layout hrun]
  simp only [show ∀ i, k.table (k.pd k.currentProc) i = k.pde k.currentProc i from fun _ => rfl]
  by_cases hc : ecx < PAGE_OFFSET ∧ ecx % PAGE_SIZE = 0
  · rw [if_pos hc]
    have hi := va2pde_user hc.1
    have hj := va2pte_lt ecx
    by_cases hpres : (k.pde k.currentProc (va2pde ecx)).testBit 0 = true ∧
        (k.table (frameAt (k.pde k.currentProc (va2pde ecx))) (va2pte ecx)).testBit 0 = true
    · rw [if_pos hpres]
      -- a page is mapped there: it is recycled first, or the call is refused
      have h0 := ne_zero_of_testBit hpres.1
      have hodd := hpres.2
      rw [← pte_of_pde (j := va2pte ecx) h0] at hodd ⊢
      by_cases hphy : isPhy (k.pte k.currentProc (va2pde ecx) (va2pte ecx)) = true
      · rw [if_pos hphy]
        exact hrefuse fun hv => absurd hphy (by rw [hv.recyclable]; decide)
      · rw [if_neg hphy]
        rw [Bool.not_eq_true] at hphy
        obtain ⟨h', hok, hkeep, hU⟩ := unmap_spec h hc.1 h0 (ne_zero_of_testBit hodd) hphy
        rw [hok, ok_bind]
        exact receiveAt_spec ⟨hc.1, hc.2, hphy⟩ hU hkeep hcx
    · rw [if_neg hpres]
      -- an entry that is not zero is present
      have hz : k.pte k.currentProc (va2pde ecx) (va2pte ecx) = 0 := by
        by_contra hne
        have h0 : k.pde k.currentProc (va2pde ecx) ≠ 0 := fun h0 => hne (pte_of_no_pde h0)
        refine hpres ⟨h.layout.pdeOdd hrun hi h0, ?_⟩
        have hodd := h.layout.pteOdd hrun hi hj hne
        rwa [pte_of_pde h0] at hodd
      have hv : k.Receivable ecx := ⟨hc.1, hc.2, by rw [hz]; rfl⟩
      exact receiveAt_spec hv ⟨SameRunning.refl k, hz⟩ ⟨h, SameHalf.refl k⟩ hcx
  · rw [if_neg hc]
    exact hrefuse fun hv => hc ⟨hv.user, hv.aligned⟩

end Kernel

end NorlitOS
