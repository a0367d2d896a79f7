import NorlitOS.Process.Schedule

/-!
# Threads and their counters

`ProcOk k p` is the bookkeeping of one process: its counters count its threads, and a blocked
thread is the one the process last ran, waits at an unmapped address of the user half, and keeps
the process from being scheduled. The scheduler keeps it for every process.
-/

namespace NorlitOS

open Ledger

namespace Kernel

variable {k k' : Kernel} {phy : Prop} {pool : Set Nat} {p q t flag : Nat}

/-- Thread `t` of `p` waits for a message. -/
structure Blocked (k : Kernel) (p t : Nat) : Prop where
  current : (k.proc p).current = t
  flag : (k.proc p).flag = 1
  away : p ≠ k.currentProc
  empty : (k.proc p).msgCount = 0
  user : (k.thr t).regs.cx < PAGE_OFFSET
  aligned : PAGE_SIZE ∣ (k.thr t).regs.cx
  unmapped : k.pte p (va2pde (k.thr t).regs.cx) (va2pte (k.thr t).regs.cx) = 0

/-- The threads of `p` with the flag. -/
def countFlag (k : Kernel) (p flag : Nat) : Nat :=
  (k.proc p).thread.countP fun t => (k.thr t).flag = flag

structure ProcOk (k : Kernel) (p : Nat) : Prop where
  current : (k.proc p).current ∈ (k.proc p).thread
  nodup : (k.proc p).thread.Nodup
  back : ∀ t ∈ (k.proc p).thread, (k.thr t).process = p
  flags : ∀ t ∈ (k.proc p).thread, (k.thr t).flag = 0 ∨ (k.thr t).flag = 2
  avl : (k.proc p).avlThread = k.countFlag p 0
  receiving : (k.proc p).receiving = k.countFlag p 2
  head : (k.proc p).msgHead = ((k.proc p).msgTail + (k.proc p).msgCount) % MAX_MESSAGE_COUNT
  tail : (k.proc p).msgTail < MAX_MESSAGE_COUNT
  count : (k.proc p).msgCount ≤ MAX_MESSAGE_COUNT
  blocked : ∀ t ∈ (k.proc p).thread, (k.thr t).flag = 2 → k.Blocked p t

/-- The ring of processes, the process and the thread that run, and the bookkeeping of every
process. -/
structure Threads (k : Kernel) : Prop where
  nodup : k.processTable.Nodup
  running : k.currentProc ∈ k.processTable
  currentThread : k.currentThread = (k.proc k.currentProc).current
  proc : ∀ p ∈ k.processTable, k.ProcOk p

/-- **The invariant between kernel entries.** -/
structure Inv (k : Kernel) (phy : Prop) (pool : Set Nat) : Prop where
  owned : Owned k.heap k.frameOf pool
  layout : k.Layout phy pool
  threads : k.Threads

/-- The invariant holds afterwards and the kernel half is the same. -/
structure Keeps (k : Kernel) (phy : Prop) (pool : Set Nat) (k' : Kernel) : Prop where
  inv : k'.Inv phy pool
  half : SameHalf pool k k'

/-! ## Counting

`avlThread` and `receiving` count the threads of a process by their flags. When one thread changes
its flag one counter goes up and the other one down. -/

/-- Changing the test at one element of a list without repetitions. -/
theorem countP_replace {f g : Nat → Bool} {l : List Nat} (hnd : l.Nodup) (ht : t ∈ l)
    (h : ∀ u ∈ l, u ≠ t → g u = f u) :
    l.countP g + (if f t then 1 else 0) = l.countP f + (if g t then 1 else 0) := by
  induction l with
  | nil => exact absurd ht List.not_mem_nil
  | cons a l ih =>
    obtain ⟨ha, hnd⟩ := List.nodup_cons.mp hnd
    rw [List.countP_cons, List.countP_cons]
    by_cases hat : a = t
    · subst hat
      have hrest : l.countP g = l.countP f := by
        refine List.countP_congr fun u hu => ?_
        rw [h u (List.mem_cons_of_mem a hu) fun hua => ha (hua ▸ hu)]
      rw [hrest]
      omega
    · have htl : t ∈ l := (List.mem_cons.mp ht).resolve_left (Ne.symm hat)
      have hl := ih hnd htl fun u hu => h u (List.mem_cons_of_mem a hu)
      rw [h a List.mem_cons_self hat]
      omega

/-- One thread of the process gets another flag. -/
theorem countFlag_replace (hthread : (k'.proc p).thread = (k.proc p).thread)
    (hnd : (k.proc p).thread.Nodup) (ht : t ∈ (k.proc p).thread)
    (hsame : ∀ u ≠ t, (k'.thr u).flag = (k.thr u).flag) (flag : Nat) :
    k'.countFlag p flag + (if (k.thr t).flag = flag then 1 else 0) =
      k.countFlag p flag + (if (k'.thr t).flag = flag then 1 else 0) := by
  unfold countFlag
  rw [hthread]
  have hrep := countP_replace (f := fun u => decide ((k.thr u).flag = flag))
    (g := fun u => decide ((k'.thr u).flag = flag)) hnd ht fun u _ hu => by rw [hsame u hu]
  simpa using hrep

/-- A thread that changes its flag is counted under the new one in place of the old one. -/
theorem countFlag_moved {f g : Nat} (hthread : (k'.proc p).thread = (k.proc p).thread)
    (hnd : (k.proc p).thread.Nodup) (ht : t ∈ (k.proc p).thread)
    (hsame : ∀ u ≠ t, (k'.thr u).flag = (k.thr u).flag) (hf : (k.thr t).flag = f)
    (hg : (k'.thr t).flag = g) (hne : f ≠ g) :
    k.countFlag p f = k'.countFlag p f + 1 ∧ k'.countFlag p g = k.countFlag p g + 1 := by
  have hrep := countFlag_replace hthread hnd ht hsame
  rw [hf, hg] at hrep
  have hold := hrep f
  have hnew := hrep g
  rw [if_pos rfl, if_neg hne.symm] at hold
  rw [if_pos rfl, if_neg hne] at hnew
  exact ⟨hold.symm, hnew⟩

/-- Distinct windows bound the number of threads. -/
theorem length_thread_le (hL : k.Layout phy pool) (hp : p ∈ k.processTable)
    (hnd : (k.proc p).thread.Nodup) : (k.proc p).thread.length ≤ USER_PDES := by
  -- different threads have different windows
  have hinj : ((k.proc p).thread.map fun t => (k.thr t).stacktop / 2 ^ 22 - 1).Nodup := by
    refine List.Nodup.map_on (fun t ht u hu h => ?_) hnd
    obtain ⟨i, hi⟩ := hL.window hp ht
    obtain ⟨j, hj⟩ := hL.window hp hu
    rw [hi.stacktop, hj.stacktop] at h
    refine hL.windowsApart hp ht hu ?_
    rw [hi.stacktop, hj.stacktop]
    omega
  have hsub : ((k.proc p).thread.map fun t => (k.thr t).stacktop / 2 ^ 22 - 1) ⊆
      List.range USER_PDES := by
    intro x hx
    obtain ⟨t, ht, rfl⟩ := List.mem_map.mp hx
    obtain ⟨i, hi⟩ := hL.window hp ht
    have hlt := hi.high
    rw [hi.stacktop, List.mem_range]
    omega
  have hlen := (hinj.subperm hsub).length_le
  rwa [List.length_map, List.length_range] at hlen

/-- No counter of threads wraps. -/
theorem countFlag_lt (hL : k.Layout phy pool) (hp : p ∈ k.processTable)
    (hnd : (k.proc p).thread.Nodup) (flag : Nat) : k.countFlag p flag + 1 < 2 ^ 32 := by
  have hlen := length_thread_le hL hp hnd
  have hle : k.countFlag p flag ≤ (k.proc p).thread.length := List.countP_le_length
  unfold USER_PDES at hlen
  omega

/-- A counter that is not zero counts some thread. -/
theorem countFlag_pos_iff : 0 < k.countFlag p flag ↔
    ∃ t ∈ (k.proc p).thread, (k.thr t).flag = flag := by
  unfold countFlag
  rw [List.countP_pos_iff]
  simp

/-- Threads that keep their flags are counted as before. -/
theorem countFlag_congr (hl : (k'.proc p).thread = (k.proc p).thread)
    (hf : ∀ t ∈ (k.proc p).thread, (k'.thr t).flag = (k.thr t).flag) :
    k'.countFlag p flag = k.countFlag p flag := by
  unfold countFlag
  rw [hl]
  refine List.countP_congr fun t ht => ?_
  rw [hf t ht]

/-! ## Frames

A change that keeps what the bookkeeping of a process reads keeps the bookkeeping. Only for the
threads that wait there is more to see to, because waiting is also about the mappings. -/

/-- Addresses below `PAGE_OFFSET` have entries in the user half. -/
theorem va2pde_user {x : Nat} (hx : x < PAGE_OFFSET) : va2pde x < USER_PDES := by
  unfold va2pde USER_PDES
  unfold PAGE_OFFSET at hx
  omega

/-- What the bookkeeping of `p` reads. -/
structure SameProc (k k' : Kernel) (p : Nat) : Prop where
  current : (k'.proc p).current = (k.proc p).current
  thread : (k'.proc p).thread = (k.proc p).thread
  avlThread : (k'.proc p).avlThread = (k.proc p).avlThread
  receiving : (k'.proc p).receiving = (k.proc p).receiving
  msgHead : (k'.proc p).msgHead = (k.proc p).msgHead
  msgTail : (k'.proc p).msgTail = (k.proc p).msgTail
  msgCount : (k'.proc p).msgCount = (k.proc p).msgCount
  process : ∀ t ∈ (k.proc p).thread, (k'.thr t).process = (k.thr t).process
  flag : ∀ t ∈ (k.proc p).thread, (k'.thr t).flag = (k.thr t).flag

/-- A process whose record and threads are not touched. -/
theorem SameProc.of_eq (hp : k'.proc p = k.proc p)
    (ht : ∀ t ∈ (k.proc p).thread, k'.thr t = k.thr t) : SameProc k k' p := by
  refine ⟨by rw [hp], by rw [hp], by rw [hp], by rw [hp], by rw [hp], by rw [hp], by rw [hp], ?_, ?_⟩
  · intro t h
    rw [ht t h]
  · intro t h
    rw [ht t h]

/-- Field by field: the counters count what they counted. -/
theorem ProcOk.congr (h : k.ProcOk p) (hS : SameProc k k' p)
    (hB : ∀ t ∈ (k.proc p).thread, k.Blocked p t → k'.Blocked p t) : k'.ProcOk p := by
  constructor
  case current =>
    rw [hS.current, hS.thread]
    exact h.current
  case nodup =>
    rw [hS.thread]
    exact h.nodup
  case back =>
    intro t ht
    rw [hS.thread] at ht
    rw [hS.process t ht]
    exact h.back t ht
  case flags =>
    intro t ht
    rw [hS.thread] at ht
    rw [hS.flag t ht]
    exact h.flags t ht
  case avl =>
    rw [hS.avlThread, countFlag_congr hS.thread hS.flag]
    exact h.avl
  case receiving =>
    rw [hS.receiving, countFlag_congr hS.thread hS.flag]
    exact h.receiving
  case head =>
    rw [hS.msgHead, hS.msgTail, hS.msgCount]
    exact h.head
  case tail =>
    rw [hS.msgTail]
    exact h.tail
  case count =>
    rw [hS.msgCount]
    exact h.count
  -- what a blocked thread needs is the caller's concern
  case blocked =>
    intro t ht hf
    rw [hS.thread] at ht
    rw [hS.flag t ht] at hf
    exact hB t ht (h.blocked t ht hf)

/-- A process none of whose threads is blocked. -/
theorem ProcOk.congr_running (h : k.ProcOk p) (hS : SameProc k k' p)
    (hrun : ∀ t ∈ (k.proc p).thread, ¬ k.Blocked p t) : k'.ProcOk p :=
  h.congr hS fun t ht hB => absurd hB (hrun t ht)

/-- What a thread that waits depends on: its process, its address, and that nothing is mapped
there. -/
theorem Blocked.congr (h : k.Blocked p t) (hc : (k'.proc p).current = (k.proc p).current)
    (hf : (k'.proc p).flag = (k.proc p).flag) (hcur : k'.currentProc = k.currentProc)
    (hm : (k'.proc p).msgCount = (k.proc p).msgCount) (hcx : (k'.thr t).regs.cx = (k.thr t).regs.cx)
    (hpte : ∀ a < USER_PDES, ∀ b, k'.pte p a b = k.pte p a b) : k'.Blocked p t := by
  refine ⟨hc.trans h.current, hf.trans h.flag, by rw [hcur]; exact h.away, hm.trans h.empty, ?_, ?_, ?_⟩
  · rw [hcx]
    exact h.user
  · rw [hcx]
    exact h.aligned
  · rw [hcx, hpte _ (va2pde_user h.user)]
    exact h.unmapped

/-- **The scheduler keeps the bookkeeping of every process.** -/
theorem Scheduled.procOk (hS : Scheduled k flag k') (hL : k.Layout phy pool) (hp : p ∈ k.processTable)
    (h : k.ProcOk p) : k'.ProcOk p := by
  refine h.congr ?_ fun t _ hB => ?_
  · refine ⟨?_, ?_, ?_, ?_, ?_, ?_, ?_, fun t _ => by rw [hS.thr], fun t _ => by rw [hS.thr]⟩ <;>
      rw [hS.proc]
  · -- a blocked process was not running and is not ready
    have hnext : p ≠ k'.currentProc := by
      intro heq
      have hready := hS.ready
      rw [← heq, if_neg hB.away, hB.flag] at hready
      exact absurd hready (by decide)
    refine ⟨?_, ?_, hnext, ?_, ?_, ?_, ?_⟩
    · rw [hS.proc]
      exact hB.current
    · rw [hS.proc]
      show (if p = k'.currentProc then 2 else if p = k.currentProc then flag else (k.proc p).flag) = 1
      rw [if_neg hnext, if_neg hB.away]
      exact hB.flag
    · rw [hS.proc]
      exact hB.empty
    · rw [hS.thr]
      exact hB.user
    · rw [hS.thr]
      exact hB.aligned
    · rw [hS.thr, hS.pte_user hL hp (va2pde_user hB.user)]
      exact hB.unmapped

/-- After `schedule` the running thread is the current thread of the running process. -/
theorem Scheduled.threads (hS : Scheduled k flag k') (hL : k.Layout phy pool)
    (hnd : k.processTable.Nodup) (hproc : ∀ p ∈ k.processTable, k.ProcOk p) : k'.Threads := by
  refine ⟨by rw [hS.processTable]; exact hnd, by rw [hS.processTable]; exact hS.next, ?_, ?_⟩
  · rw [hS.currentThread, hS.proc]
  · intro p hp
    rw [hS.processTable] at hp
    exact hS.procOk hL hp (hproc p hp)

/-- The scheduler keeps the invariant; only the current thread may be out of date before. -/
theorem Scheduled.inv (hS : Scheduled k flag k') (hO : Owned k.heap k.frameOf pool)
    (hL : k.Layout phy pool) (hnd : k.processTable.Nodup) (hrun : k.currentProc ∈ k.processTable)
    (hproc : ∀ p ∈ k.processTable, k.ProcOk p) : k'.Inv phy pool :=
  ⟨by rw [hS.heap, hS.frameOf hL]; exact hO, hS.layout hL hrun, hS.threads hL hnd hproc⟩

/-- The heap is no part of the bookkeeping. -/
theorem ProcOk.withHeap (h : k.ProcOk p) (h' : Heap) : ({ k with heap := h' } : Kernel).ProcOk p :=
  h.congr (SameProc.of_eq rfl fun _ _ => rfl) fun _ _ hB =>
    hB.congr rfl rfl rfl rfl rfl fun _ _ _ => rfl

theorem Threads.withHeap (h : k.Threads) (h' : Heap) : ({ k with heap := h' } : Kernel).Threads :=
  ⟨h.nodup, h.running, h.currentThread, fun p hp => (h.proc p hp).withHeap h'⟩

/-! ## The running thread

The thread that runs is the current one of the process that runs, and it does not wait. Hence
nothing waits in that process, which makes stores to its mappings harmless. -/

namespace Inv

variable (h : k.Inv phy pool)

include h

theorem procOk (hp : p ∈ k.processTable) : k.ProcOk p := h.threads.proc p hp

/-- The thread that runs is one of the process that runs. -/
theorem current_mem : k.currentThread ∈ (k.proc k.currentProc).thread := by
  rw [h.threads.currentThread]
  exact (h.procOk h.threads.running).current

omit h in
/-- The running process has no blocked thread. -/
theorem not_blocked (t : Nat) : ¬ k.Blocked k.currentProc t := fun hB => hB.away rfl

/-- No thread of the process that runs is blocked. -/
theorem flag_eq_zero (ht : t ∈ (k.proc k.currentProc).thread) : (k.thr t).flag = 0 := by
  have hp := h.procOk h.threads.running
  refine (hp.flags t ht).resolve_right fun hf => ?_
  exact not_blocked t (hp.blocked t ht hf)

/-- Processes have no threads in common. -/
theorem thread_unique (hp : p ∈ k.processTable) (hq : q ∈ k.processTable)
    (htp : t ∈ (k.proc p).thread) (htq : t ∈ (k.proc q).thread) : p = q :=
  ((h.procOk hp).back t htp).symm.trans ((h.procOk hq).back t htq)

/-- A kernel entry that changes the record of `p`, the threads of `p` and entries of `p` and of
the running process only. -/
theorem threads_of (hr : k'.processTable = k.processTable)
    (hcp : k'.currentProc = k.currentProc) (hct : k'.currentThread = k.currentThread)
    (hcur : (k'.proc p).current = (k.proc p).current)
    (hproc : ∀ q, q ≠ p → k'.proc q = k.proc q)
    (hthr : ∀ q ∈ k.processTable, q ≠ p → ∀ u ∈ (k.proc q).thread, k'.thr u = k.thr u)
    (hpte : ∀ q ∈ k.processTable, q ≠ k.currentProc → q ≠ p → ∀ a < USER_PDES, ∀ b,
      k'.pte q a b = k.pte q a b)
    (hok : k'.ProcOk p) : k'.Threads := by
  refine ⟨by rw [hr]; exact h.threads.nodup, by rw [hr, hcp]; exact h.threads.running, ?_,
    fun q hq => ?_⟩
  · rw [hct, hcp, h.threads.currentThread]
    by_cases hc : k.currentProc = p
    · rw [hc, hcur]
    · rw [hproc _ hc]
  · rw [hr] at hq
    -- the process that changed, or one that did not
    by_cases hqp : q = p
    · rw [hqp]
      exact hok
    · have hpq := hproc q hqp
      refine (h.procOk hq).congr (SameProc.of_eq hpq (hthr q hq hqp)) fun u hu hB => ?_
      exact hB.congr (by rw [hpq]) (by rw [hpq]) hcp (by rw [hpq]) (by rw [hthr q hq hqp u hu])
        (hpte q hq hB.away hqp)

/-- The threads of the others do not run. -/
theorem ne_currentThread (hq : q ∈ k.processTable) (hne : q ≠ k.currentProc)
    (ht : t ∈ (k.proc q).thread) : t ≠ k.currentThread := by
  rintro rfl
  exact hne (h.thread_unique hq h.threads.running ht h.current_mem)

end Inv

/-- `k'` differs from `k` in the heap and in what is mapped in the running process only. -/
structure SameRunning (k k' : Kernel) : Prop where
  processTable : k'.processTable = k.processTable
  currentProc : k'.currentProc = k.currentProc
  currentThread : k'.currentThread = k.currentThread
  proc : k'.proc = k.proc
  thr : k'.thr = k.thr
  pte : ∀ q ∈ k.processTable, q ≠ k.currentProc → ∀ a < USER_PDES, ∀ b,
    k'.pte q a b = k.pte q a b

theorem SameRunning.refl (k : Kernel) : SameRunning k k :=
  ⟨rfl, rfl, rfl, rfl, rfl, fun _ _ _ _ _ _ => rfl⟩

theorem SameRunning.trans {k₁ k₂ k₃ : Kernel} (h₁ : SameRunning k₁ k₂) (h₂ : SameRunning k₂ k₃) :
    SameRunning k₁ k₃ := by
  refine ⟨h₂.processTable.trans h₁.processTable, h₂.currentProc.trans h₁.currentProc,
    h₂.currentThread.trans h₁.currentThread, h₂.proc.trans h₁.proc, h₂.thr.trans h₁.thr, ?_⟩
  intro q hq hne a ha b
  rw [h₂.pte q (h₁.processTable ▸ hq) (h₁.currentProc ▸ hne) a ha b, h₁.pte q hq hne a ha b]

/-- The running process has no blocked thread whose address could be taken. -/
theorem SameRunning.threads (hS : SameRunning k k') (h : k.Inv phy pool) : k'.Threads := by
  refine h.threads_of (p := k.currentProc) hS.processTable hS.currentProc hS.currentThread
    (by rw [hS.proc]) (fun q _ => by rw [hS.proc]) (fun q _ _ u _ => by rw [hS.thr])
    (fun q hq hne _ => hS.pte q hq hne) ?_
  refine (h.procOk h.threads.running).congr_running ?_ fun t _ => Inv.not_blocked t
  exact SameProc.of_eq (by rw [hS.proc]) fun t _ => by rw [hS.thr]

/-! ## Changes of the bookkeeping only

Where heap, tables and lists are the same, no entry has changed, and with the entries the owners
and the layout stand. -/

/-- Only counters, flags, registers and the running thread differ. -/
structure SameMaps (k k' : Kernel) : Prop extends SameLists k k' where
  heap : k'.heap = k.heap
  table : k'.table = k.table
  stacktop : ∀ t, (k'.thr t).stacktop = (k.thr t).stacktop

theorem SameMaps.of_eq (hh : k'.heap = k.heap) (ht : k'.table = k.table)
    (hr : k'.processTable = k.processTable) (hp : k'.proc = k.proc)
    (hs : ∀ t, (k'.thr t).stacktop = (k.thr t).stacktop) : SameMaps k k' :=
  ⟨SameLists.of_proc hr hp, hh, ht, hs⟩

/-- Over two steps. -/
theorem SameMaps.trans {k₁ k₂ k₃ : Kernel} (h₁ : SameMaps k₁ k₂) (h₂ : SameMaps k₂ k₃) :
    SameMaps k₁ k₃ := by
  refine ⟨⟨⟨h₂.processTable.trans h₁.processTable, ?_, ?_⟩, ?_, ?_, ?_⟩,
    h₂.heap.trans h₁.heap, h₂.table.trans h₁.table, fun t => (h₂.stacktop t).trans (h₁.stacktop t)⟩
  · exact fun p => (h₂.cr3 p).trans (h₁.cr3 p)
  · exact fun p => (h₂.thread p).trans (h₁.thread p)
  · exact fun p => (h₂.msgTail p).trans (h₁.msgTail p)
  · exact fun p => (h₂.msgCount p).trans (h₁.msgCount p)
  · exact fun p => (h₂.messages p).trans (h₁.messages p)

namespace SameMaps

variable (hS : SameMaps k k')

include hS

theorem pde (p a : Nat) : k'.pde p a = k.pde p a := by
  rw [Kernel.pde, hS.pd, hS.table]
  rfl

theorem pte (p a b : Nat) : k'.pte p a b = k.pte p a b := by
  unfold Kernel.pte
  rw [hS.pde, hS.table]

theorem frameOf : k'.frameOf = k.frameOf :=
  frameOf_congr hS.toSameLists (fun q _ a _ => hS.pde q a) fun q _ a _ b _ => hS.pte q a b

theorem layout (hL : k.Layout phy pool) : k'.Layout phy pool :=
  hL.of_entries hS.toSameSpaces hS.stacktop (fun q _ a _ => hS.pde q a) fun q hq a ha b hb h0 => by
    rw [hS.pte] at h0 ⊢
    exact hL.entry hq ha hb h0

end SameMaps

/-- Stores into counters and flags of a process. -/
theorem sameMaps_modProc {g : Process → Process} (hc : ∀ P, (g P).cr3 = P.cr3)
    (hl : ∀ P, (g P).thread = P.thread) (ht : ∀ P, (g P).msgTail = P.msgTail)
    (hn : ∀ P, (g P).msgCount = P.msgCount) (hm : ∀ P, (g P).messages = P.messages) :
    SameMaps k (k.modProc p g) := by
  have hall : ∀ {α : Type} (f : Process → α), (∀ P, f (g P) = f P) →
      ∀ q, f ((k.modProc p g).proc q) = f (k.proc q) := by
    intro α f hf q
    rw [modProc_proc]
    split
    · next h => rw [h, hf]
    · rfl
  exact ⟨⟨⟨rfl, hall _ hc, hall _ hl⟩, hall _ ht, hall _ hn, hall _ hm⟩, rfl, rfl, fun _ => rfl⟩

/-- Stores into a thread that leave its stack where it is. -/
theorem sameMaps_modThr {g : Thread → Thread} (hg : ∀ T, (g T).stacktop = T.stacktop) :
    SameMaps k (k.modThr t g) := by
  refine SameMaps.of_eq rfl rfl rfl rfl fun u => ?_
  rw [modThr_thr]
  split
  · next h => rw [h, hg]
  · rfl

/-! ## Registers of the running thread

Saving the registers at an entry and writing a result at the end change the frame of one thread,
which does not wait. All of the invariant is kept. -/

/-- `k'` differs from `k` in the registers of the running thread only. -/
structure SameButRegs (k k' : Kernel) : Prop where
  heap : k'.heap = k.heap
  table : k'.table = k.table
  proc : k'.proc = k.proc
  processTable : k'.processTable = k.processTable
  currentProc : k'.currentProc = k.currentProc
  currentThread : k'.currentThread = k.currentThread
  thr : ∀ t, ∃ r, k'.thr t = { k.thr t with regs := r } ∧
    (t ≠ k.currentThread → k'.thr t = k.thr t)

/-- Where no table has changed the kernel half is the same. -/
theorem SameMaps.half (h : SameMaps k k') : SameHalf pool k k' := SameHalf.of_eq h.table h.cr3

theorem SameButRegs.half (h : SameButRegs k k') : SameHalf pool k k' :=
  SameHalf.of_eq h.table fun q => by rw [h.proc]

/-- A store into the frame of the thread that runs. -/
theorem sameButRegs_modThr {f : StackFrame → StackFrame} :
    SameButRegs k (k.modThr k.currentThread fun T => { T with regs := f T.regs }) := by
  refine ⟨rfl, rfl, rfl, rfl, rfl, rfl, fun t => ?_⟩
  rw [modThr_thr]
  by_cases ht : t = k.currentThread
  · rw [if_pos ht, ht]
    exact ⟨_, rfl, fun h => absurd rfl h⟩
  · rw [if_neg ht]
    exact ⟨(k.thr t).regs, rfl, fun _ => rfl⟩

/-- `save` at the beginning of an entry. -/
theorem sameButRegs_save (regs : StackFrame) : SameButRegs k (k.save regs) :=
  sameButRegs_modThr (f := fun _ => regs)

theorem sameButRegs_setAx (v : Nat) : SameButRegs k (k.setAx k.currentThread v) :=
  sameButRegs_modThr (f := fun r => { r with ax := v })

namespace SameButRegs

variable (hS : SameButRegs k k')

include hS

theorem thr_flag (t : Nat) : (k'.thr t).flag = (k.thr t).flag := by
  obtain ⟨r, hr, -⟩ := hS.thr t
  rw [hr]

theorem thr_process (t : Nat) : (k'.thr t).process = (k.thr t).process := by
  obtain ⟨r, hr, -⟩ := hS.thr t
  rw [hr]

/-- Mappings do not depend on registers. -/
theorem sameMaps : SameMaps k k' := by
  refine SameMaps.of_eq hS.heap hS.table hS.processTable hS.proc fun t => ?_
  obtain ⟨r, hr, -⟩ := hS.thr t
  rw [hr]

/-- Blocked threads do not run, so their registers are kept. -/
theorem inv (h : k.Inv phy pool) : k'.Inv phy pool := by
  refine ⟨by rw [hS.heap, hS.sameMaps.frameOf]; exact h.owned, hS.sameMaps.layout h.layout, ?_⟩
  refine ⟨by rw [hS.processTable]; exact h.threads.nodup,
    by rw [hS.processTable, hS.currentProc]; exact h.threads.running,
    by rw [hS.currentThread, hS.proc, hS.currentProc]; exact h.threads.currentThread, ?_⟩
  intro p hp
  rw [hS.processTable] at hp
  refine (h.procOk hp).congr ?_ fun t ht hB => ?_
  · refine ⟨?_, ?_, ?_, ?_, ?_, ?_, ?_, fun t _ => hS.thr_process t, fun t _ => hS.thr_flag t⟩ <;>
      rw [hS.proc]
  · have hthr : k'.thr t = k.thr t := by
      obtain ⟨r, -, hr⟩ := hS.thr t
      exact hr (h.ne_currentThread hp hB.away ht)
    exact hB.congr (by rw [hS.proc]) (by rw [hS.proc]) hS.currentProc (by rw [hS.proc])
      (by rw [hthr]) fun a _ b => hS.sameMaps.pte p a b

end SameButRegs

end Kernel

end NorlitOS
