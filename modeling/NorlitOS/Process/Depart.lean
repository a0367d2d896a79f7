import NorlitOS.Process.Create
import NorlitOS.Process.Recycle
import NorlitOS.Process.Switch

/-!
# A thread leaves its process

The first part of `disposeThread`: the thread leaves the list of its process, its stack window is
freed and cleared, and the counters follow. The page of the thread itself stays allocated until
the end, so the ledger has it although no list does.
-/

namespace NorlitOS

open Dyadic Ledger

namespace Kernel

variable {k k' k₁ : Kernel} {own : Owner → Option Nat} {phy : Prop} {pool : Set Nat}
  {p q t u i c f : Nat}

/-- The record of a process that has lost its thread `t`, whose flag was `flag`. -/
def departed (t flag : Nat) (P : Process) : Process :=
  { P with
    thread := P.thread.erase t
    receiving := if flag = 2 then sub32 P.receiving 1 else P.receiving
    avlThread := if flag = 0 then sub32 P.avlThread 1 else P.avlThread }

/-- No physical page is mapped in the stack window of thread `t` of `p`. -/
def NormalWindow (k : Kernel) (p t : Nat) : Prop :=
  ∀ a, a = stackEntry (k.thr t).stacktop ∨ a = stackEntry (k.thr t).stacktop - 1 →
    ∀ b < 1024, isPhy (k.pte p a b) = false

/-- `k'` is `k` without the thread `t` and the tables of its window; the heap may differ. -/
structure Departed (k : Kernel) (p t : Nat) (k' : Kernel) : Prop where
  processTable : k'.processTable = k.processTable
  currentProc : k'.currentProc = k.currentProc
  currentThread : k'.currentThread = k.currentThread
  proc : k'.proc = (k.modProc p (departed t (k.thr t).flag)).proc
  thr : k'.thr = k.thr
  table : k'.table = ((k.setWord (k.pd p) (stackEntry (k.thr t).stacktop - 1) 0).setWord (k.pd p)
    (stackEntry (k.thr t).stacktop) 0).table

/-! ## What is left

The record loses the thread and the directory two entries, the window of its stack. The ledger
loses what the two tables owned. The page of the thread is still allocated: it is freed at the
very end. -/

/-- The record alone changes no page table. -/
theorem sameTables_departed {flag : Nat} : SameTables k (k.modProc p (departed t flag)) := by
  refine ⟨fun q => ?_, rfl⟩
  rw [modProc_proc]
  split
  · next h =>
    rw [h]
    rfl
  · rfl

theorem mem_departed {flag : Nat} (hnd : (k.proc p).thread.Nodup) :
    u ∈ ((k.modProc p (departed t flag)).proc p).thread ↔ u ≠ t ∧ u ∈ (k.proc p).thread := by
  rw [modProc_proc_self]
  exact hnd.mem_erase_iff

section Leave

variable (h : k.Inv phy pool) (hp : p ∈ k.processTable) (ht : t ∈ (k.proc p).thread)

include h hp ht

/-- The window of the thread. -/
theorem window_stackEntry : k.HasWindow p t (stackEntry (k.thr t).stacktop) := by
  obtain ⟨i, hw⟩ := h.layout.window hp ht
  rw [hw.stacktop, stackEntry_eq hw.odd hw.high]
  exact hw

/-- The window is no other thread's. -/
theorem not_window_of_ne (hu : u ∈ (k.proc p).thread) (hne : u ≠ t) :
    ¬ k.HasWindow p u (stackEntry (k.thr t).stacktop) := by
  intro hw
  refine hne (h.layout.windowsApart hp hu ht ?_)
  rw [hw.stacktop]
  exact (window_stackEntry h hp ht).stacktop.symm

/-- The thread is in no list any more. -/
theorem threadPage_departed {flag : Nat} :
    (k.modProc p (departed t flag)).frameOf = Function.update k.frameOf (.threadPage t) none := by
  have hP := h.procOk hp
  have hother : ∀ q, q ≠ p → (k.modProc p (departed t flag)).proc q = k.proc q :=
    fun q hq => modProc_proc_of_ne hq
  have hnone : (k.modProc p (departed t flag)).frameOf (.threadPage t) = none := by
    refine frameOf_threadPage_none fun q hq hmem => ?_
    by_cases hqp : q = p
    · rw [hqp] at hmem
      exact (mem_departed hP.nodup).mp hmem |>.1 rfl
    · rw [hother q hqp] at hmem
      exact hqp (h.thread_unique hq hp hmem ht)
  rw [← hnone]
  refine frameOf_update_thread ⟨sameTables_departed, rfl, fun q => ?_, fun q => ?_, fun q => ?_⟩
    fun u hu q => ?_
  · by_cases hqp : q = p
    · rw [hqp, modProc_proc_self]
      rfl
    · rw [hother q hqp]
  · by_cases hqp : q = p
    · rw [hqp, modProc_proc_self]
      rfl
    · rw [hother q hqp]
  · by_cases hqp : q = p
    · rw [hqp, modProc_proc_self]
      rfl
    · rw [hother q hqp]
  · by_cases hqp : q = p
    · rw [hqp]
      exact (mem_departed hP.nodup).trans (and_iff_right hu)
    · rw [hother q hqp]

omit ht in
/-- The windows that remain are windows of threads that remain. -/
theorem layout_departed {flag : Nat} : (k.modProc p (departed t flag)).Layout phy pool := by
  refine sameTables_departed.layout_of_subset h.layout (fun hq => hq) (fun {q u} hu => ?_) fun _ => rfl
  by_cases hqp : q = p
  · rw [hqp] at hu ⊢
    exact ((mem_departed (h.procOk hp).nodup).mp hu).2
  · rwa [modProc_proc_of_ne hqp] at hu

end Leave

namespace Departed

variable (hD : Departed k p t k') (h : k.Inv phy pool) (hp : p ∈ k.processTable)
  (ht : t ∈ (k.proc p).thread)

include hD

theorem proc_self : k'.proc p = departed t (k.thr t).flag (k.proc p) := by
  rw [hD.proc, modProc_proc_self]

theorem proc_of_ne (hq : q ≠ p) : k'.proc q = k.proc q := by
  rw [hD.proc, modProc_proc_of_ne hq]

theorem thread_self : (k'.proc p).thread = (k.proc p).thread.erase t := by
  rw [hD.proc_self]
  rfl

include h hp ht

/-- The state in which only the thread has left, before its window is cleared. -/
theorem facts : k'.Layout phy pool ∧
    k'.frameOf = without (Function.update k.frameOf (.threadPage t) none)
      (windowOwners p (stackEntry (k.thr t).stacktop)) ∧
    ∀ q ∈ k.processTable, ∀ a < USER_PDES, ∀ b, k'.pte q a b =
      if q = p ∧ (a = stackEntry (k.thr t).stacktop ∨ a = stackEntry (k.thr t).stacktop - 1) then 0
      else k.pte q a b := by
  have hP := h.procOk hp
  have hw := window_stackEntry h hp ht
  set e := stackEntry (k.thr t).stacktop with he
  set k₁ := k.modProc p (departed t (k.thr t).flag) with hk₁
  have hL₁ : k₁.Layout phy pool := layout_departed h hp
  have hpd₁ : k₁.pd p = k.pd p := sameTables_departed.pd p
  set k₂ := k₁.setWord (k₁.pd p) (e - 1) 0 with hk₂
  -- the lower entry is even, so it is nobody's window
  have hL₂ : k₂.Layout phy pool := by
    have hhigh := hw.high
    refine hL₁.clear hp (fun u _ hwu => ?_) (by omega)
    have hodd := hwu.odd
    have hodd' := hw.odd
    omega
  set k₃ := k₂.setWord (k₂.pd p) e 0 with hk₃
  have hL₃ : k₃.Layout phy pool := by
    refine hL₂.clear hp (fun u hu hwu => ?_) hw.high
    have hmem := (mem_departed hP.nodup).mp hu
    refine not_window_of_ne h hp ht hmem.2 hmem.1 ⟨hwu.odd, hwu.low, hwu.high, hwu.stacktop, ?_⟩
    have hused := hwu.used
    rw [pde_clear hL₁ hp hp, if_neg fun hc => by have hodd := hwu.odd; omega] at hused
    rwa [sameTables_departed.pde] at hused
  -- the heap has changed too, but no map depends on it
  have hM : SameMaps k₃ { k' with heap := k₃.heap } := by
    refine SameMaps.of_eq rfl ?_ hD.processTable hD.proc fun u => ?_
    · show k'.table = _
      rw [hD.table, hk₃, hk₂, pd_setWord, hpd₁]
      rfl
    · show (k'.thr u).stacktop = _
      rw [hD.thr]
      rfl
  have hpte : ∀ q ∈ k.processTable, ∀ a < USER_PDES, ∀ b, k'.pte q a b =
      if q = p ∧ (a = e ∨ a = e - 1) then 0 else k.pte q a b := by
    intro q hq a ha b
    refine (hM.pte q a b).trans ?_
    rw [pte_clear hL₂ hp hq ha]
    by_cases h₁ : q = p ∧ a = e
    · rw [if_pos h₁, if_pos ⟨h₁.1, Or.inl h₁.2⟩]
    · rw [if_neg h₁, pte_clear hL₁ hp hq ha]
      by_cases h₂ : q = p ∧ a = e - 1
      · rw [if_pos h₂, if_pos ⟨h₂.1, Or.inr h₂.2⟩]
      · rw [if_neg h₂, if_neg fun hc => hc.2.elim (fun ha => h₁ ⟨hc.1, ha⟩) fun ha => h₂ ⟨hc.1, ha⟩]
        exact sameTables_departed.pte q a b
  refine ⟨(hM.layout hL₃).withHeap k'.heap, ?_, hpte⟩
  calc k'.frameOf = k₃.frameOf := hM.frameOf
    _ = without (without k₁.frameOf (tableOwners p (e - 1))) (tableOwners p e) := by
      rw [hk₃, frameOf_clear hL₂ hp, hk₂, frameOf_clear hL₁ hp]
    _ = _ := by
      rw [← without_union, Set.union_comm, hk₁, threadPage_departed h hp ht]
      rfl

theorem layout : k'.Layout phy pool := (hD.facts h hp ht).1

/-- The ledger without the tables of the window. -/
theorem frameOf : k'.frameOf = without (Function.update k.frameOf (.threadPage t) none)
    (windowOwners p (stackEntry (k.thr t).stacktop)) := (hD.facts h hp ht).2.1

/-- The entries of the window are clear, the others stay. -/
theorem pte (hq : q ∈ k.processTable) {a : Nat} (ha : a < USER_PDES) (b : Nat) :
    k'.pte q a b =
      if q = p ∧ (a = stackEntry (k.thr t).stacktop ∨ a = stackEntry (k.thr t).stacktop - 1) then 0
      else k.pte q a b := (hD.facts h hp ht).2.2 q hq a ha b

/-- The other processes are as they were. -/
theorem procOk_of_ne (hq : q ∈ k.processTable) (hqp : q ≠ p) : k'.ProcOk q := by
  have hpq := hD.proc_of_ne hqp
  refine (h.procOk hq).congr (SameProc.of_eq hpq fun u _ => by rw [hD.thr]) fun u _ hB => ?_
  exact hB.congr (by rw [hpq]) (by rw [hpq]) hD.currentProc (by rw [hpq]) (by rw [hD.thr])
    fun a ha b => (hD.pte h hp ht hq ha b).trans (if_neg fun hc => hqp hc.1)

/-- The process itself, once its current thread `c` is one that is left. -/
theorem procOk_self (hself : k₁.proc p = { k'.proc p with current := c }) (hthr : k₁.thr = k'.thr)
    (hcur : k₁.currentProc = k'.currentProc)
    (hpte : ∀ a < USER_PDES, ∀ b, k₁.pte p a b = k'.pte p a b)
    (hc : c ∈ (k'.proc p).thread) (hct : c = (k.proc p).current ∨ (k.proc p).current = t) :
    k₁.ProcOk p := by
  have hP := h.procOk hp
  have hproc : k₁.proc p = { departed t (k.thr t).flag (k.proc p) with current := c } := by
    rw [hself, hD.proc_self]
  have hlist : (k₁.proc p).thread = (k.proc p).thread.erase t := by
    rw [hproc]
    rfl
  have hthr₁ : k₁.thr = k.thr := hthr.trans hD.thr
  have hmem : ∀ {u}, u ∈ (k₁.proc p).thread ↔ u ≠ t ∧ u ∈ (k.proc p).thread := by
    intro u
    rw [hlist]
    exact hP.nodup.mem_erase_iff
  -- the thread is counted no longer under the flag it had
  have hcount : ∀ flag, k₁.countFlag p flag =
      k.countFlag p flag - if (k.thr t).flag = flag then 1 else 0 := by
    intro flag
    unfold countFlag
    rw [hlist, hthr₁, List.countP_erase]
    simp [ht]
  have hcle : ∀ flag, k.countFlag p flag < 2 ^ 32 :=
    fun flag => Nat.lt_of_succ_lt (countFlag_lt h.layout hp hP.nodup flag)
  have hsub : ∀ flag, (k.thr t).flag = flag → sub32 (k.countFlag p flag) 1 = k.countFlag p flag - 1 :=
    fun flag hf => sub32_of_le (countFlag_pos_iff.mpr ⟨t, ht, hf⟩) (hcle flag)
  constructor
  case current =>
    rw [hlist, hself]
    rwa [hD.thread_self] at hc
  case nodup =>
    rw [hlist]
    exact hP.nodup.erase t
  case back =>
    intro u hu
    rw [hthr₁]
    exact hP.back u (hmem.mp hu).2
  case flags =>
    intro u hu
    rw [hthr₁]
    exact hP.flags u (hmem.mp hu).2
  case avl =>
    rw [hcount, hproc]
    show (if (k.thr t).flag = 0 then sub32 (k.proc p).avlThread 1 else (k.proc p).avlThread) = _
    rw [hP.avl]
    split
    · next hf => exact hsub 0 hf
    · exact (Nat.sub_zero _).symm
  case receiving =>
    rw [hcount, hproc]
    show (if (k.thr t).flag = 2 then sub32 (k.proc p).receiving 1 else (k.proc p).receiving) = _
    rw [hP.receiving]
    split
    · next hf => exact hsub 2 hf
    · exact (Nat.sub_zero _).symm
  case head =>
    rw [hproc]
    exact hP.head
  case tail =>
    rw [hproc]
    exact hP.tail
  case count =>
    rw [hproc]
    exact hP.count
  case blocked =>
    -- a blocked thread is the current one of its process, so it is not the one that left
    intro u hu hf
    rw [hthr₁] at hf
    obtain ⟨hut, hu⟩ := hmem.mp hu
    have hB := hP.blocked u hu hf
    have hcu : c = u := by
      rcases hct with hct | hct
      · exact hct.trans hB.current
      · exact absurd (hB.current.symm.trans hct) hut
    refine ⟨by rw [hself]; exact hcu, by rw [hproc]; exact hB.flag,
      by rw [hcur, hD.currentProc]; exact hB.away, by rw [hproc]; exact hB.empty,
      by rw [hthr₁]; exact hB.user, by rw [hthr₁]; exact hB.aligned, ?_⟩
    rw [hthr₁, hpte _ (va2pde_user hB.user), hD.pte h hp ht hp (va2pde_user hB.user)]
    split
    · rfl
    · exact hB.unmapped

end Departed

/-! ## The first part of `disposeThread`

The source changes the record, frees the stack and changes the record again. The parts are named
here, and together they are `Departed`. -/

/-- `list_hide(&thread->list)`, and a thread that waits is no longer counted as one. -/
def unlinkThread (k : Kernel) (p t : Nat) : Kernel :=
  if (k.thr t).flag = 2 then
    (k.modProc p fun P => { P with thread := P.thread.erase t }).modProc p fun P =>
      { P with receiving := sub32 P.receiving 1 }
  else k.modProc p fun P => { P with thread := P.thread.erase t }

/-- A thread that could run is no longer counted as one. -/
def uncountThread (k : Kernel) (p t : Nat) : Kernel :=
  if (k.thr t).flag = 0 then k.modProc p fun P => { P with avlThread := sub32 P.avlThread 1 } else k

/-- `disposeThread` in these parts. -/
theorem disposeThread_eq (hback : (k.thr t).process = p) :
    k.disposeThread t = ((k.unlinkThread p t).recycleThreadStack t >>= fun k =>
      (k.uncountThread p t).disposeRest p t >>= fun k => k.freePage t) := by
  unfold disposeThread
  rw [hback]
  rfl

/-- The list and the counters are all that changes before the window is recycled. -/
theorem unlinkThread_frame : (k.unlinkThread p t).thr = k.thr ∧
    (k.unlinkThread p t).table = k.table ∧ (k.unlinkThread p t).heap = k.heap ∧
    (k.unlinkThread p t).processTable = k.processTable ∧
    (k.unlinkThread p t).currentProc = k.currentProc ∧
    (k.unlinkThread p t).currentThread = k.currentThread := by
  unfold unlinkThread
  split <;> exact ⟨rfl, rfl, rfl, rfl, rfl, rfl⟩

/-- Counting changes the record of the process alone. -/
theorem uncountThread_frame : (k.uncountThread p t).thr = k.thr ∧
    (k.uncountThread p t).table = k.table ∧ (k.uncountThread p t).heap = k.heap ∧
    (k.uncountThread p t).processTable = k.processTable ∧
    (k.uncountThread p t).currentProc = k.currentProc ∧
    (k.uncountThread p t).currentThread = k.currentThread := by
  unfold uncountThread
  split <;> exact ⟨rfl, rfl, rfl, rfl, rfl, rfl⟩

/-- The process keeps its directory. -/
theorem unlinkThread_cr3 : ((k.unlinkThread p t).proc p).cr3 = (k.proc p).cr3 := by
  unfold unlinkThread
  split
  · rw [modProc_proc_self, modProc_proc_self]
  · rw [modProc_proc_self]

theorem unlinkThread_pd : (k.unlinkThread p t).pd p = k.pd p := by
  rw [pd, unlinkThread_cr3, pd]

theorem unlinkThread_pde (a : Nat) : (k.unlinkThread p t).pde p a = k.pde p a := by
  rw [pde, unlinkThread_pd, unlinkThread_frame.2.1, pde]

theorem unlinkThread_pte (a b : Nat) : (k.unlinkThread p t).pte p a b = k.pte p a b := by
  unfold Kernel.pte
  rw [unlinkThread_pde, unlinkThread_frame.2.1]

/-- The two counters together: `k'` is what the recycling made of the state without the thread. -/
theorem departed_proc (hflag : (k.thr t).flag = 0 ∨ (k.thr t).flag = 2) (hthr : k'.thr = k.thr)
    (hproc : k'.proc = (k.unlinkThread p t).proc) :
    (k'.uncountThread p t).proc = (k.modProc p (departed t (k.thr t).flag)).proc := by
  funext q
  unfold uncountThread
  rw [hthr]
  by_cases hqp : q = p
  · subst hqp
    -- a thread that could run, or one that waits
    rcases hflag with hf | hf
    · rw [if_pos hf, modProc_proc_self, modProc_proc_self, hproc]
      unfold unlinkThread
      rw [if_neg (by rw [hf]; decide), modProc_proc_self, hf]
      simp [departed]
    · rw [if_neg (by rw [hf]; decide), modProc_proc_self, hproc]
      unfold unlinkThread
      rw [if_pos hf, modProc_proc_self, modProc_proc_self, hf]
      simp [departed]
  · have hother : (k.unlinkThread p t).proc q = k.proc q := by
      unfold unlinkThread
      split
      · rw [modProc_proc_of_ne hqp, modProc_proc_of_ne hqp]
      · rw [modProc_proc_of_ne hqp]
    rw [modProc_proc_of_ne hqp]
    split
    · rw [modProc_proc_of_ne hqp, hproc, hother]
    · rw [hproc, hother]

/-- The window of the thread is recycled like in `k` itself. -/
theorem unlinkThread_recycles (h : k.Inv phy pool) (hp : p ∈ k.processTable)
    (ht : t ∈ (k.proc p).thread) (hphy : k.NormalWindow p t) :
    ∃ h', (k.unlinkThread p t).recycleThreadStack t =
        .ok ((({ k.unlinkThread p t with heap := h' } : Kernel).setWord (k.pd p)
          (stackEntry (k.thr t).stacktop - 1) 0).setWord (k.pd p) (stackEntry (k.thr t).stacktop) 0) ∧
      Owned h' (without k.frameOf (windowOwners p (stackEntry (k.thr t).stacktop))) pool := by
  obtain ⟨hthr, htab, hheap, -, -, -⟩ := unlinkThread_frame (k := k) (p := p) (t := t)
  have hback := (h.procOk hp).back t ht
  have hw := window_stackEntry h hp ht
  have hlow : ∀ a, a = stackEntry (k.thr t).stacktop ∨ a = stackEntry (k.thr t).stacktop - 1 →
      a < USER_PDES := by
    have hhigh := hw.high
    intro a ha
    omega
  obtain ⟨h', hok, hO⟩ := recycleThreadStack_spec (k := k.unlinkThread p t) (p := p) (t := t)
    (i := stackEntry (k.thr t).stacktop)
    (by rw [hheap]; exact h.owned)
    (by rw [hthr, hback, unlinkThread_cr3, frameAt_cr3 h.layout hp, unlinkThread_pd])
    (by rw [hthr]) hw.odd (by rw [unlinkThread_pde]; exact hw.used)
    (fun a ha => by
      rw [unlinkThread_pde]
      -- the lower table of the window exists if the stack has grown into it
      by_cases h0 : k.pde p a = 0
      · rw [if_pos h0, frameOf_pageTable_none h0]
      · rw [if_neg h0, frameOf_pageTable hp (hlow a ha) h0])
    (fun a ha j hj => by rw [unlinkThread_pte, frameOf_pte hp (hlow a ha) hj])
    (fun a ha j hj => by rw [unlinkThread_pte]; exact hphy a ha j hj)
  rw [unlinkThread_pd] at hok
  exact ⟨h', hok, hO⟩

/-- Without the window the ledger has what is left and the page of the thread. -/
theorem Departed.ledger (hD : Departed k p t k') (h : k.Inv phy pool) (hp : p ∈ k.processTable)
    (ht : t ∈ (k.proc p).thread) : Function.update k'.frameOf (.threadPage t) (some t) =
      without k.frameOf (windowOwners p (stackEntry (k.thr t).stacktop)) := by
  rw [hD.frameOf h hp ht]
  funext o
  by_cases ho : o = .threadPage t
  · subst ho
    rw [Function.update_self, without_of_notMem, frameOf_threadPage hp ht]
    rintro (hm | hm)
    · exact nomatch process_of_mem_tableOwners hm
    · exact nomatch process_of_mem_tableOwners hm
  · rw [Function.update_of_ne ho]
    unfold without
    rw [Function.update_of_ne ho]

/-- `disposeThread` up to the last `if`. -/
theorem depart_spec (h : k.Inv phy pool) (hp : p ∈ k.processTable) (ht : t ∈ (k.proc p).thread)
    (hphy : k.NormalWindow p t) :
    ∃ k', k.disposeThread t = (k'.disposeRest p t >>= fun k => k.freePage t) ∧
      Departed k p t k' ∧ Owned k'.heap (Function.update k'.frameOf (.threadPage t) (some t)) pool := by
  obtain ⟨hthr, htab, -, hring, hcur, hcurT⟩ := unlinkThread_frame (k := k) (p := p) (t := t)
  obtain ⟨h', hok, hO⟩ := unlinkThread_recycles h hp ht hphy
  set k₂ := (({ k.unlinkThread p t with heap := h' } : Kernel).setWord (k.pd p)
    (stackEntry (k.thr t).stacktop - 1) 0).setWord (k.pd p) (stackEntry (k.thr t).stacktop) 0 with hk₂
  obtain ⟨hthr₃, htab₃, hheap₃, hring₃, hcur₃, hcurT₃⟩ :=
    uncountThread_frame (k := k₂) (p := p) (t := t)
  have htab₂ : k₂.table = ((k.setWord (k.pd p) (stackEntry (k.thr t).stacktop - 1) 0).setWord (k.pd p)
      (stackEntry (k.thr t).stacktop) 0).table := by
    rw [hk₂]
    unfold setWord
    dsimp only
    rw [htab]
  -- the three parts together
  have hD : Departed k p t (k₂.uncountThread p t) :=
    ⟨hring₃.trans hring, hcur₃.trans hcur, hcurT₃.trans hcurT,
      departed_proc ((h.procOk hp).flags t ht) hthr rfl, hthr₃.trans hthr, htab₃.trans htab₂⟩
  refine ⟨k₂.uncountThread p t, ?_, hD, ?_⟩
  · rw [disposeThread_eq ((h.procOk hp).back t ht), hok]
    rfl
  · rw [hD.ledger h hp ht, hheap₃]
    exact hO

end Kernel

end NorlitOS
