import NorlitOS.Process.Dispose
import NorlitOS.Process.MapCalls

/-!
# The end of a process

`disposeProcess` disposes the current thread of the process until none is left. It runs when a
process is killed, and all the frames of the process come back.
-/

namespace NorlitOS

open Dyadic Ledger

namespace Kernel

variable {k k' k₁ : Kernel} {phy : Prop} {pool : Set Nat} {p q t n addr : Nat}

/-- What a process owns, the pages of its threads included. -/
def processOwners (k : Kernel) (p : Nat) : Set Owner :=
  {o | ∃ t ∈ (k.proc p).thread, o = .threadPage t} ∪ ownersOf p

/-- `k'` is `k` without the process `p` and its threads. -/
structure Exited (k : Kernel) (pool : Set Nat) (p : Nat) (k' : Kernel) : Prop where
  thr : k'.thr = k.thr
  processTable : k'.processTable = k.processTable.erase p
  other : ∀ q, q ≠ p →
    k'.proc q = { k.proc q with flag := (k'.proc q).flag, ticks := (k'.proc q).ticks }
  pte : ∀ q ∈ k.processTable, q ≠ p → ∀ a < USER_PDES, ∀ b, k'.pte q a b = k.pte q a b
  half : SameHalf pool k k'
  frames : k'.frameOf = without k.frameOf (k.processOwners p)

/-- No thread of `p` has a physical page in its stack window. -/
def NormalWindows (k : Kernel) (p : Nat) : Prop := ∀ t ∈ (k.proc p).thread, k.NormalWindow p t

theorem processOwners_of_singleton (hl : (k.proc p).thread = [t]) :
    k.processOwners p = k.threadOwners p t := by
  unfold processOwners threadOwners
  rw [if_pos hl, hl]
  congr 1
  ext o
  constructor
  · rintro ⟨u, hu, rfl⟩
    rw [List.mem_singleton.mp hu]
    rfl
  · rintro rfl
    exact ⟨t, List.mem_singleton_self t, rfl⟩

/-- The windows of the threads that are left have not changed, except for entries cleared. -/
theorem Disposed.normalWindows (hD : Disposed k pool p t k₁) (hp : p ∈ k₁.processTable)
    (hL : k₁.Layout phy pool) (hnd : (k.proc p).thread.Nodup) (h : k.NormalWindows p) :
    k₁.NormalWindows p := by
  intro u hu a ha b hb
  rw [hD.thread, hnd.mem_erase_iff] at hu
  obtain ⟨i, hw⟩ := hL.window hp (by rw [hD.thread, hnd.mem_erase_iff]; exact hu)
  rw [hD.thr] at ha
  have hhigh := hw.high
  have hentry := stackEntry_eq hw.odd hw.high
  rw [← hw.stacktop, hD.thr] at hentry
  rcases hD.pte_self hp a (by omega) b with heq | hz
  · rw [heq]
    exact h u hu.2 a ha b hb
  · rw [hz]
    rfl

/-- The rounds of `disposeProcess`, by the number of threads. -/
theorem disposeThreads_spec (h : k.Inv phy pool) (hp : p ∈ k.processTable)
    (hn : (k.proc p).thread.length = n) (hw : k.NormalWindows p) :
    Yields (disposeThreads p n k) fun k' => k'.Inv phy pool ∧ Exited k pool p k' := by
  have hP := h.procOk hp
  have hcur := hP.current
  induction n generalizing k with
  | zero => exact absurd (List.length_eq_zero_iff.mp hn) (List.ne_nil_of_mem hcur)
  | succ n ih =>
    unfold disposeThreads
    refine (disposeThread_spec h hp hcur (hw _ hcur)).bind fun k₁ hk₁ => ?_
    obtain ⟨h₁, hD⟩ := hk₁
    set t := (k.proc p).current with ht
    by_cases hl : (k.proc p).thread = [t]
    · -- the last round
      have hnil : ¬ (k₁.proc p).thread ≠ [] := by
        rw [hD.thread]
        exact not_not.mpr ((erase_eq_nil hcur).mpr hl)
      rw [if_neg hnil]
      refine ⟨h₁, hD.thr, ?_, hD.other, hD.pte, hD.half, ?_⟩
      · rw [hD.processTable, if_pos hl]
      · rw [hD.frames, processOwners_of_singleton hl]
    · -- threads are left, so the process is still in the ring
      have hne : (k₁.proc p).thread ≠ [] := by
        rw [hD.thread]
        exact fun hc => hl ((erase_eq_nil hcur).mp hc)
      have hring : k₁.processTable = k.processTable := by rw [hD.processTable, if_neg hl]
      have hp₁ : p ∈ k₁.processTable := hring ▸ hp
      rw [if_pos hne]
      have hlen : (k₁.proc p).thread.length = n := by
        rw [hD.thread, List.length_erase_of_mem hcur, hn]
        rfl
      have hP₁ := h₁.procOk hp₁
      refine (ih h₁ hp₁ hlen (hD.normalWindows hp₁ h₁.layout hP.nodup hw) hP₁ hP₁.current).mono
        fun k' hk' => ?_
      obtain ⟨h', hE⟩ := hk'
      refine ⟨h', hE.thr.trans hD.thr, by rw [hE.processTable, hring], fun q hq => ?_,
        fun q hq hqp a ha b => ?_, ?_, ?_⟩
      · rw [hE.other q hq, hD.other q hq]
      · rw [hE.pte q (hring.symm ▸ hq) hqp a ha b, hD.pte q hq hqp a ha b]
      · exact hD.half.trans_of_eq hE.half hring
      · rw [hE.frames, hD.frames, ← without_union]
        congr 1
        -- what the first round and the others free is what the process owned
        ext o
        unfold processOwners threadOwners
        rw [if_neg hl, hD.thread]
        constructor
        · rintro ((rfl | (ho | ho)) | (⟨u, hu, rfl⟩ | ho))
          · exact Or.inl ⟨t, hcur, rfl⟩
          · exact Or.inr (process_of_mem_tableOwners ho)
          · exact Or.inr (process_of_mem_tableOwners ho)
          · exact Or.inl ⟨u, List.mem_of_mem_erase hu, rfl⟩
          · exact Or.inr ho
        · rintro (⟨u, hu, rfl⟩ | ho)
          · by_cases hut : u = t
            · rw [hut]
              exact Or.inl (Or.inl rfl)
            · exact Or.inr (Or.inl ⟨u, (List.mem_erase_of_ne hut).mpr hu, rfl⟩)
          · exact Or.inr (Or.inr ho)

/-- **`disposeProcess`.** -/
theorem disposeProcess_spec (h : k.Inv phy pool) (hp : p ∈ k.processTable)
    (hw : k.NormalWindows p) :
    Yields (k.disposeProcess p) fun k' => k'.Inv phy pool ∧ Exited k pool p k' := by
  unfold disposeProcess
  rw [if_pos (List.ne_nil_of_mem (h.procOk hp).current)]
  exact disposeThreads_spec h hp rfl hw

/-- The windows stay as they are when `schedule` runs. -/
theorem Scheduled.normalWindows {flag : Nat} (hS : Scheduled k flag k') (h : k.Inv phy pool)
    (hp : p ∈ k.processTable) (hw : k.NormalWindows p) : k'.NormalWindows p := by
  intro u hu a ha b hb
  rw [hS.sameLists.thread] at hu
  rw [hS.thr] at ha
  have hhigh := (window_stackEntry h hp hu).high
  rw [hS.pte_user h.layout hp (by omega)]
  exact hw u hu a ha b hb

/-- **An exception** kills the running process. -/
theorem exceptionHandler_spec (h : k.Inv phy pool) (hw : k.NormalWindows k.currentProc) :
    Yields k.exceptionHandler fun k' => k'.Inv phy pool ∧ Exited k pool k.currentProc k' := by
  have hrun := h.threads.running
  unfold exceptionHandler
  refine schedule_spec.bind fun k₁ hS => ?_
  have h₁ := h.scheduled hS
  have hp₁ : k.currentProc ∈ k₁.processTable := hS.processTable.symm ▸ hrun
  have hthread : (k₁.proc k.currentProc).thread = (k.proc k.currentProc).thread := by rw [hS.proc]
  refine (disposeProcess_spec h₁ hp₁ (hS.normalWindows h hrun hw)).mono fun k' hk' => ?_
  obtain ⟨h', hE⟩ := hk'
  refine ⟨h', hE.thr.trans hS.thr, by rw [hE.processTable, hS.processTable], fun q hq => ?_,
    fun q hq hqp a ha b => ?_, ?_, ?_⟩
  · rw [hE.other q hq, hS.proc]
  · rw [hE.pte q (hS.processTable.symm ▸ hq) hqp a ha b, hS.pte_user h.layout hq ha]
  · exact (hS.sameHalf h.layout hrun).trans_of_eq hE.half hS.processTable
  · rw [hE.frames, hS.frameOf h.layout]
    unfold processOwners
    rw [hthread]

/-- **A page fault** grows the stack of the running thread, or kills its process. -/
theorem pageFaultHandler_spec (h : k.Inv phy pool)
    (hz : growsStack (k.thr k.currentThread) addr = true →
      k.pte k.currentProc (va2pde addr) (va2pte addr) = 0)
    (hw : growsStack (k.thr k.currentThread) addr = false → k.NormalWindows k.currentProc) :
    Yields (k.pageFaultHandler addr) fun k' => k'.Inv phy pool := by
  unfold pageFaultHandler
  cases hg : growsStack (k.thr k.currentThread) addr with
  | true =>
    rw [if_pos rfl]
    exact (growStack_spec h hg (hz hg)).mono fun k' hk' => hk'.1
  | false =>
    rw [if_neg (by decide)]
    exact (exceptionHandler_spec h (hw hg)).mono fun k' hk' => hk'.1

/-- The thread `SYSCALL_DISPOSE_THREAD` disposes. -/
def disposeTarget (k : Kernel) (edx : Nat) : Nat := if edx ≠ 0 then edx else k.currentThread

/-- **`SYSCALL_DISPOSE_THREAD`** of a live thread. -/
theorem sysDisposeThread_spec {edx : Nat} (h : k.Inv phy pool) (hp : p ∈ k.processTable)
    (ht : k.disposeTarget edx ∈ (k.proc p).thread) (hw : k.NormalWindow p (k.disposeTarget edx)) :
    Yields (k.sysDisposeThread edx) fun k' =>
      k'.Inv phy pool ∧ Disposed k pool p (k.disposeTarget edx) k' :=
  disposeThread_spec h hp ht hw

end Kernel

end NorlitOS
