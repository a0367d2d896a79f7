import NorlitOS.Process.Threads

/-!
# Giving up the processor (`timer.c`, `SYSCALL_NICE`)

Both entries are a call of `schedule`. A timer tick leaves the running process ready, so it may
go on; after `SYSCALL_NICE` another process runs.
-/

namespace NorlitOS

open Ledger

namespace Kernel

variable {k k' k₁ : Kernel} {phy : Prop} {pool : Set Nat} {p q flag : Nat}

theorem SameButTicks.sameMaps (h : SameButTicks k k') : SameMaps k k' := by
  refine ⟨⟨⟨h.processTable, fun p => ?_, fun p => ?_⟩, fun p => ?_, fun p => ?_, fun p => ?_⟩,
    h.heap, h.table, fun t => by rw [h.thr]⟩ <;> rw [h.proc]

/-- Ticks are no part of the bookkeeping. -/
theorem SameButTicks.inv (h : SameButTicks k k') (hInv : k.Inv phy pool) : k'.Inv phy pool := by
  have hS := h.sameMaps
  refine ⟨by rw [hS.heap, hS.frameOf]; exact hInv.owned, hS.layout hInv.layout, ?_⟩
  refine ⟨by rw [h.processTable]; exact hInv.threads.nodup,
    by rw [h.processTable, h.currentProc]; exact hInv.threads.running, ?_, fun p hp => ?_⟩
  · rw [h.currentThread, h.currentProc, h.proc, hInv.threads.currentThread]
  · rw [h.processTable] at hp
    refine (hInv.procOk hp).congr ?_ fun t _ hB => ?_
    · refine ⟨?_, ?_, ?_, ?_, ?_, ?_, ?_, fun t _ => by rw [h.thr], fun t _ => by rw [h.thr]⟩ <;>
        rw [h.proc]
    · exact hB.congr (by rw [h.proc]) (by rw [h.proc]) h.currentProc (by rw [h.proc])
        (by rw [h.thr]) fun a _ b => hS.pte p a b

theorem Inv.scheduled (h : k.Inv phy pool) (hS : Scheduled k flag k') : k'.Inv phy pool :=
  hS.inv h.owned h.layout h.threads.nodup h.threads.running h.threads.proc

/-- **A timer tick.** -/
theorem timerTick_spec (h : k.Inv phy pool) : Yields k.timerTick fun k' =>
    k'.Inv phy pool ∧ ∃ k₁, SameButTicks k k₁ ∧ Scheduled k₁ 0 k' := by
  unfold timerTick
  have hT : SameButTicks k (k.modProc k.currentProc fun P =>
      { P with ticks := (P.ticks - 1).bmod (2 ^ 32) }) := sameButTicks_modProc
  exact schedule_spec.mono fun k' hS => ⟨(hT.inv h).scheduled hS, _, hT, hS⟩

/-- A process that is not ready before `schedule` does not run after it. -/
theorem Scheduled.next_ne (hS : Scheduled k flag k') (hf : flag ≠ 0) :
    k'.currentProc ≠ k.currentProc := by
  intro heq
  have hready := hS.ready
  rw [if_pos heq] at hready
  exact hf hready

/-- **`SYSCALL_NICE`.** -/
theorem sysNice_spec (h : k.Inv phy pool) : Yields k.sysNice fun k' => Keeps k phy pool k' ∧
    ∃ k₁, Scheduled k 2 k₁ ∧ k' = k₁.modProc k.currentProc fun P => { P with flag := 0 } := by
  unfold sysNice
  refine schedule_spec.bind fun k₁ hS => ?_
  have h₁ := h.scheduled hS
  -- `schedule(2)` does not come back to the process that called
  have hne : k.currentProc ≠ k₁.currentProc := (hS.next_ne (by decide)).symm
  have hmem : k.currentProc ∈ k₁.processTable := by
    rw [hS.processTable]
    exact h.threads.running
  have hM : SameMaps k₁ (k₁.modProc k.currentProc fun P => { P with flag := 0 }) :=
    sameMaps_modProc (fun _ => rfl) (fun _ => rfl) (fun _ => rfl) (fun _ => rfl) fun _ => rfl
  have hhalf : SameHalf pool k (k₁.modProc k.currentProc fun P => { P with flag := 0 }) :=
    (hS.sameHalf h.layout h.threads.running).trans_of_eq hM.half hS.processTable
  refine ⟨⟨⟨by rw [hM.frameOf]; exact h₁.owned, hM.layout h₁.layout, ?_⟩, hhalf⟩, k₁, hS, rfl⟩
  refine h₁.threads_of (p := k.currentProc) rfl rfl rfl ?_ (fun q hq => modProc_proc_of_ne hq)
    (fun _ _ _ _ _ => rfl) (fun q _ _ _ a _ b => hM.pte q a b) ?_
  · rw [modProc_proc_self]
  · refine (h₁.procOk hmem).congr ?_ fun t _ hB => ?_
    · refine ⟨?_, ?_, ?_, ?_, ?_, ?_, ?_, fun _ _ => rfl, fun _ _ => rfl⟩ <;> rw [modProc_proc_self]
    · -- the process that ran has flag 2, not 1
      have hflag := hB.flag
      rw [hS.proc] at hflag
      have htwo : (if k.currentProc = k₁.currentProc then 2 else if k.currentProc = k.currentProc then 2
          else (k.proc k.currentProc).flag) = 2 := by rw [if_neg hne, if_pos rfl]
      exact absurd (htwo.symm.trans hflag) (by decide)

/-! ## Flags -/

/-- The flag of a process that does not run: 0 when one of its threads is available. -/
def idleFlag (P : Process) : Nat := if P.avlThread = 0 then 1 else 0

/-- The running process has flag 2, the others have theirs by their available threads. -/
structure Steady (k : Kernel) : Prop where
  running : (k.proc k.currentProc).flag = 2
  idle : ∀ q ∈ k.processTable, q ≠ k.currentProc → (k.proc q).flag = idleFlag (k.proc q)

namespace Scheduled

variable (hS : Scheduled k flag k')

include hS

theorem flag_running : (k'.proc k'.currentProc).flag = 2 := by
  rw [hS.proc]
  exact if_pos rfl

/-- A process that is not picked keeps its flag, or has got the one `schedule` was called with. -/
theorem flag_idle (hne : q ≠ k'.currentProc) (hcur : q = k.currentProc → flag = idleFlag (k.proc q))
    (hother : q ≠ k.currentProc → (k.proc q).flag = idleFlag (k.proc q)) :
    (k'.proc q).flag = idleFlag (k'.proc q) := by
  have hidle : idleFlag (k'.proc q) = idleFlag (k.proc q) := by
    rw [hS.proc]
    rfl
  rw [hidle, hS.proc]
  show (if q = k'.currentProc then 2 else if q = k.currentProc then flag else (k.proc q).flag) = _
  rw [if_neg hne]
  split
  · next h => exact hcur h
  · next h => exact hother h

theorem steady (hcur : flag = idleFlag (k.proc k.currentProc))
    (hother : ∀ q ∈ k.processTable, q ≠ k.currentProc → (k.proc q).flag = idleFlag (k.proc q)) :
    k'.Steady := by
  refine ⟨hS.flag_running, fun q hq hne => hS.flag_idle hne (fun h => ?_) fun h => ?_⟩
  · rw [h]
    exact hcur
  · rw [hS.processTable] at hq
    exact hother q hq h

end Scheduled

end Kernel

end NorlitOS
