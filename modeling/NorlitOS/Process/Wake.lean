import NorlitOS.Process.Threads

/-!
# Waking a blocked thread

A process that waits has exactly one blocked thread, and the scan of its thread list stops there.
`Handed` is what the two senders of messages have in common when a thread waits: the thread gets
the source in `ax` and a page at the address it asked for, and its process may run again.
-/

namespace NorlitOS

open Ledger

namespace Kernel

variable {k k' : Kernel} {phy : Prop} {pool : Set Nat} {p q t source x : Nat}

/-! ## The scan

The loop goes on to the end of the list and keeps the last thread it saw. It stops at a blocked
one. -/

theorem findBlocked_of_mem {thr : Nat → Thread} {l : List Nat} {last : Option Nat}
    (h : ∃ t ∈ l, (thr t).flag = 2) :
    ∃ t ∈ l, findBlocked thr last l = .ok t ∧ (thr t).flag = 2 := by
  induction l generalizing last with
  | nil =>
    obtain ⟨t, ht, -⟩ := h
    exact absurd ht List.not_mem_nil
  | cons u l ih =>
    rw [findBlocked]
    by_cases hu : (thr u).flag = 2
    · rw [if_pos hu]
      exact ⟨u, List.mem_cons_self, rfl, hu⟩
    · rw [if_neg hu]
      obtain ⟨t, ht, hf⟩ := h
      have htl : t ∈ l := (List.mem_cons.mp ht).resolve_left fun h => hu (h ▸ hf)
      obtain ⟨v, hv, hok, hf'⟩ := @ih (some u) ⟨t, htl, hf⟩
      exact ⟨v, List.mem_cons_of_mem u hv, hok, hf'⟩

/-- **The scan stops at a blocked thread** whenever `receiving` is not zero. -/
theorem ProcOk.findBlocked (hP : k.ProcOk p) (hr : (k.proc p).receiving ≠ 0) :
    ∃ t ∈ (k.proc p).thread, findBlocked k.thr none (k.proc p).thread = .ok t ∧
      (k.thr t).flag = 2 := by
  rw [hP.receiving] at hr
  exact findBlocked_of_mem (countFlag_pos_iff.mp (Nat.pos_of_ne_zero hr))

/-! ## The thread and its process afterwards

Two records change and one entry of a page table. Everything else that the invariants look at is
as before. -/

/-- A thread whose `RECEIVE` has been answered. -/
def answered (source : Nat) (T : Thread) : Thread :=
  { T with flag := 0, regs := { T.regs with ax := source } }

/-- A process whose blocked thread has been woken. -/
def woken (P : Process) : Process :=
  { P with receiving := sub32 P.receiving 1, avlThread := add32 P.avlThread 1, flag := 0 }

/-- The blocked thread `t` of `p` has been woken with the page at `x`. -/
structure Handed (k : Kernel) (p t source x : Nat) (k' : Kernel) : Prop where
  processTable : k'.processTable = k.processTable
  currentProc : k'.currentProc = k.currentProc
  currentThread : k'.currentThread = k.currentThread
  proc : k'.proc = (k.modProc p woken).proc
  thr : k'.thr = (k.modThr t (answered source)).thr
  mapped : k'.pte p (va2pde (k.thr t).regs.cx) (va2pte (k.thr t).regs.cx) = x ||| 0b11111
  space : ∀ a < USER_PDES, ∀ b, ¬ (a = va2pde (k.thr t).regs.cx ∧ b = va2pte (k.thr t).regs.cx) →
    k'.pte p a b = k.pte p a b
  pte : ∀ q ∈ k.processTable, q ≠ k.currentProc → q ≠ p → ∀ a < USER_PDES, ∀ b,
    k'.pte q a b = k.pte q a b

theorem woken_of (hp : (k'.proc p).flag = 1) (ht : (k'.thr t).process = p) :
    k'.threadAwake t = (k'.modThr t fun T => { T with flag := 0 }).modProc p fun P =>
      { P with avlThread := add32 P.avlThread 1, flag := 0 } := by
  unfold threadAwake
  simp only [modThr_thr_self, ht, modProc_proc_self, modThr_proc, hp, if_true]
  simp [modProc]

/-- Decreasing `receiving`, the registers and `threadAwake` together. -/
theorem threadAwake_proc (h₀ : (k.proc p).flag = 1) (ht : (k.thr t).process = p)
    (hproc : k'.proc = (k.modProc p fun P => { P with receiving := sub32 P.receiving 1 }).proc)
    (hthr : k'.thr = (k.setAx t source).thr) :
    (k'.threadAwake t).proc = (k.modProc p woken).proc ∧
      (k'.threadAwake t).thr = (k.modThr t (answered source)).thr := by
  have hflag : (k'.proc p).flag = 1 := by
    rw [hproc, modProc_proc_self]
    exact h₀
  -- the thread's process is the one that is counted for
  have hback : (k'.thr t).process = p := by
    rw [hthr, setAx, modThr_thr_self]
    exact ht
  rw [woken_of hflag hback]
  constructor
  · funext q
    rw [modProc_proc, modProc_proc, modThr_proc, hproc, modProc_proc_self, modProc_proc]
    split
    · rfl
    · rfl
  · funext u
    rw [modProc_thr, modThr_thr, modThr_thr, hthr, setAx, modThr_thr_self, modThr_thr]
    split
    · rfl
    · rfl

namespace Handed

variable (hH : Handed k p t source x k')

include hH

theorem thr_of_ne {u : Nat} (hu : u ≠ t) : k'.thr u = k.thr u := by
  rw [hH.thr, modThr_thr_of_ne hu]

theorem thr_self : k'.thr t = answered source (k.thr t) := by
  rw [hH.thr, modThr_thr_self]

theorem proc_self : k'.proc p = woken (k.proc p) := by
  rw [hH.proc, modProc_proc_self]

theorem proc_of_ne (hq : q ≠ p) : k'.proc q = k.proc q := by
  rw [hH.proc, modProc_proc_of_ne hq]

theorem process (u : Nat) : (k'.thr u).process = (k.thr u).process := by
  by_cases hu : u = t
  · rw [hu, hH.thr_self]
    rfl
  · rw [hH.thr_of_ne hu]

/-- The woken thread was the only blocked one. -/
theorem procOk_self (hL : k.Layout phy pool) (hp : p ∈ k.processTable) (h : k.ProcOk p)
    (ht : t ∈ (k.proc p).thread) (hf : (k.thr t).flag = 2) : k'.ProcOk p := by
  have hthread : (k'.proc p).thread = (k.proc p).thread := by
    rw [hH.proc_self]
    rfl
  -- one blocked thread less, one ready thread more
  obtain ⟨hblocked, hready⟩ := countFlag_moved hthread h.nodup ht (fun u hu => by rw [hH.thr_of_ne hu])
    hf (g := 0) (by rw [hH.thr_self]; rfl) (by decide)
  have hlt0 := countFlag_lt hL hp h.nodup 0
  have hlt2 := countFlag_lt hL hp h.nodup 2
  -- a blocked thread is the current one of its process, so there is no second one
  have hrest : ∀ u ∈ (k.proc p).thread, u ≠ t → (k.thr u).flag = 0 := by
    intro u hu hut
    refine (h.flags u hu).resolve_right fun hfu => hut ?_
    exact (h.blocked u hu hfu).current.symm.trans (h.blocked t ht hf).current
  have hzero : ∀ u ∈ (k'.proc p).thread, (k'.thr u).flag = 0 := by
    intro u hu
    rw [hthread] at hu
    by_cases hut : u = t
    · rw [hut, hH.thr_self]
      rfl
    · rw [hH.thr_of_ne hut]
      exact hrest u hu hut
  constructor
  case current =>
    rw [hthread, hH.proc_self]
    exact h.current
  case nodup =>
    rw [hthread]
    exact h.nodup
  case back =>
    intro u hu
    rw [hthread] at hu
    rw [hH.process]
    exact h.back u hu
  case flags => exact fun u hu => Or.inl (hzero u hu)
  case avl =>
    rw [hH.proc_self]
    show add32 (k.proc p).avlThread 1 = k'.countFlag p 0
    rw [h.avl, add32_of_lt hlt0, hready]
  case receiving =>
    rw [hH.proc_self]
    show sub32 (k.proc p).receiving 1 = k'.countFlag p 2
    rw [h.receiving, sub32_of_le (by omega) (by omega)]
    omega
  case head =>
    rw [hH.proc_self]
    exact h.head
  case tail =>
    rw [hH.proc_self]
    exact h.tail
  case count =>
    rw [hH.proc_self]
    exact h.count
  case blocked =>
    intro u hu hfu
    rw [hzero u hu] at hfu
    exact absurd hfu (by decide)

theorem threads (hInv : k.Inv phy pool) (hp : p ∈ k.processTable) (ht : t ∈ (k.proc p).thread)
    (hf : (k.thr t).flag = 2) : k'.Threads := by
  refine hInv.threads_of hH.processTable hH.currentProc hH.currentThread ?_
    (fun q hq => hH.proc_of_ne hq) (fun q hq hqp u hu => hH.thr_of_ne ?_) hH.pte
    (hH.procOk_self hInv.layout hp (hInv.procOk hp) ht hf)
  · rw [hH.proc_self]
    rfl
  · rintro rfl
    exact hqp (hInv.thread_unique hq hp hu ht)

end Handed

end Kernel

end NorlitOS
