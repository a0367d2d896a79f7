import NorlitOS.Process.Mapping

/-!
# Threads and processes come and go

A thread that joins or leaves a thread list changes the owner of its own page only; a process
that joins or leaves the ring changes what it owns itself. Both leave directories and tables
alone, so the layout follows from the members that remain.
-/

namespace NorlitOS

open Dyadic Ledger

/-- The process an owner belongs to; a thread page belongs to no process by itself. -/
def Owner.process : Owner → Option Nat
  | .pte p _ _ => some p
  | .pageTable p _ => some p
  | .pageDirectory p => some p
  | .threadPage _ => none
  | .slot p _ => some p
  | .record p => some p

/-- What a process without threads owns. -/
def ownersOf (p : Nat) : Set Owner := {o | o.process = some p}

/-- The owners of a process are those it appears in. -/
theorem mem_ownersOf {o : Owner} {p : Nat} : o ∈ ownersOf p ↔ o.process = some p := Iff.rfl

/-- The page of a thread belongs to the thread. -/
theorem threadPage_notMem_ownersOf {p t : Nat} : Owner.threadPage t ∉ ownersOf p := by
  intro h
  cases (mem_ownersOf.mp h : (none : Option Nat) = some p)

namespace Kernel

variable {k k' : Kernel} {phy : Prop} {pool : Set Nat} {p q t u i j : Nat} {o : Owner}

/-- The processes of `k'` are processes of `k`, with the same directories and tables. -/
structure Remaining (k k' : Kernel) : Prop where
  mem : ∀ {p}, p ∈ k'.processTable → p ∈ k.processTable
  cr3 : ∀ {p}, p ∈ k'.processTable → (k'.proc p).cr3 = (k.proc p).cr3
  table : k'.table = k.table

namespace Remaining

variable (hR : Remaining k k') (hp : p ∈ k'.processTable)

include hR hp

/-- A process that remains keeps its directory. -/
theorem pd : k'.pd p = k.pd p := by
  unfold Kernel.pd
  rw [hR.cr3 hp]

theorem pde (i : Nat) : k'.pde p i = k.pde p i := by
  rw [Kernel.pde, hR.pd hp, hR.table]
  rfl

theorem pte (i j : Nat) : k'.pte p i j = k.pte p i j := by
  unfold Kernel.pte
  rw [hR.pde hp, hR.table]

omit hp

/-- The layout of the processes that remain, with the windows of their threads. -/
theorem layout (hL : k.Layout phy pool)
    (hwin : ∀ {p t}, p ∈ k'.processTable → t ∈ (k'.proc p).thread → ∃ i, k'.HasWindow p t i)
    (hapart : ∀ {p t u}, p ∈ k'.processTable → t ∈ (k'.proc p).thread → u ∈ (k'.proc p).thread →
      (k'.thr t).stacktop = (k'.thr u).stacktop → t = u) : k'.Layout phy pool := by
  -- every clause about tables holds of the processes that are left
  refine ⟨?_, ?_, ?_, ?_, ?_, ?_, ?_, ?_, ?_, hwin, hapart⟩
  · intro p q hp hq h
    rw [hR.pd hp, hR.pd hq] at h
    exact hL.dirs (hR.mem hp) (hR.mem hq) h
  · intro p hp
    rw [hR.pd hp]
    exact hL.dirIn (hR.mem hp)
  · intro p hp
    rw [hR.cr3 hp]
    exact hL.cr3 (hR.mem hp)
  · intro p q i hp hq hi h0
    rw [hR.pde hp] at h0 ⊢
    rw [hR.pd hq]
    exact hL.tableDir (hR.mem hp) (hR.mem hq) hi h0
  · intro p q i j hp hq hi hj h0 h0' h
    rw [hR.pde hp] at h0 h
    rw [hR.pde hq] at h0' h
    exact hL.tables (hR.mem hp) (hR.mem hq) hi hj h0 h0' h
  · intro p i hp hi h0
    rw [hR.pde hp] at h0 ⊢
    exact hL.tableIn (hR.mem hp) hi h0
  · intro p i hp hi h0
    rw [hR.pde hp] at h0 ⊢
    exact hL.pdeOdd (hR.mem hp) hi h0
  · intro p i j hp hi hj h0
    rw [hR.pte hp] at h0 ⊢
    exact hL.entry (hR.mem hp) hi hj h0
  · intro p i hp hi hi' h0
    rw [hR.pde hp] at h0 ⊢
    exact hL.kernelHalf (hR.mem hp) hi hi' h0

/-- No thread is new and no window is moved. -/
theorem layout_of_threads (hL : k.Layout phy pool)
    (hthread : ∀ {p t}, p ∈ k'.processTable → t ∈ (k'.proc p).thread → t ∈ (k.proc p).thread)
    (hstack : ∀ t, (k'.thr t).stacktop = (k.thr t).stacktop) : k'.Layout phy pool := by
  refine hR.layout hL (fun hp ht => ?_) fun hp ht hu h => ?_
  · obtain ⟨i, hw⟩ := hL.window (hR.mem hp) (hthread hp ht)
    exact ⟨i, hw.odd, hw.low, hw.high, by rw [hstack]; exact hw.stacktop,
      by rw [hR.pde hp]; exact hw.used⟩
  · rw [hstack, hstack] at h
    exact hL.windowsApart (hR.mem hp) (hthread hp ht) (hthread hp hu) h

end Remaining

/-- The same directories and tables. -/
structure SameTables (k k' : Kernel) : Prop where
  cr3 : ∀ p, (k'.proc p).cr3 = (k.proc p).cr3
  table : k'.table = k.table

namespace SameTables

variable (hT : SameTables k k')

include hT

theorem pd (p : Nat) : k'.pd p = k.pd p := by
  unfold Kernel.pd
  rw [hT.cr3]

theorem pde (p i : Nat) : k'.pde p i = k.pde p i := by
  rw [Kernel.pde, hT.pd, hT.table]
  rfl

theorem pte (p i j : Nat) : k'.pte p i j = k.pte p i j := by
  unfold Kernel.pte
  rw [hT.pde, hT.table]

/-- Every process that is still there remains. -/
theorem remaining (hsub : ∀ {p}, p ∈ k'.processTable → p ∈ k.processTable) : Remaining k k' :=
  ⟨hsub, fun _ => hT.cr3 _, hT.table⟩

theorem layout (hL : k.Layout phy pool) (hsub : ∀ {p}, p ∈ k'.processTable → p ∈ k.processTable)
    (hwin : ∀ {p t}, p ∈ k'.processTable → t ∈ (k'.proc p).thread → ∃ i, k'.HasWindow p t i)
    (hapart : ∀ {p t u}, p ∈ k'.processTable → t ∈ (k'.proc p).thread → u ∈ (k'.proc p).thread →
      (k'.thr t).stacktop = (k'.thr u).stacktop → t = u) : k'.Layout phy pool :=
  (hT.remaining hsub).layout hL hwin hapart

/-- Fewer processes, or fewer threads. -/
theorem layout_of_subset (hL : k.Layout phy pool)
    (hsub : ∀ {p}, p ∈ k'.processTable → p ∈ k.processTable)
    (hthread : ∀ {p t}, t ∈ (k'.proc p).thread → t ∈ (k.proc p).thread)
    (hstack : ∀ t, (k'.thr t).stacktop = (k.thr t).stacktop) : k'.Layout phy pool :=
  (hT.remaining hsub).layout_of_threads hL (fun _ ht => hthread ht) hstack

end SameTables

/-! ## Threads

A thread's only frame of its own is the page of its record. Its stack window is the process's. -/

/-- The same processes and queues. -/
structure SameQueues (k k' : Kernel) : Prop extends SameTables k k' where
  processTable : k'.processTable = k.processTable
  msgTail : ∀ p, (k'.proc p).msgTail = (k.proc p).msgTail
  msgCount : ∀ p, (k'.proc p).msgCount = (k.proc p).msgCount
  messages : ∀ p, (k'.proc p).messages = (k.proc p).messages

/-- The frame of the page of one thread changed, and nothing else. -/
theorem frameOf_update_thread (hS : SameQueues k k')
    (hother : ∀ u, u ≠ t → ∀ q, u ∈ (k'.proc q).thread ↔ u ∈ (k.proc q).thread) :
    k'.frameOf = Function.update k.frameOf (.threadPage t) (k'.frameOf (.threadPage t)) := by
  have hinq : ∀ q n, InQueue (k'.proc q) n ↔ InQueue (k.proc q) n := by
    intro q n
    unfold InQueue
    rw [hS.msgTail, hS.msgCount]
  funext o
  by_cases ho : o = .threadPage t
  · rw [ho, Function.update_self]
  rw [Function.update_of_ne ho]
  -- no other owner depends on the list
  cases o with
  | pte q a b => simp only [frameOf, hS.processTable, hS.pte]
  | pageTable q a => simp only [frameOf, hS.processTable, hS.pde]
  | pageDirectory q => simp only [frameOf, hS.processTable, hS.pd]
  | threadPage u =>
    have hu : u ≠ t := fun h => ho (h ▸ rfl)
    simp only [frameOf, hS.processTable, hother u hu]
  | slot q n => simp only [frameOf, hS.processTable, hinq, hS.messages]
  | record q => simp only [frameOf, hS.processTable]

theorem frameOf_threadPage (hp : p ∈ k.processTable) (ht : t ∈ (k.proc p).thread) :
    k.frameOf (.threadPage t) = some t := if_pos ⟨p, hp, ht⟩

/-- A page that is no thread's has no owner of this kind. -/
theorem frameOf_threadPage_none (h : ∀ p ∈ k.processTable, t ∉ (k.proc p).thread) :
    k.frameOf (.threadPage t) = none := by
  refine if_neg ?_
  rintro ⟨p, hp, ht⟩
  exact h p hp ht

/-- A thread page is the thread's own. -/
theorem eq_of_frameOf_threadPage {f : Nat} (h : k.frameOf (.threadPage t) = some f) : f = t := by
  simp only [frameOf] at h
  split at h
  · exact (Option.some.inj h).symm
  · cases h

/-! ## Processes

A process that joins brings an empty user half and the shared kernel half. -/

/-- A process that is not in the ring owns nothing. -/
theorem frameOf_of_not_mem (hnot : p ∉ k.processTable) (ho : o ∈ ownersOf p) :
    k.frameOf o = none := by
  rw [mem_ownersOf] at ho
  -- every kind of owner asks for the ring first
  cases o with
  | pte q a b =>
    obtain rfl := Option.some.inj ho
    exact if_neg fun h => hnot h.1
  | pageTable q a =>
    obtain rfl := Option.some.inj ho
    exact if_neg fun h => hnot h.1
  | pageDirectory q =>
    obtain rfl := Option.some.inj ho
    exact if_neg hnot
  | threadPage u => exact nomatch ho
  | slot q n =>
    obtain rfl := Option.some.inj ho
    exact if_neg fun h => hnot h.1
  | record q =>
    obtain rfl := Option.some.inj ho
    exact if_neg hnot

/-- What a process without threads owns disappears with it from the ring. -/
theorem frameOf_erase (ht : k'.table = k.table)
    (hmem : ∀ q, q ∈ k'.processTable ↔ q ∈ k.processTable ∧ q ≠ p)
    (hcr3 : ∀ q, q ≠ p → (k'.proc q).cr3 = (k.proc q).cr3)
    (hthread : ∀ q, q ≠ p → (k'.proc q).thread = (k.proc q).thread)
    (hslot : ∀ q, q ≠ p → ∀ n, (InQueue (k'.proc q) n ↔ InQueue (k.proc q) n) ∧
      (k'.proc q).messages n = (k.proc q).messages n)
    (hempty : (k.proc p).thread = []) : k'.frameOf = without k.frameOf (ownersOf p) := by
  have hpd : ∀ q, q ≠ p → k'.pd q = k.pd q := fun q hq => by
    unfold Kernel.pd
    rw [hcr3 q hq]
  have hpde : ∀ q, q ≠ p → ∀ a, k'.pde q a = k.pde q a := fun q hq a => by
    rw [Kernel.pde, hpd q hq, ht]
    rfl
  have hpte : ∀ q, q ≠ p → ∀ a b, k'.pte q a b = k.pte q a b := fun q hq a b => by
    unfold Kernel.pte
    rw [hpde q hq, ht]
  -- an owner of `p` has nothing left, any other is untouched
  funext o
  by_cases ho : o ∈ ownersOf p
  · rw [without_of_mem ho]
    exact frameOf_of_not_mem (fun hp => ((hmem p).mp hp).2 rfl) ho
  · rw [without_of_notMem ho]
    have hiff : ∀ {q}, q ≠ p → (q ∈ k'.processTable ↔ q ∈ k.processTable) :=
      fun hq => (hmem _).trans (and_iff_left hq)
    cases o with
    | threadPage u =>
      have hex : (∃ q ∈ k'.processTable, u ∈ (k'.proc q).thread) ↔
          ∃ q ∈ k.processTable, u ∈ (k.proc q).thread := by
        constructor
        · rintro ⟨q, hq, hu⟩
          obtain ⟨hq, hqp⟩ := (hmem q).mp hq
          exact ⟨q, hq, hthread q hqp ▸ hu⟩
        · rintro ⟨q, hq, hu⟩
          have hqp : q ≠ p := by
            rintro rfl
            rw [hempty] at hu
            exact List.not_mem_nil hu
          exact ⟨q, (hiff hqp).mpr hq, (hthread q hqp).symm ▸ hu⟩
      simp only [frameOf, hex]
    | pte q a b =>
      have hq : q ≠ p := fun h => ho (congrArg some h)
      simp only [frameOf, hiff hq, hpte q hq]
    | pageTable q a =>
      have hq : q ≠ p := fun h => ho (congrArg some h)
      simp only [frameOf, hiff hq, hpde q hq]
    | pageDirectory q =>
      have hq : q ≠ p := fun h => ho (congrArg some h)
      simp only [frameOf, hiff hq, hpd q hq]
    | slot q n =>
      have hq : q ≠ p := fun h => ho (congrArg some h)
      simp only [frameOf, hiff hq, (hslot q hq n).1, (hslot q hq n).2]
    | record q =>
      have hq : q ≠ p := fun h => ho (congrArg some h)
      simp only [frameOf, hiff hq]

/-- The layout without one process, whose record does not matter any more. -/
theorem Layout.without (hL : k.Layout phy pool)
    (hmem : ∀ q, q ∈ k'.processTable ↔ q ∈ k.processTable ∧ q ≠ p)
    (hother : ∀ q, q ≠ p → k'.proc q = k.proc q) (ht : k'.table = k.table) (hthr : k'.thr = k.thr) :
    k'.Layout phy pool := by
  have hsame : ∀ {q}, q ∈ k'.processTable → k'.proc q = k.proc q :=
    fun hq => hother _ ((hmem _).mp hq).2
  have hR : Remaining k k' := ⟨fun hq => ((hmem _).mp hq).1, fun hq => by rw [hsame hq], ht⟩
  refine hR.layout_of_threads hL (fun hq hu => ?_) fun u => ?_
  · rwa [hsame hq] at hu
  · rw [hthr]

/-- A page filled to be the directory of a new process. -/
structure Directory (k : Kernel) (pool : Set Nat) (d : Nat) : Prop where
  physical : PAGE_SIZE ∣ va2pa d ∧ pa2va (va2pa d) = d
  fresh : k.Fresh d
  inPool : d ∈ pool
  user : ∀ i < USER_PDES, k.table d i = 0
  kernel : ∀ i, USER_PDES ≤ i → i < 1024 → k.table d i ≠ 0 → frameAt (k.table d i) ∉ pool

/-- A process without threads and with an empty user half joins the ring. -/
theorem Layout.insert {d : Nat} (hL : k.Layout phy pool) (hd : k.Directory pool d)
    (hmem : ∀ q, q ∈ k'.processTable ↔ q = p ∨ q ∈ k.processTable) (ht : k'.table = k.table)
    (hother : ∀ q, q ≠ p → k'.proc q = k.proc q) (hcr3 : (k'.proc p).cr3 = va2pa d)
    (hempty : (k'.proc p).thread = []) (hstack : ∀ t, (k'.thr t).stacktop = (k.thr t).stacktop) :
    k'.Layout phy pool := by
  have hpd : k'.pd p = d := by rw [pd, hcr3, hd.physical.2]
  have hpde : ∀ i, k'.pde p i = k.table d i := fun i => by rw [pde, hpd, ht]
  have hzero : ∀ i, i < USER_PDES → k'.pde p i = 0 := fun i hi => (hpde i).trans (hd.user i hi)
  have hpd' : ∀ q, q ≠ p → k'.pd q = k.pd q := fun q hq => by rw [pd, pd, hother q hq]
  have hpde' : ∀ q, q ≠ p → ∀ i, k'.pde q i = k.pde q i := fun q hq i => by
    rw [pde, hpd' q hq, ht]
    rfl
  have hpte' : ∀ q, q ≠ p → ∀ i j, k'.pte q i j = k.pte q i j := fun q hq i j => by
    unfold pte
    rw [hpde' q hq, ht]
  have hold : ∀ {q}, q ∈ k'.processTable → q ≠ p → q ∈ k.processTable :=
    fun hq hne => ((hmem _).mp hq).resolve_left hne
  have hne_of_pde : ∀ {q i}, i < USER_PDES → k'.pde q i ≠ 0 → q ≠ p :=
    fun hi h0 hqp => h0 (hqp ▸ hzero _ hi)
  constructor
  -- for each clause: the new process has an empty user half, the others are as they were
  case dirs =>
    intro q r hq hr h
    by_cases hqp : q = p
    · by_cases hrp : r = p
      · rw [hqp, hrp]
      · rw [hqp, hpd, hpd' r hrp] at h
        exact absurd h (hd.fresh.dir (hold hr hrp))
    · by_cases hrp : r = p
      · rw [hrp, hpd, hpd' q hqp] at h
        exact absurd h.symm (hd.fresh.dir (hold hq hqp))
      · rw [hpd' q hqp, hpd' r hrp] at h
        exact hL.dirs (hold hq hqp) (hold hr hrp) h
  case dirIn =>
    intro q hq
    by_cases hqp : q = p
    · rw [hqp, hpd]
      exact hd.inPool
    · rw [hpd' q hqp]
      exact hL.dirIn (hold hq hqp)
  case cr3 =>
    intro q hq
    by_cases hqp : q = p
    · rw [hqp, hcr3]
      exact hd.physical.1
    · rw [hother q hqp]
      exact hL.cr3 (hold hq hqp)
  case tableDir =>
    intro q r i hq hr hi h0
    have hqp := hne_of_pde hi h0
    rw [hpde' q hqp] at h0 ⊢
    by_cases hrp : r = p
    · rw [hrp, hpd]
      exact (hd.fresh.table (hold hq hqp) hi h0).symm
    · rw [hpd' r hrp]
      exact hL.tableDir (hold hq hqp) (hold hr hrp) hi h0
  case tables =>
    intro q r i j hq hr hi hj h0 h0' h
    have hqp := hne_of_pde hi h0
    have hrp := hne_of_pde hj h0'
    rw [hpde' q hqp] at h0 h
    rw [hpde' r hrp] at h0' h
    exact hL.tables (hold hq hqp) (hold hr hrp) hi hj h0 h0' h
  case tableIn =>
    intro q i hq hi h0
    have hqp := hne_of_pde hi h0
    rw [hpde' q hqp] at h0 ⊢
    exact hL.tableIn (hold hq hqp) hi h0
  case pdeOdd =>
    intro q i hq hi h0
    have hqp := hne_of_pde hi h0
    rw [hpde' q hqp] at h0 ⊢
    exact hL.pdeOdd (hold hq hqp) hi h0
  case entry =>
    intro q i j hq hi hj h0
    have hqp : q ≠ p := fun hqp => h0 (hqp ▸ pte_of_no_pde (hzero i hi))
    rw [hpte' q hqp] at h0 ⊢
    exact hL.entry (hold hq hqp) hi hj h0
  case kernelHalf =>
    intro q i hq hi hi' h0
    by_cases hqp : q = p
    · rw [hqp, hpde] at h0 ⊢
      exact hd.kernel i hi hi' h0
    · rw [hpde' q hqp] at h0 ⊢
      exact hL.kernelHalf (hold hq hqp) hi hi' h0
  case window =>
    intro q t hq hu
    by_cases hqp : q = p
    · rw [hqp, hempty] at hu
      exact absurd hu List.not_mem_nil
    · rw [hother q hqp] at hu
      obtain ⟨i, hw⟩ := hL.window (hold hq hqp) hu
      exact ⟨i, hw.odd, hw.low, hw.high, by rw [hstack]; exact hw.stacktop,
        by rw [hpde' q hqp]; exact hw.used⟩
  case windowsApart =>
    intro q t u hq hu hu' h
    by_cases hqp : q = p
    · rw [hqp, hempty] at hu
      exact absurd hu List.not_mem_nil
    · rw [hother q hqp] at hu hu'
      rw [hstack, hstack] at h
      exact hL.windowsApart (hold hq hqp) hu hu' h

end Kernel

end NorlitOS
