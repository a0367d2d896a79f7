import NorlitOS.Process.Depart

/-!
# Disposing threads and processes

`disposeThread` ends in one of three ways: threads are left and the current one is among them;
the current one has gone, so another takes its place and `schedule` runs; or none is left, and
the process goes too. `disposeProcess` is a sequence of such disposals.
-/

namespace NorlitOS

open Dyadic Ledger

namespace Kernel

variable {k k' k₁ k₂ k₃ : Kernel} {own : Owner → Option Nat} {phy : Prop} {pool : Set Nat}
  {p q t u i c f n : Nat}

/-! ## The page of the thread

It is freed last, when no list has the thread any more. The ledger still has it under the thread's
own name. -/

/-- The last statement of `disposeThread`. -/
theorem freeThreadPage_spec (hL : k.Layout phy pool) (hT : k.Threads)
    (hO : Owned k.heap (Function.update k.frameOf (.threadPage t) (some t)) pool)
    (hnone : k.frameOf (.threadPage t) = none) :
    ∃ h', k.freePage t = .ok { k with heap := h' } ∧ ({ k with heap := h' } : Kernel).Inv phy pool := by
  obtain ⟨h', hok, hO'⟩ := freePage_spec hO (Function.update_self _ _ _)
  refine ⟨h', hok, ?_, hL.withHeap h', hT.withHeap h'⟩
  rwa [Function.update_idem, Function.update_eq_self_iff.mpr hnone.symm] at hO'

/-! ## Switching away from a process

A process that is disposed while it runs cannot be gone back to. It is marked as blocked first and
the scheduler picks another one. -/

/-- `k'` is `k` after a possible `schedule`; the process `p` does not run. -/
structure Switched (k : Kernel) (pool : Set Nat) (p : Nat) (k' : Kernel) : Prop where
  heap : k'.heap = k.heap
  thr : k'.thr = k.thr
  processTable : k'.processTable = k.processTable
  running : k'.currentProc ∈ k.processTable
  away : k'.currentProc ≠ p
  currentThread : k'.currentThread = (k'.proc k'.currentProc).current
  proc : ∀ q, k'.proc q = { k.proc q with flag := (k'.proc q).flag, ticks := (k'.proc q).ticks }
  frames : k'.frameOf = k.frameOf
  pte : ∀ q ∈ k.processTable, ∀ a < USER_PDES, ∀ b, k'.pte q a b = k.pte q a b
  half : SameHalf pool k k'
  procOk : ∀ q ∈ k.processTable, q ≠ p → k'.ProcOk q
  steady : (∀ q ∈ k.processTable, q ≠ k.currentProc → (k.proc q).flag = idleFlag (k.proc q)) →
    (k.currentProc ≠ p → (k.proc k.currentProc).flag = 2) →
    (k'.proc k'.currentProc).flag = 2 ∧ ∀ q ∈ k.processTable, q ≠ p → q ≠ k'.currentProc →
      (k'.proc q).flag = idleFlag (k'.proc q)

/-- If the process was running, another one runs now. -/
theorem switchFrom_spec (hL : k.Layout phy pool) (hrun : k.currentProc ∈ k.processTable)
    (hcur : k.currentThread = (k.proc k.currentProc).current)
    (hproc : ∀ q ∈ k.processTable, q ≠ p → k.ProcOk q) :
    Yields (k.switchFrom p) fun k' => k'.Layout phy pool ∧ Switched k pool p k' := by
  unfold switchFrom
  by_cases hp : k.currentProc = p
  · rw [if_pos hp]
    refine schedule_spec.mono fun k' hS => ⟨hS.layout hL hrun, ?_⟩
    have hne := hS.next_ne (by decide)
    refine ⟨hS.heap, hS.thr, hS.processTable, hS.next, fun hc => hne (hc.trans hp.symm), ?_, ?_,
      hS.frameOf hL, fun q hq a ha b => hS.pte_user hL hq ha b, hS.sameHalf hL hrun,
      fun q hq hqp => hS.procOk hL hq (hproc q hq hqp), fun hidle _ => ⟨hS.flag_running, ?_⟩⟩
    · rw [hS.currentThread, hS.proc]
    · intro q
      rw [hS.proc]
    · intro q hq hqp hqn
      exact hS.flag_idle hqn (fun hc => absurd (hc.trans hp) hqp) (hidle q hq)
  -- another process is running, and goes on
  · rw [if_neg hp]
    exact ⟨hL, rfl, rfl, rfl, hrun, hp, hcur, fun _ => rfl, rfl, fun _ _ _ _ _ => rfl,
      SameHalf.refl k, hproc, fun hidle hflag => ⟨hflag hp, fun q hq _ hqn => hidle q hq hqn⟩⟩

/-! ## A process without threads

The process leaves the ring with its directory, its pages and its queue. The frames it owned are
free, and no others. -/

/-- `k'` is `k` without the process `p`. -/
structure Removed (k : Kernel) (pool : Set Nat) (p : Nat) (k' : Kernel) : Prop where
  thr : k'.thr = k.thr
  processTable : k'.processTable = k.processTable.erase p
  proc : ∀ q, q ≠ p →
    k'.proc q = { k.proc q with flag := (k'.proc q).flag, ticks := (k'.proc q).ticks }
  thread : (k'.proc p).thread = (k.proc p).thread
  frames : k'.frameOf = without k.frameOf (ownersOf p)
  pte : ∀ q ∈ k.processTable, q ≠ p → ∀ a < USER_PDES, ∀ b, k'.pte q a b = k.pte q a b
  half : SameHalf pool k k'
  steady : (∀ q ∈ k.processTable, q ≠ k.currentProc → (k.proc q).flag = idleFlag (k.proc q)) →
    (k.currentProc ≠ p → (k.proc k.currentProc).flag = 2) → k'.Steady

/-- What the walks of `disposeEmpty` free, and the record. -/
theorem without_ownersOf :
    Function.update (without (without (Function.update k.frameOf (.threadPage t) (some t))
      (spaceOwners p)) (slotOwners p)) (.record p) none =
      Function.update (without k.frameOf (ownersOf p)) (.threadPage t) (some t) := by
  rw [update_none, ← without_union, ← without_union, ← Set.union_assoc]
  funext o
  by_cases ho : o ∈ spaceOwners p ∪ slotOwners p ∪ {Owner.record p}
  · -- an owner that one of the walks goes over
    have hop : o ∈ ownersOf p := by
      rcases ho with (((⟨i, -, hi⟩ | rfl) | ⟨m, rfl⟩) | rfl)
      · exact process_of_mem_tableOwners hi
      · rfl
      · rfl
      · rfl
    have hne : o ≠ .threadPage t := by
      rintro rfl
      exact nomatch (hop : Owner.process _ = some p)
    rw [without_of_mem ho, Function.update_of_ne hne, without_of_mem hop]
  -- the page of the thread is left, and what no process owns
  · rw [without_of_notMem ho]
    by_cases hot : o = .threadPage t
    · rw [hot, Function.update_self, Function.update_self]
    · rw [Function.update_of_ne hot, Function.update_of_ne hot]
      by_cases hop : o ∈ ownersOf p
      · -- entries outside the user half have no owner
        rw [without_of_mem hop]
        cases o with
        | pte q a b =>
          obtain rfl := Option.some.inj hop
          refine if_neg fun hc => ho (Or.inl (Or.inl (Or.inl ⟨a, hc.2.1, Or.inl ⟨b, hc.2.2, rfl⟩⟩)))
        | pageTable q a =>
          obtain rfl := Option.some.inj hop
          exact if_neg fun hc => ho (Or.inl (Or.inl (Or.inl ⟨a, hc.2.1, Or.inr rfl⟩)))
        | pageDirectory q =>
          obtain rfl := Option.some.inj hop
          exact absurd (Or.inl (Or.inl (Or.inr rfl))) ho
        | threadPage u => exact nomatch (hop : Owner.process _ = some p)
        | slot q m =>
          obtain rfl := Option.some.inj hop
          exact absurd (Or.inl (Or.inr ⟨m, rfl⟩)) ho
        | record q =>
          obtain rfl := Option.some.inj hop
          exact absurd (Or.inr rfl) ho
      · rw [without_of_notMem hop]

/-- `disposeProcess` of a process without threads, when another one runs: it is unlinked, and its
directory, the queued pages and the record go back. -/
def recycleProcess (k : Kernel) (proc : Nat) : Except Stop Kernel := do
  let k := { k with processTable := k.processTable.erase proc }
  let k ← k.recycleProcessPDE (k.proc proc).cr3
  let k ← recycleMessages proc (k.proc proc).msgCount k
  let h ← k.heap.free proc
  .ok { k with heap := h }

theorem disposeEmpty_eq : k.disposeEmpty p = k.switchFrom p >>= fun k => k.recycleProcess p := rfl

/-- What each of the three steps gives back is struck out in the ledger. -/
theorem recycleProcess_spec (hL : k.Layout phy pool) (hp : p ∈ k.processTable)
    (hcount : (k.proc p).msgCount ≤ MAX_MESSAGE_COUNT) (htail : (k.proc p).msgTail < MAX_MESSAGE_COUNT)
    (hO : Owned k.heap (Function.update k.frameOf (.threadPage t) (some t)) pool) :
    ∃ k', k.recycleProcess p = .ok k' ∧
      SameButQueue { k with processTable := k.processTable.erase p } p k' ∧
      Owned k'.heap (Function.update (without k.frameOf (ownersOf p)) (.threadPage t) (some t)) pool := by
  unfold recycleProcess
  have hne : ∀ {o : Owner}, o ≠ .threadPage t →
      Function.update k.frameOf (.threadPage t) (some t) o = k.frameOf o :=
    fun ho => Function.update_of_ne ho _ _
  have hcr3 := frameAt_cr3 hL hp
  -- the directory and what is behind it
  obtain ⟨h₁, hok₁, hO₁⟩ := recycleProcessPDE_spec
    (k := { k with processTable := k.processTable.erase p }) (p := p) hO
    (by rw [hne (by simp)]; exact frameOf_pageDirectory hp) hcr3 rfl
    (fun i hi => by
      rw [hne (by simp)]
      by_cases h0 : k.pde p i = 0
      · rw [frameOf_pageTable_none h0]
        exact (if_pos h0).symm
      · rw [frameOf_pageTable hp hi h0]
        exact (if_neg h0).symm)
    (fun i hi j hj => by rw [hne (by simp)]; exact frameOf_pte hp hi hj)
  dsimp only
  rw [hok₁, ok_bind]
  -- the queued messages
  set k₁ : Kernel := { k with heap := h₁, processTable := k.processTable.erase p } with hk₁
  have hslot : ∀ m, without (Function.update k.frameOf (.threadPage t) (some t)) (spaceOwners p)
      (.slot p m) = if InQueue (k₁.proc p) m then
        some (frameAt ((k₁.proc p).messages m % 2 ^ 32)) else none := by
    intro m
    have hnot : Owner.slot p m ∉ spaceOwners p := by
      rintro (⟨i, -, ⟨j, -, hc⟩ | hc⟩ | hc) <;> exact nomatch hc
    rw [without_of_notMem hnot, hne (by simp)]
    by_cases hm : InQueue (k.proc p) m
    · rw [frameOf_slot hp hm]
      exact (if_pos hm).symm
    · rw [frameOf_slot_none hm]
      exact (if_neg hm).symm
  obtain ⟨k₂, hok₂, hQ, hO₂⟩ := recycleMessages_spec (k := k₁) hO₁ rfl hcount htail hslot
  rw [hok₂, ok_bind]
  -- the record
  have hrec : without (without (Function.update k.frameOf (.threadPage t) (some t)) (spaceOwners p))
      (slotOwners p) (.record p) = some (p - 4) := by
    have hnot : Owner.record p ∉ slotOwners p := by
      rintro ⟨m, hc⟩
      exact nomatch hc
    have hnot' : Owner.record p ∉ spaceOwners p := by
      rintro (⟨i, -, ⟨j, -, hc⟩ | hc⟩ | hc) <;> exact nomatch hc
    rw [without_of_notMem hnot, without_of_notMem hnot', hne (by simp)]
    exact if_pos hp
  have hp4 : p = p - 4 + 4 := by
    have hlo := (hO₂.mem_managed hrec).1
    unfold PAGE_OFFSET at hlo
    omega
  obtain ⟨h₃, hok₃, hO₃⟩ := hO₂.freeRecord hrec hp4
  rw [hok₃]
  rw [without_ownersOf] at hO₃
  exact ⟨{ k₂ with heap := h₃ }, rfl, ⟨hQ.table, hQ.thr, hQ.processTable, hQ.currentProc,
    hQ.currentThread, hQ.other, hQ.thread⟩, hO₃⟩

section Unlinked

variable (hS : Switched k pool p k₁) (hnd : k.processTable.Nodup)
  (hQ : SameButQueue { k₁ with processTable := k₁.processTable.erase p } p k')

include hS hnd hQ

theorem Switched.mem_unlinked : q ∈ k'.processTable ↔ q ∈ k₁.processTable ∧ q ≠ p := by
  have hnd₁ : k₁.processTable.Nodup := by rwa [hS.processTable]
  rw [hQ.processTable, hnd₁.mem_erase_iff]
  exact and_comm

/-- The other processes go on as they were. -/
theorem Switched.threads (hpte : ∀ q, q ≠ p → ∀ a b, k'.pte q a b = k₁.pte q a b) : k'.Threads := by
  have hring : k'.processTable = k₁.processTable.erase p := hQ.processTable
  have hother : ∀ q, q ≠ p → k'.proc q = k₁.proc q := hQ.other
  have hcur : k'.currentProc = k₁.currentProc := hQ.currentProc
  refine ⟨?_, ?_, ?_, fun q hq => ?_⟩
  · rw [hring, hS.processTable]
    exact hnd.erase p
  · rw [hS.mem_unlinked hnd hQ, hcur, hS.processTable]
    exact ⟨hS.running, hS.away⟩
  · rw [hcur, hother _ hS.away]
    exact hQ.currentThread.trans hS.currentThread
  · obtain ⟨hq₁, hqp⟩ := (hS.mem_unlinked hnd hQ).mp hq
    have hpq := hother q hqp
    have hthr : k'.thr = k₁.thr := hQ.thr
    refine (hS.procOk q (hS.processTable ▸ hq₁) hqp).congr (SameProc.of_eq hpq fun u _ => by rw [hthr])
      fun u _ hB => ?_
    exact hB.congr (by rw [hpq]) (by rw [hpq]) hcur (by rw [hpq]) (by rw [hthr])
      fun a _ b => hpte q hqp a b

/-- What it owned has no owner now. -/
theorem Switched.removed (hL : k₁.Layout phy pool) (hempty : (k.proc p).thread = []) :
    k'.Layout phy pool ∧ k'.Threads ∧ Removed k pool p k' ∧
      k'.frameOf = without k₁.frameOf (ownersOf p) := by
  have hother : ∀ q, q ≠ p → k'.proc q = k₁.proc q := hQ.other
  have hring : k'.processTable = k₁.processTable.erase p := hQ.processTable
  have hcur : k'.currentProc = k₁.currentProc := hQ.currentProc
  have hmem : ∀ q, q ∈ k'.processTable ↔ q ∈ k₁.processTable ∧ q ≠ p :=
    fun q => hS.mem_unlinked hnd hQ
  have htable : k'.table = k₁.table := hQ.table
  have hempty₁ : (k₁.proc p).thread = [] := by
    rw [hS.proc]
    exact hempty
  -- the process has no threads left, so the rest goes with its record
  have hframes : k'.frameOf = without k₁.frameOf (ownersOf p) := by
    refine frameOf_erase htable hmem (fun q hq => by rw [hother q hq])
      (fun q hq => by rw [hother q hq]) (fun q hq m => ?_) hempty₁
    rw [hother q hq]
    exact ⟨Iff.rfl, rfl⟩
  have hpde : ∀ q, q ≠ p → ∀ a, k'.pde q a = k₁.pde q a := fun q hq a => by
    unfold pde pd
    rw [hother q hq, htable]
  have hpte : ∀ q, q ≠ p → ∀ a b, k'.pte q a b = k₁.pte q a b := fun q hq a b => by
    unfold Kernel.pte
    rw [hpde q hq, htable]
  refine ⟨hL.without hmem hother htable hQ.thr, hS.threads hnd hQ hpte, ?_, hframes⟩
  refine ⟨hQ.thr.trans hS.thr, by rw [hring, hS.processTable], fun q hq => ?_, ?_,
    by rw [hframes, hS.frames], fun q hq hqp a ha b => ?_, ?_, fun hidle hflag => ?_⟩
  · rw [hother q hq]
    exact hS.proc q
  · rw [show (k'.proc p).thread = (k₁.proc p).thread from hQ.thread, hS.proc]
  · rw [hpte q hqp, hS.pte q hq a ha]
  · have hhalf : SameHalf pool k₁ k' := by
      exact ⟨fun f _ => by rw [htable], fun q _ hq i _ => hpde q ((hmem q).mp hq).2 i,
        fun q hq₁ hq => ⟨q, hq₁, hpde q ((hmem q).mp hq).2 _⟩⟩
    exact hS.half.trans_of_eq hhalf hS.processTable
  · obtain ⟨hrunning, hothers⟩ := hS.steady hidle hflag
    refine ⟨by rw [hcur, hother _ hS.away]; exact hrunning, fun q hq hqc => ?_⟩
    obtain ⟨hq₁, hqp⟩ := (hmem q).mp hq
    rw [hother q hqp]
    exact hothers q (hS.processTable ▸ hq₁) hqp (hcur ▸ hqc)

end Unlinked

/-- The rest of `disposeProcess` behind a possible `schedule`. -/
theorem Switched.recycled (hS : Switched k pool p k₁) (hL : k₁.Layout phy pool)
    (hnd : k.processTable.Nodup) (hp : p ∈ k.processTable) (hempty : (k.proc p).thread = [])
    (hcount : (k.proc p).msgCount ≤ MAX_MESSAGE_COUNT) (htail : (k.proc p).msgTail < MAX_MESSAGE_COUNT)
    (hO : Owned k.heap (Function.update k.frameOf (.threadPage t) (some t)) pool) :
    ∃ k', k₁.recycleProcess p = .ok k' ∧ k'.Layout phy pool ∧ k'.Threads ∧
      Owned k'.heap (Function.update k'.frameOf (.threadPage t) (some t)) pool ∧
      Removed k pool p k' := by
  have hO₁ : Owned k₁.heap (Function.update k₁.frameOf (.threadPage t) (some t)) pool := by
    rw [hS.heap, hS.frames]
    exact hO
  obtain ⟨k', hok, hQ, hO'⟩ := recycleProcess_spec hL (by rwa [hS.processTable])
    (by rw [hS.proc]; exact hcount) (by rw [hS.proc]; exact htail) hO₁
  obtain ⟨hL', hT', hR, hframes⟩ := hS.removed hnd hQ hL hempty
  exact ⟨k', hok, hL', hT', by rw [hframes]; exact hO', hR⟩

/-- **`disposeProcess`** of a process without threads, in `disposeThread`. -/
theorem disposeEmpty_spec (hL : k.Layout phy pool) (hnd : k.processTable.Nodup)
    (hrun : k.currentProc ∈ k.processTable)
    (hcur : k.currentThread = (k.proc k.currentProc).current)
    (hproc : ∀ q ∈ k.processTable, q ≠ p → k.ProcOk q) (hp : p ∈ k.processTable)
    (hempty : (k.proc p).thread = []) (hcount : (k.proc p).msgCount ≤ MAX_MESSAGE_COUNT)
    (htail : (k.proc p).msgTail < MAX_MESSAGE_COUNT)
    (hO : Owned k.heap (Function.update k.frameOf (.threadPage t) (some t)) pool) :
    Yields (k.disposeEmpty p) fun k' => k'.Layout phy pool ∧ k'.Threads ∧
      Owned k'.heap (Function.update k'.frameOf (.threadPage t) (some t)) pool ∧
      Removed k pool p k' := by
  rw [disposeEmpty_eq]
  refine (switchFrom_spec hL hrun hcur hproc).bind fun k₁ hk₁ => ?_
  obtain ⟨hL₁, hS⟩ := hk₁
  obtain ⟨k', hok, hk'⟩ := hS.recycled hL₁ hnd hp hempty hcount htail hO
  exact Yields.of_eq_ok hok hk'

/-! ## `disposeThread`

The three ways to end have one specification, `Disposed`: the owners of the thread are gone from
the ledger, and with the last thread all owners of the process. -/

/-- What the thread `t` of `p` owns; the last thread takes the process with it. -/
def threadOwners (k : Kernel) (p t : Nat) : Set Owner :=
  {Owner.threadPage t} ∪
    if (k.proc p).thread = [t] then ownersOf p else windowOwners p (stackEntry (k.thr t).stacktop)

/-- `k'` is `k` without the thread `t` of `p`. -/
structure Disposed (k : Kernel) (pool : Set Nat) (p t : Nat) (k' : Kernel) : Prop where
  thr : k'.thr = k.thr
  processTable : k'.processTable =
    if (k.proc p).thread = [t] then k.processTable.erase p else k.processTable
  thread : (k'.proc p).thread = (k.proc p).thread.erase t
  pid : p ∈ k'.processTable → (k'.proc p).pid = (k.proc p).pid
  other : ∀ q, q ≠ p →
    k'.proc q = { k.proc q with flag := (k'.proc q).flag, ticks := (k'.proc q).ticks }
  pte : ∀ q ∈ k.processTable, q ≠ p → ∀ a < USER_PDES, ∀ b, k'.pte q a b = k.pte q a b
  pte_self : p ∈ k'.processTable → ∀ a < USER_PDES, ∀ b, k'.pte p a b = k.pte p a b ∨ k'.pte p a b = 0
  half : SameHalf pool k k'
  frames : k'.frameOf = without k.frameOf (k.threadOwners p t)
  steady : p = k.currentProc → k.Steady → k'.Steady

/-- The list is empty if it had this thread only. -/
theorem erase_eq_nil {l : List Nat} (ht : t ∈ l) : l.erase t = [] ↔ l = [t] := by
  constructor
  · intro h
    have hlen := List.length_erase_of_mem ht
    rw [h, List.length_nil] at hlen
    have hpos := List.length_pos_of_mem ht
    obtain ⟨a, rfl⟩ := List.length_eq_one_iff.mp (show l.length = 1 by omega)
    rw [List.mem_singleton.mp ht]
  · rintro rfl
    simp

/-- The ledger entry of the thread's page is struck out with its window. -/
theorem without_update_threadPage {S : Set Owner} :
    without (Function.update k.frameOf (.threadPage t) none) S =
      without k.frameOf ({Owner.threadPage t} ∪ S) := by
  rw [update_none, ← without_union]

section Ends

variable (h : k.Inv phy pool) (hp : p ∈ k.processTable) (ht : t ∈ (k.proc p).thread)
  (hD : Departed k p t k₁)
  (hO : Owned k₁.heap (Function.update k₁.frameOf (.threadPage t) (some t)) pool)

include h hp ht hD

/-- The kernel half stays. -/
theorem Departed.half : SameHalf pool k k₁ := by
  have hw := window_stackEntry h hp ht
  have hin := h.layout.dirIn hp
  have h₁ : SameHalf pool k (k.setWord (k.pd p) (stackEntry (k.thr t).stacktop - 1) 0) :=
    sameHalf_setWord hin fun _ => lt_of_le_of_lt (Nat.sub_le _ _) hw.high
  have h₂ : SameHalf pool (k.setWord (k.pd p) (stackEntry (k.thr t).stacktop - 1) 0)
      ((k.setWord (k.pd p) (stackEntry (k.thr t).stacktop - 1) 0).setWord (k.pd p)
        (stackEntry (k.thr t).stacktop) 0) := sameHalf_setWord hin fun _ => hw.high
  have h₃ : SameHalf pool ((k.setWord (k.pd p) (stackEntry (k.thr t).stacktop - 1) 0).setWord (k.pd p)
      (stackEntry (k.thr t).stacktop) 0) k₁ := by
    refine SameHalf.of_eq hD.table fun q => ?_
    by_cases hqp : q = p
    · rw [hqp, hD.proc_self]
      rfl
    · rw [hD.proc_of_ne hqp]
      rfl
  exact (h₁.trans_of_eq h₂ rfl).trans_of_eq h₃ rfl

/-- The ledger without the thread and its window. -/
theorem Departed.frames_eq : k₁.frameOf = without k.frameOf
    ({Owner.threadPage t} ∪ windowOwners p (stackEntry (k.thr t).stacktop)) := by
  rw [hD.frameOf h hp ht, without_update_threadPage]

/-- The page of the thread has no owner left in a list. -/
theorem Departed.threadPage_none : k₁.frameOf (.threadPage t) = none := by
  rw [hD.frames_eq h hp ht]
  exact without_of_mem (Or.inl rfl)

/-- Every entry stays or is cleared. -/
theorem Departed.pte_or (q : Nat) (hq : q ∈ k.processTable) {a : Nat} (ha : a < USER_PDES) (b : Nat) :
    k₁.pte q a b = k.pte q a b ∨ k₁.pte q a b = 0 := by
  rw [hD.pte h hp ht hq ha]
  split
  · exact Or.inr rfl
  · exact Or.inl rfl

omit h hp ht in
/-- The running process, of which a thread has left: it has flag 2 as before. -/
theorem Departed.steady (hs : k.Steady) (hrun : p = k.currentProc) :
    (k₁.proc k₁.currentProc).flag = 2 ∧ ∀ q ∈ k.processTable, q ≠ k₁.currentProc →
      (k₁.proc q).flag = idleFlag (k₁.proc q) := by
  rw [hD.currentProc, ← hrun]
  refine ⟨?_, fun q hq hqp => ?_⟩
  · rw [hD.proc_self]
    show (k.proc p).flag = 2
    rw [hrun]
    exact hs.running
  · rw [hD.proc_of_ne hqp]
    exact hs.idle q hq (hrun ▸ hqp)

/-- Another thread of the process becomes its current one. -/
theorem Departed.procOk_redirected (hcur : (k.proc p).current = t) (hc : c ∈ (k₁.proc p).thread) :
    ∀ q ∈ k.processTable, (k₁.modProc p fun P => { P with current := c }).ProcOk q := by
  intro q hq
  set k₂ := k₁.modProc p (fun P => { P with current := c })
  have hM : SameMaps k₁ k₂ :=
    sameMaps_modProc (fun _ => rfl) (fun _ => rfl) (fun _ => rfl) (fun _ => rfl) fun _ => rfl
  by_cases hqp : q = p
  · subst hqp
    exact hD.procOk_self h hq ht modProc_proc_self rfl rfl (fun a _ b => hM.pte q a b) hc (Or.inr hcur)
  · have hpq : k₂.proc q = k₁.proc q := modProc_proc_of_ne hqp
    refine (hD.procOk_of_ne h hp ht hq hqp).congr (SameProc.of_eq hpq fun _ _ => rfl) fun u _ hB => ?_
    exact hB.congr (by rw [hpq]) (by rw [hpq]) rfl (by rw [hpq]) rfl fun a _ b => hM.pte q a b

/-- The running process has another thread available, so `schedule(0)` is right. -/
theorem Departed.steady_scheduled (hcur : (k.proc p).current = t) (hc : c ∈ (k₁.proc p).thread)
    (hS : Scheduled (k₁.modProc p fun P => { P with current := c }) 0 k₃) (hs : k.Steady)
    (hrun : p = k.currentProc) : k₃.Steady := by
  obtain ⟨-, hidle⟩ := hD.steady hs hrun
  have hcurp : k₁.currentProc = p := hD.currentProc.trans hrun.symm
  refine hS.steady ?_ fun q hq hqc => ?_
  -- the thread that takes over is available
  · have hok := hD.procOk_redirected h hp ht hcur hc p hp
    have hmem : c ∈ ((k₁.modProc p fun P => { P with current := c }).proc p).thread := by
      rw [modProc_proc_self]
      exact hc
    have hflag : (k₁.thr c).flag = 0 := by
      rw [hD.thr]
      rw [hD.thread_self] at hc
      exact h.flag_eq_zero (hrun ▸ List.mem_of_mem_erase hc)
    have hpos := countFlag_pos_iff.mpr ⟨c, hmem, hflag⟩
    rw [← hok.avl] at hpos
    show 0 = idleFlag ((k₁.modProc p fun P => { P with current := c }).proc k₁.currentProc)
    rw [hcurp, idleFlag, if_neg hpos.ne']
  · have hqp : q ≠ p := hcurp ▸ hqc
    rw [modProc_proc_of_ne hqp]
    exact hidle q (hD.processTable ▸ hq) (hcurp.symm ▸ hqp)

include hO

/-- Threads are left, and the current one of the process among them. -/
theorem disposeRest_keep (hne : (k.proc p).current ≠ t) :
    ∃ h', k₁.freePage t = .ok { k₁ with heap := h' } ∧
      ({ k₁ with heap := h' } : Kernel).Inv phy pool ∧ Disposed k pool p t { k₁ with heap := h' } := by
  have hP := h.procOk hp
  -- another thread has gone, so the current one stays current
  have hc : (k.proc p).current ∈ (k₁.proc p).thread := by
    rw [hD.thread_self]
    exact hP.nodup.mem_erase_iff.mpr ⟨hne, hP.current⟩
  have hcur : (k₁.proc p).current = (k.proc p).current := by
    rw [hD.proc_self]
    rfl
  have hT : k₁.Threads := by
    refine ⟨by rw [hD.processTable]; exact h.threads.nodup,
      by rw [hD.processTable, hD.currentProc]; exact h.threads.running, ?_, fun q hq => ?_⟩
    · rw [hD.currentThread, hD.currentProc, h.threads.currentThread]
      by_cases hqp : k.currentProc = p
      · rw [hqp, hcur]
      · rw [hD.proc_of_ne hqp]
    · rw [hD.processTable] at hq
      by_cases hqp : q = p
      · subst hqp
        exact hD.procOk_self h hq ht rfl rfl rfl (fun _ _ _ => rfl) (hcur ▸ hc) (Or.inl hcur)
      · exact hD.procOk_of_ne h hp ht hq hqp
  have hnot : ¬ (k.proc p).thread = [t] := by
    intro hl
    have hmem := hP.current
    rw [hl] at hmem
    exact hne (List.mem_singleton.mp hmem)
  obtain ⟨h', hok, hInv⟩ := freeThreadPage_spec (hD.layout h hp ht) hT hO (hD.threadPage_none h hp ht)
  refine ⟨h', hok, hInv, hD.thr, ?_, hD.thread_self, fun _ => ?_, fun q hq => ?_, fun q hq hqp a ha b => ?_,
    fun _ a ha b => hD.pte_or h hp ht p hp ha b, (hD.half h hp ht).withHeap h', ?_,
    fun hrun hs => ?_⟩
  · rw [if_neg hnot]
    exact hD.processTable
  · show (k₁.proc p).pid = _
    rw [hD.proc_self]
    rfl
  · show k₁.proc q = { k.proc q with flag := (k₁.proc q).flag, ticks := (k₁.proc q).ticks }
    rw [hD.proc_of_ne hq]
  · exact (hD.pte h hp ht hq ha b).trans (if_neg fun hc => hqp hc.1)
  · rw [threadOwners, if_neg hnot]
    show k₁.frameOf = _
    exact hD.frames_eq h hp ht
  · obtain ⟨h2, hidle⟩ := hD.steady hs hrun
    exact ⟨h2, fun q hq hqc => hidle q (hD.processTable ▸ hq) hqc⟩

/-- Threads are left, but the current one of the process has gone, so `schedule` has run. -/
theorem Departed.scheduled (hcur : (k.proc p).current = t) (hc : c ∈ (k₁.proc p).thread)
    (hS : Scheduled (k₁.modProc p fun P => { P with current := c }) 0 k₃) :
    ∃ h', k₃.freePage t = .ok { k₃ with heap := h' } ∧
      ({ k₃ with heap := h' } : Kernel).Inv phy pool ∧ Disposed k pool p t { k₃ with heap := h' } := by
  have hP := h.procOk hp
  set k₂ := k₁.modProc p (fun P => { P with current := c }) with hk₂
  have hM : SameMaps k₁ k₂ :=
    sameMaps_modProc (fun _ => rfl) (fun _ => rfl) (fun _ => rfl) (fun _ => rfl) fun _ => rfl
  have hL₂ := hM.layout (hD.layout h hp ht)
  have hself : k₂.proc p = { k₁.proc p with current := c } := modProc_proc_self
  have hother : ∀ q, q ≠ p → k₂.proc q = k₁.proc q := fun q hq => modProc_proc_of_ne hq
  have hring₂ : k₂.processTable = k.processTable := hD.processTable
  have hproc : ∀ q ∈ k₂.processTable, k₂.ProcOk q := by
    rw [hring₂]
    exact hD.procOk_redirected h hp ht hcur hc
  -- another thread is left, so the process stays
  have hnot : ¬ (k.proc p).thread = [t] := by
    rw [← erase_eq_nil ht, ← hD.thread_self]
    exact List.ne_nil_of_mem hc
  have hrun₂ : k₂.currentProc ∈ k₂.processTable := by
    rw [hring₂]
    show k₁.currentProc ∈ _
    rw [hD.currentProc]
    exact h.threads.running
  have hT := hS.threads hL₂ (by rw [hring₂]; exact h.threads.nodup) hproc
  have hframes : k₃.frameOf = k₁.frameOf := (hS.frameOf hL₂).trans hM.frameOf
  have hO₃ : Owned k₃.heap (Function.update k₃.frameOf (.threadPage t) (some t)) pool := by
    rw [hframes, hS.heap]
    exact hO
  obtain ⟨h', hok, hInv⟩ := freeThreadPage_spec (hS.layout hL₂ hrun₂) hT hO₃
    (by rw [hframes]; exact hD.threadPage_none h hp ht)
  refine ⟨h', hok, hInv, ?_⟩
  have hring₃ : k₃.processTable = k.processTable := hS.processTable.trans hring₂
  refine ⟨hS.thr.trans hD.thr, ?_, ?_, fun _ => ?_, fun q hq => ?_, fun q hq hqp a ha b => ?_,
    fun _ a ha b => ?_, ?_, ?_, fun hrun hs => ?_⟩
  · rw [if_neg hnot]
    exact hring₃
  · show (k₃.proc p).thread = _
    rw [hS.proc, hself]
    exact hD.thread_self
  · show (k₃.proc p).pid = _
    rw [hS.proc, hself, hD.proc_self]
    rfl
  · show k₃.proc q = { k.proc q with flag := (k₃.proc q).flag, ticks := (k₃.proc q).ticks }
    rw [hS.proc, hother q hq, hD.proc_of_ne hq]
  · have hq₂ : q ∈ k₂.processTable := hring₂ ▸ hq
    have hpte := hD.pte h hp ht hq ha b
    rw [if_neg fun hc => hqp hc.1] at hpte
    exact (hS.pte_user hL₂ hq₂ ha b).trans ((hM.pte q a b).trans hpte)
  · have heq : k₃.pte p a b = k₁.pte p a b :=
      (hS.pte_user hL₂ (hring₂.symm ▸ hp) ha b).trans (hM.pte p a b)
    show k₃.pte p a b = _ ∨ k₃.pte p a b = 0
    rw [heq]
    exact hD.pte_or h hp ht p hp ha b
  · have hhalf : SameHalf pool k₁ k₂ := SameHalf.of_eq rfl hM.cr3
    have hhalf₂ := (hD.half h hp ht).trans_of_eq hhalf hD.processTable
    exact (hhalf₂.trans_of_eq (hS.sameHalf hL₂ hrun₂) hring₂).withHeap h'
  · rw [threadOwners, if_neg hnot]
    exact hframes.trans (hD.frames_eq h hp ht)
  · have hsteady := hD.steady_scheduled h hp ht hcur hc hS hs hrun
    exact ⟨hsteady.running, hsteady.idle⟩

/-- The current thread has left, and another of the process takes its place. -/
theorem disposeRest_next (hcur : (k.proc p).current = t) (hc : c ∈ (k₁.proc p).thread) :
    Yields ((k₁.modProc p fun P => { P with current := c }).schedule 0 >>= fun k => k.freePage t)
      fun k' => k'.Inv phy pool ∧ Disposed k pool p t k' := by
  refine schedule_spec.bind fun k₃ hS => ?_
  obtain ⟨h', hok, hk'⟩ := hD.scheduled h hp ht hO hcur hc hS
  exact Yields.of_eq_ok hok hk'

omit ht hO in
/-- What `disposeProcess` of a process without threads needs, behind the last one. -/
theorem Departed.running : k₁.currentProc ∈ k₁.processTable ∧
    k₁.currentThread = (k₁.proc k₁.currentProc).current ∧
    (k₁.proc p).msgCount ≤ MAX_MESSAGE_COUNT ∧ (k₁.proc p).msgTail < MAX_MESSAGE_COUNT := by
  have hP := h.procOk hp
  refine ⟨?_, ?_, ?_, ?_⟩
  · rw [hD.processTable, hD.currentProc]
    exact h.threads.running
  · rw [hD.currentThread, hD.currentProc, h.threads.currentThread]
    by_cases hqp : k.currentProc = p
    · rw [hqp, hD.proc_self]
      rfl
    · rw [hD.proc_of_ne hqp]
  · rw [hD.proc_self]
    exact hP.count
  · rw [hD.proc_self]
    exact hP.tail

omit hO in
/-- The last thread has gone, and the process has too. -/
theorem Departed.removed (hl : (k.proc p).thread = [t]) (hL₂ : k₂.Layout phy pool) (hT₂ : k₂.Threads)
    (hO₂ : Owned k₂.heap (Function.update k₂.frameOf (.threadPage t) (some t)) pool)
    (hR : Removed k₁ pool p k₂) : ∃ h', k₂.freePage t = .ok { k₂ with heap := h' } ∧
      ({ k₂ with heap := h' } : Kernel).Inv phy pool ∧ Disposed k pool p t { k₂ with heap := h' } := by
  have hring : k₁.processTable = k.processTable := hD.processTable
  have hnone : k₂.frameOf (.threadPage t) = none := by
    rw [hR.frames, without_of_notMem threadPage_notMem_ownersOf]
    exact hD.threadPage_none h hp ht
  obtain ⟨h', hok, hInv⟩ := freeThreadPage_spec hL₂ hT₂ hO₂ hnone
  refine ⟨h', hok, hInv, ?_⟩
  have hgone : p ∉ ({ k₂ with heap := h' } : Kernel).processTable := by
    show p ∉ k₂.processTable
    rw [hR.processTable, hring]
    exact h.threads.nodup.not_mem_erase
  refine ⟨hR.thr.trans hD.thr, ?_, ?_, fun hmem => absurd hmem hgone, fun q hq => ?_,
    fun q hq hqp a ha b => ?_, fun hmem => absurd hmem hgone, ?_, ?_, fun hrun hs => ?_⟩
  · rw [if_pos hl]
    exact hR.processTable.trans (by rw [hring])
  · exact hR.thread.trans hD.thread_self
  · show k₂.proc q = { k.proc q with flag := (k₂.proc q).flag, ticks := (k₂.proc q).ticks }
    rw [hR.proc q hq, hD.proc_of_ne hq]
  · have hpte := hD.pte h hp ht hq ha b
    rw [if_neg fun hc => hqp hc.1] at hpte
    exact (hR.pte q (hring.symm ▸ hq) hqp a ha b).trans hpte
  · exact ((hD.half h hp ht).trans_of_eq hR.half hring).withHeap h'
  · rw [threadOwners, if_pos hl]
    refine hR.frames.trans ?_
    rw [hD.frames_eq h hp ht, ← without_union]
    congr 1
    -- the thread, what the process maps, its queue and its record
    ext o
    constructor
    · rintro ((ho | (ho | ho)) | ho)
      · exact Or.inl ho
      · exact Or.inr (process_of_mem_tableOwners ho)
      · exact Or.inr (process_of_mem_tableOwners ho)
      · exact Or.inr ho
    · rintro (ho | ho)
      · exact Or.inl (Or.inl ho)
      · exact Or.inr ho
  · obtain ⟨h2, hidle⟩ := hD.steady hs hrun
    have hsteady := hR.steady (fun q hq hqc => hidle q (hring ▸ hq) hqc) fun _ => h2
    exact ⟨hsteady.running, hsteady.idle⟩

/-- The last thread has gone. -/
theorem disposeRest_last (hl : (k.proc p).thread = [t]) :
    Yields (k₁.disposeEmpty p >>= fun k => k.freePage t)
      fun k' => k'.Inv phy pool ∧ Disposed k pool p t k' := by
  have hempty : (k₁.proc p).thread = [] := by
    rw [hD.thread_self]
    exact (erase_eq_nil ht).mpr hl
  have hring : k₁.processTable = k.processTable := hD.processTable
  obtain ⟨hrun, hcur, hcount, htail⟩ := hD.running h hp
  refine (disposeEmpty_spec (hD.layout h hp ht) (by rw [hring]; exact h.threads.nodup) hrun hcur
    (fun q hq hqp => hD.procOk_of_ne h hp ht (hring ▸ hq) hqp) (hring.symm ▸ hp) hempty hcount htail
    hO).bind fun k₂ hk₂ => ?_
  obtain ⟨hL₂, hT₂, hO₂, hR⟩ := hk₂
  obtain ⟨h', hok, hk'⟩ := hD.removed h hp ht hl hL₂ hT₂ hO₂ hR
  exact Yields.of_eq_ok hok hk'

end Ends

/-- **`disposeThread`** of a live thread without physical pages in its stack window. -/
theorem disposeThread_spec (h : k.Inv phy pool) (hp : p ∈ k.processTable)
    (ht : t ∈ (k.proc p).thread) (hphy : k.NormalWindow p t) :
    Yields (k.disposeThread t) fun k' => k'.Inv phy pool ∧ Disposed k pool p t k' := by
  obtain ⟨k₁, heq, hD, hO⟩ := depart_spec h hp ht hphy
  rw [heq]
  unfold disposeRest
  have hcur : (k₁.proc p).current = (k.proc p).current := by
    rw [hD.proc_self]
    rfl
  -- the last thread takes the process with it
  cases hl : (k₁.proc p).thread with
  | nil =>
    rw [hD.thread_self, erase_eq_nil ht] at hl
    exact disposeRest_last h hp ht hD hO hl
  | cons first rest =>
    show Yields ((if (k₁.proc p).current = t then _ else _) >>= _) _
    rw [hcur]
    by_cases hct : (k.proc p).current = t
    · rw [if_pos hct]
      exact disposeRest_next h hp ht hD hO hct (by rw [hl]; exact List.mem_cons_self)
    · rw [if_neg hct, ok_bind]
      obtain ⟨h', hok, hk'⟩ := disposeRest_keep h hp ht hD hO hct
      exact Yields.of_eq_ok hok hk'

end Kernel

end NorlitOS
