import NorlitOS.Process.Queue
import NorlitOS.Process.Wake

/-!
# Messages of the hardware (`sendInterrupt`)

`Interrupted` lists the three ways `sendInterrupt` can go: a blocked thread gets a fresh page, a
fresh page is queued, or the queue is full. All of them keep the invariant.
-/

namespace NorlitOS

open Dyadic Ledger

namespace Kernel

variable {k k' k₁ : Kernel} {own : Owner → Option Nat} {phy : Prop} {pool : Set Nat}
  {p q t i j source x f msg : Nat}

/-! ## Messages

A message is one word of 64 bits: the source above, the page below. A queued one belongs to the
slot it is in. -/

theorem message_mod (source x : Nat) : message source x % 2 ^ 32 = x % 2 ^ 32 := by
  unfold message
  omega

theorem message_div (source x : Nat) : message source x / 2 ^ 32 = source := by
  unfold message
  omega

/-- Addresses are `u32` values. -/
theorem frameAt_mod (x : Nat) : frameAt (x % 2 ^ 32) = frameAt x := by
  unfold frameAt pageBase pa2va add32 PAGE_SIZE
  omega

theorem frameAt_va2pa (h : PAGE_SIZE ∣ va2pa f ∧ pa2va (va2pa f) = f) : frameAt (va2pa f) = f := by
  rw [frameAt, pageBase_of_dvd h.1, h.2]

/-- A message has been queued for `p`; besides, entries of the running process may differ. -/
structure Queued (k : Kernel) (p msg : Nat) (k' : Kernel) : Prop where
  processTable : k'.processTable = k.processTable
  currentProc : k'.currentProc = k.currentProc
  currentThread : k'.currentThread = k.currentThread
  proc : k'.proc = (k.enqueue p msg).proc
  thr : k'.thr = k.thr
  pte : ∀ q ∈ k.processTable, q ≠ k.currentProc → ∀ a < USER_PDES, ∀ b,
    k'.pte q a b = k.pte q a b

theorem Queued.threads (hQ : Queued k p msg k') (hInv : k.Inv phy pool) (hp : p ∈ k.processTable)
    (hc : (k.proc p).msgCount < MAX_MESSAGE_COUNT) (hr : (k.proc p).receiving = 0) :
    k'.Threads := by
  have hother : ∀ q, q ≠ p → k'.proc q = k.proc q := by
    intro q hq
    rw [hQ.proc]
    exact modProc_proc_of_ne hq
  refine hInv.threads_of hQ.processTable hQ.currentProc hQ.currentThread ?_ hother
    (fun q _ _ u _ => by rw [hQ.thr]) (fun q hq hne _ => hQ.pte q hq hne) ?_
  · rw [hQ.proc, enqueue, modProc_proc_self]
  · -- the bookkeeping reads the record of `p` and its threads only, as `p` has none blocked
    have hok : (k.enqueue p msg).ProcOk p := (hInv.procOk hp).enqueue hc hr
    have hsame : k'.proc p = (k.enqueue p msg).proc p := by rw [hQ.proc]
    refine hok.congr_running (SameProc.of_eq hsame fun u _ => by rw [hQ.thr]; rfl) fun u _ hB => ?_
    have hempty := hB.empty
    rw [enqueue, modProc_proc_self] at hempty
    exact absurd hempty (Nat.succ_ne_zero _)

/-! ## `threadAwake` and the mapping before it

A thread that waits gets its page first and is made ready then, and its process with it. -/

theorem sameMaps_threadAwake : SameMaps k (k.threadAwake t) := by
  have h₁ : SameMaps k (k.modThr t fun T => { T with flag := 0 }) := sameMaps_modThr fun _ => rfl
  have h₂ : ∀ {k₀ : Kernel} {p : Nat},
      SameMaps k₀ (k₀.modProc p fun P => { P with avlThread := add32 P.avlThread 1 }) :=
    sameMaps_modProc (fun _ => rfl) (fun _ => rfl) (fun _ => rfl) (fun _ => rfl) fun _ => rfl
  unfold threadAwake
  dsimp only
  split
  · exact (h₁.trans h₂).trans
      (sameMaps_modProc (fun _ => rfl) (fun _ => rfl) (fun _ => rfl) (fun _ => rfl) fun _ => rfl)
  · exact h₁.trans h₂

theorem threadAwake_running : (k.threadAwake t).currentProc = k.currentProc ∧
    (k.threadAwake t).currentThread = k.currentThread := by
  unfold threadAwake
  dsimp only
  split
  · exact ⟨rfl, rfl⟩
  · exact ⟨rfl, rfl⟩

/-- The state in which `open_physical_memory` is called for a blocked thread. -/
def answering (k : Kernel) (p t source : Nat) : Kernel :=
  (k.modProc p fun P => { P with receiving := sub32 P.receiving 1 }).setAx t source

theorem sameMaps_setAx {v : Nat} : SameMaps k (k.setAx t v) := by
  unfold setAx
  exact sameMaps_modThr fun _ => rfl

theorem sameMaps_answering : SameMaps k (k.answering p t source) := by
  have h₁ : SameMaps k (k.modProc p fun P => { P with receiving := sub32 P.receiving 1 }) :=
    sameMaps_modProc (fun _ => rfl) (fun _ => rfl) (fun _ => rfl) (fun _ => rfl) fun _ => rfl
  exact h₁.trans sameMaps_setAx

theorem answering_cx (u : Nat) : ((k.answering p t source).thr u).regs.cx = (k.thr u).regs.cx := by
  rw [answering, setAx, modThr_thr]
  split
  · next h => rw [h]; rfl
  · rfl

/-- Entering a page before it is mapped keeps directories and tables. -/
theorem Agree.update_pte {v : Option Nat} (h : Agree own k) :
    Agree (Function.update own (.pte p i j) v) k where
  dir q := by rw [Function.update_of_ne (by simp), h.dir]
  table q a := by rw [Function.update_of_ne (by simp), h.table]

/-- Opening a page the ledger has already given to the entry. -/
theorem Opened.frames_eq (h : Opened k own phy pool p i j (x ||| 0b11111) k') (hx : PAGE_SIZE ∣ x) :
    k'.frameOf = Function.update (Function.update k.frameOf (.pte p i j) (some (pa2va x)))
      (.pageTable p i) (some (frameAt (k'.pde p i))) := by
  rw [h.frames, entryFrame_or hx, Function.update_comm (by simp)]

/-! ## `sendInterrupt`

A page is allocated for a thread that waits, or for a queue with room in it. A full queue loses
the message, and nothing changes. -/

inductive Interrupted (k : Kernel) (p : Nat) (k' : Kernel) : Prop where
  | handed {t f : Nat} {h : Heap} (member : t ∈ (k.proc p).thread) (blocked : (k.thr t).flag = 2)
      (fresh : k.heap.memoryAlloc 12 = .ok (f, h)) (physical : frameAt (va2pa f) = f)
      (handed : Handed k p t 0xFFFFFFFF (va2pa f) k')
      (running : ∀ a < USER_PDES, ∀ b, k'.pte k.currentProc a b = k.pte k.currentProc a b)
  | queued {f : Nat} {h : Heap} (idle : (k.proc p).receiving = 0)
      (room : (k.proc p).msgCount < MAX_MESSAGE_COUNT)
      (fresh : k.heap.memoryAlloc 12 = .ok (f, h)) (physical : frameAt (va2pa f) = f)
      (queued : Queued k p (message 0xFFFFFFFF (va2pa f)) k')
      (maps : ∀ q a b, k'.pte q a b = k.pte q a b)
  | full (idle : (k.proc p).receiving = 0)
      (full : ¬ (k.proc p).msgCount < MAX_MESSAGE_COUNT) (same : k' = k)

/-- The hand-over of a fresh page. -/
theorem interruptBlocked_spec (h : k.Inv phy pool) (hp : p ∈ k.processTable)
    (ht : t ∈ (k.proc p).thread) (hf : (k.thr t).flag = 2) :
    Yields (do
      let (page, k₁) ← (k.answering p t 0xFFFFFFFF).allocPhysicalPage
      let (_, k₁) ← k₁.openPhysicalMemory p page (k₁.thr t).regs.cx 1 0
      .ok (k₁.threadAwake t)) fun k' => k'.Inv phy pool ∧ Interrupted k p k' := by
  have hB := (h.procOk hp).blocked t ht hf
  have hS : SameMaps k (k.answering p t 0xFFFFFFFF) := sameMaps_answering
  have hcx : ((k.answering p t 0xFFFFFFFF).thr t).regs.cx = (k.thr t).regs.cx := answering_cx t
  have hL := hS.layout h.layout
  have hO : Owned (k.answering p t 0xFFFFFFFF).heap (k.answering p t 0xFFFFFFFF).frameOf pool := by
    rw [hS.frameOf, hS.heap]
    exact h.owned
  refine (allocPhysicalPage_spec hO).bind fun r hr => ?_
  obtain ⟨f, h', rfl, hA⟩ := hr
  have hphys := hA.physical hO
  have hz : (k.answering p t 0xFFFFFFFF).pte p (va2pde (k.thr t).regs.cx)
      (va2pte (k.thr t).regs.cx) = 0 := by
    rw [hS.pte]
    exact hB.unmapped
  have hi := va2pde_user hB.user
  -- the entry the receiver waits at is empty, so the page can enter it
  have hnone := (frameOf_pte (k := k.answering p t 0xFFFFFFFF) hp hi
    (va2pte_lt (k.thr t).regs.cx)).trans (by rw [hz, entryFrame_zero])
  have hO₁ := hA.enter _ (fun _ => by simp) hnone
  simp only [hcx]
  refine (openPhysicalMemory_one (k := { k.answering p t 0xFFFFFFFF with heap := h' })
    (hL.withHeap h') hO₁ (Agree.update_pte ((Agree.refl _).withHeap h')) hp hi hz ?_).bind fun r hr => ?_
  · rw [Nat.or_zero]
    exact entry_or hphys.1
  · obtain ⟨r, k₂⟩ := r
    obtain ⟨-, hopen⟩ := hr
    rw [Nat.or_zero] at hopen
    have hframes : k₂.frameOf = _ := hopen.frames_eq hphys.1
    rw [hphys.2] at hframes
    have hS₂ := sameMaps_threadAwake (k := k₂) (t := t)
    have hawake := threadAwake_proc hB.flag ((h.procOk hp).back t ht)
      (show k₂.proc = _ from hopen.proc) (show k₂.thr = _ from hopen.thr)
    have hspace : ∀ q ∈ k.processTable, q ≠ p → ∀ a < USER_PDES, ∀ b,
        (k₂.threadAwake t).pte q a b = k.pte q a b := by
      intro q hq hqp a ha b
      rw [hS₂.pte, hopen.pte q hq a ha b, if_neg fun hc => hqp hc.1]
      exact hS.pte q a b
    -- the wake-up touches no entry
    have hH : Handed k p t 0xFFFFFFFF (va2pa f) (k₂.threadAwake t) := by
      refine ⟨hS₂.processTable.trans hopen.processTable, ?_, ?_, hawake.1, hawake.2, ?_, ?_,
        fun q hq _ hqp => hspace q hq hqp⟩
      · exact threadAwake_running.1.trans hopen.currentProc
      · exact threadAwake_running.2.trans hopen.currentThread
      · rw [hS₂.pte, hopen.pte p hp _ hi, if_pos ⟨rfl, rfl, rfl⟩]
      · intro a ha b hab
        rw [hS₂.pte, hopen.pte p hp a ha b, if_neg fun hc => hab hc.2]
        exact hS.pte p a b
    refine ⟨⟨?_, hS₂.layout hopen.layout, hH.threads h hp ht hf⟩,
      .handed ht hf (hS.heap ▸ hA.returned) (frameAt_va2pa hphys) hH
        (hspace _ h.threads.running hB.away.symm)⟩
    rw [hS₂.heap, hS₂.frameOf, hframes]
    exact hopen.owned

/-- Appending a fresh page. -/
theorem interruptQueue_spec (h : k.Inv phy pool) (hp : p ∈ k.processTable)
    (hr : (k.proc p).receiving = 0) (hc : (k.proc p).msgCount < MAX_MESSAGE_COUNT) :
    Yields (do
      let (page, k) ← k.allocPhysicalPage
      .ok (k.enqueue p (message 0xFFFFFFFF page))) fun k' => k'.Inv phy pool ∧ Interrupted k p k' := by
  have hP := h.procOk hp
  refine (allocPhysicalPage_spec h.owned).bind fun r hr' => ?_
  obtain ⟨f, h', rfl, hA⟩ := hr'
  have hphys := hA.physical h.owned
  have hfr := frameAt_va2pa hphys
  set k₁ : Kernel := { k with heap := h' } with hk₁
  have hmaps : ∀ q a b, (k₁.enqueue p (message 0xFFFFFFFF (va2pa f))).pte q a b = k.pte q a b :=
    fun q a b => pte_of_sameSpaces enqueue_sameSpaces rfl q a b
  have hQ : Queued k p (message 0xFFFFFFFF (va2pa f)) (k₁.enqueue p (message 0xFFFFFFFF (va2pa f))) :=
    ⟨rfl, rfl, rfl, rfl, rfl, fun q _ _ a _ b => hmaps q a b⟩
  have hP₁ : k₁.ProcOk p :=
    hP.congr (SameProc.of_eq rfl fun _ _ => rfl) fun t _ hB =>
      hB.congr rfl rfl rfl rfl rfl fun _ _ _ => rfl
  refine ⟨⟨?_, ?_, hQ.threads h hp hc hr⟩, .queued hr hc hA.returned hfr hQ hmaps⟩
  -- the slot at the head was free, so the page gets its first owner
  · have hnone : k.frameOf (.slot p (k.proc p).msgHead) = none :=
      frameOf_slot_none (not_inQueue_head hP hc)
    rw [frameOf_enqueue hP₁ hp hc, message_mod, frameAt_mod, hfr]
    exact hA.enter _ (fun _ => by simp) hnone
  · exact (h.layout.withHeap h').of_sameSpaces enqueue_sameSpaces rfl fun _ => rfl

/-- **`sendInterrupt`** keeps the invariant and goes one of three ways. -/
theorem sendInterrupt_spec (h : k.Inv phy pool) (hp : p ∈ k.processTable) :
    Yields (k.sendInterrupt p) fun k' => k'.Inv phy pool ∧ Interrupted k p k' := by
  unfold sendInterrupt
  by_cases hr : (k.proc p).receiving ≠ 0
  · rw [if_pos hr]
    obtain ⟨t, ht, hok, hf⟩ := (h.procOk hp).findBlocked hr
    -- there is a blocked thread, so the scan finds one
    have hscan : Kernel.findBlocked k.thr none
        ((k.modProc p fun P => { P with receiving := sub32 P.receiving 1 }).proc p).thread =
          .ok t := by
      rw [modProc_proc_self]
      exact hok
    simp only [modProc_thr, hscan, ok_bind]
    exact interruptBlocked_spec h hp ht hf
  · rw [if_neg hr]
    have hr0 : (k.proc p).receiving = 0 := not_not.mp hr
    by_cases hc : (k.proc p).msgCount < MAX_MESSAGE_COUNT
    · rw [if_pos hc]
      exact interruptQueue_spec h hp hr0 hc
    · rw [if_neg hc]
      exact ⟨h, .full hr0 hc rfl⟩

end Kernel

end NorlitOS
