import NorlitOS.Lib.Ring
import NorlitOS.Process.Threads

/-!
# The message queue of a process

The queue is a circular buffer in the process record. Appending a message and taking the oldest
one are the two operations; each changes the owner of one frame, the slot it writes or leaves.
-/

namespace NorlitOS

open Ledger

namespace Kernel

variable {k k' : Kernel} {phy : Prop} {pool : Set Nat} {p q t msg n : Nat}

/-- The queued messages of `p`, oldest first. -/
def queue (k : Kernel) (p : Nat) : List Nat :=
  Ring.window (k.proc p).messages MAX_MESSAGE_COUNT (k.proc p).msgTail (k.proc p).msgCount

/-- The queue depends on three fields of the record and on the messages. -/
theorem queue_congr (ht : (k'.proc p).msgTail = (k.proc p).msgTail)
    (hc : (k'.proc p).msgCount = (k.proc p).msgCount)
    (hm : (k'.proc p).messages = (k.proc p).messages) : k'.queue p = k.queue p := by
  unfold queue
  rw [ht, hc, hm]

/-! ## Appending

The message goes into the slot at the head, which is not in use while the queue is not full. The
ledger gets one owner more: the slot. -/

/-- The message is the last one of the queue. -/
theorem queue_enqueue (hP : k.ProcOk p) (hc : (k.proc p).msgCount < MAX_MESSAGE_COUNT) :
    (k.enqueue p msg).queue p = k.queue p ++ [msg] := by
  unfold queue enqueue
  rw [modProc_proc_self, hP.head]
  exact Ring.window_push hc msg

theorem queue_enqueue_of_ne (h : q ≠ p) : (k.enqueue p msg).queue q = k.queue q := by
  unfold enqueue
  refine queue_congr ?_ ?_ ?_ <;> rw [modProc_proc_of_ne h]

/-- Queues are no part of the address spaces. -/
theorem enqueue_sameSpaces : SameSpaces k (k.enqueue p msg) := by
  refine ⟨rfl, fun q => ?_, fun q => ?_⟩
  · unfold enqueue
    rw [modProc_proc]
    split
    · next h => rw [h]
    · rfl
  · unfold enqueue
    rw [modProc_proc]
    split
    · next h => rw [h]
    · rfl

/-- Only queues differ: the entries are the same. -/
theorem pde_of_sameSpaces (hS : SameSpaces k k') (ht : k'.table = k.table) (q a : Nat) :
    k'.pde q a = k.pde q a := by
  rw [pde, hS.pd, ht]
  rfl

theorem pte_of_sameSpaces (hS : SameSpaces k k') (ht : k'.table = k.table) (q a b : Nat) :
    k'.pte q a b = k.pte q a b := by
  unfold pte
  rw [pde_of_sameSpaces hS ht, ht]

/-- What keeps address spaces and tables keeps the layout. -/
theorem Layout.of_sameSpaces (hL : k.Layout phy pool) (hS : SameSpaces k k') (ht : k'.table = k.table)
    (hstack : ∀ t, (k'.thr t).stacktop = (k.thr t).stacktop) : k'.Layout phy pool :=
  hL.of_entries hS hstack (fun q _ a _ => pde_of_sameSpaces hS ht q a) fun q hq a ha b hb h0 => by
    rw [pte_of_sameSpaces hS ht] at h0 ⊢
    exact hL.entry hq ha hb h0

/-- Changes in the record of `p` concern the owners of its slots only. -/
theorem frameOf_of_ne_slot (hS : SameSpaces k k') (ht : k'.table = k.table)
    (hother : ∀ q, q ≠ p → k'.proc q = k.proc q) {o : Owner} (ho : ∀ n, o ≠ .slot p n) :
    k'.frameOf o = k.frameOf o := by
  cases o with
  | pte q a b => simp only [frameOf, hS.processTable, pte_of_sameSpaces hS ht]
  | pageTable q a => simp only [frameOf, hS.processTable, pde_of_sameSpaces hS ht]
  | pageDirectory q => simp only [frameOf, hS.processTable, hS.pd]
  | threadPage t => simp only [frameOf, hS.processTable, hS.thread]
  | slot q m =>
    have hq : q ≠ p := fun hq => ho m (hq ▸ rfl)
    simp only [frameOf, hS.processTable, hother q hq]
  | record q => simp only [frameOf, hS.processTable]

/-- The frame of one slot changed, and nothing else. -/
theorem frameOf_update_slot (hS : SameSpaces k k') (ht : k'.table = k.table)
    (hother : ∀ q, q ≠ p → k'.proc q = k.proc q)
    (hslot : ∀ m, m ≠ n → k'.frameOf (.slot p m) = k.frameOf (.slot p m)) :
    k'.frameOf = Function.update k.frameOf (.slot p n) (k'.frameOf (.slot p n)) := by
  funext o
  by_cases ho : ∃ m, o = .slot p m
  · obtain ⟨m, rfl⟩ := ho
    by_cases hm : m = n
    · rw [hm, Function.update_self]
    · rw [Function.update_of_ne fun h => hm (Owner.slot.inj h).2]
      exact hslot m hm
  · rw [Function.update_of_ne fun h => ho ⟨n, h⟩]
    exact frameOf_of_ne_slot hS ht hother fun m h => ho ⟨m, h⟩

/-- A slot in use owns the frame of its message. -/
theorem frameOf_slot (hp : p ∈ k.processTable) (hn : InQueue (k.proc p) n) :
    k.frameOf (.slot p n) = some (frameAt ((k.proc p).messages n % 2 ^ 32)) := if_pos ⟨hp, hn⟩

theorem frameOf_slot_none (hn : ¬ InQueue (k.proc p) n) : k.frameOf (.slot p n) = none :=
  if_neg fun h => hn h.2

/-- The owner of a frame the kernel has in hand: there is no such slot. -/
def inHand : Owner := .slot 0 MAX_MESSAGE_COUNT

theorem frameOf_inHand : k.frameOf inHand = none :=
  frameOf_slot_none fun h => absurd h.1 (lt_irrefl _)

/-- The slot a message is written to is not in use. -/
theorem not_inQueue_head (hP : k.ProcOk p) (hc : (k.proc p).msgCount < MAX_MESSAGE_COUNT) :
    ¬ InQueue (k.proc p) (k.proc p).msgHead := by
  rintro ⟨-, h⟩
  have ht := hP.tail
  rw [hP.head] at h
  unfold MAX_MESSAGE_COUNT at *
  omega

/-- The slots in use are those from before and the one at the head. -/
theorem inQueue_enqueue (hP : k.ProcOk p) (hc : (k.proc p).msgCount < MAX_MESSAGE_COUNT) :
    InQueue ((k.enqueue p msg).proc p) n ↔ InQueue (k.proc p) n ∨ n = (k.proc p).msgHead := by
  have ht := hP.tail
  unfold InQueue enqueue
  rw [modProc_proc_self, hP.head]
  show n < MAX_MESSAGE_COUNT ∧
    (n + MAX_MESSAGE_COUNT - (k.proc p).msgTail) % MAX_MESSAGE_COUNT < (k.proc p).msgCount + 1 ↔ _
  unfold MAX_MESSAGE_COUNT at *
  omega

/-- The ledger after appending. -/
theorem frameOf_enqueue (hP : k.ProcOk p) (hp : p ∈ k.processTable)
    (hc : (k.proc p).msgCount < MAX_MESSAGE_COUNT) :
    (k.enqueue p msg).frameOf =
      Function.update k.frameOf (.slot p (k.proc p).msgHead) (some (frameAt (msg % 2 ^ 32))) := by
  have hmsg : ∀ m, ((k.enqueue p msg).proc p).messages m =
      Function.update (k.proc p).messages (k.proc p).msgHead msg m := by
    intro m
    unfold enqueue
    rw [modProc_proc_self]
  -- the slot at the head owns the page of the message
  have hslot : (k.enqueue p msg).frameOf (.slot p (k.proc p).msgHead) =
      some (frameAt (msg % 2 ^ 32)) := by
    refine (frameOf_slot (k := k.enqueue p msg) hp ((inQueue_enqueue hP hc).mpr (Or.inr rfl))).trans ?_
    rw [hmsg, Function.update_self]
  rw [← hslot]
  refine frameOf_update_slot enqueue_sameSpaces rfl
    (fun q hq => modProc_proc_of_ne hq) fun m hm => ?_
  have hiff : InQueue ((k.enqueue p msg).proc p) m ↔ InQueue (k.proc p) m := by
    rw [inQueue_enqueue hP hc]
    exact or_iff_left hm
  simp only [frameOf, hiff, hmsg, Function.update_of_ne hm]
  rfl

/-- The bookkeeping after an append: a process with queued messages has no blocked thread. -/
theorem ProcOk.enqueue (hP : k.ProcOk p) (hc : (k.proc p).msgCount < MAX_MESSAGE_COUNT)
    (hr : (k.proc p).receiving = 0) : (k.enqueue p msg).ProcOk p := by
  have hproc : (k.enqueue p msg).proc p = { k.proc p with
      messages := Function.update (k.proc p).messages (k.proc p).msgHead msg
      msgHead := Ring.next MAX_MESSAGE_COUNT (k.proc p).msgHead
      msgCount := (k.proc p).msgCount + 1 } := modProc_proc_self
  have hcount : ∀ flag, (k.enqueue p msg).countFlag p flag = k.countFlag p flag := fun flag =>
    countFlag_congr (by rw [hproc]) fun _ _ => rfl
  constructor
  case current =>
    rw [hproc]
    exact hP.current
  case nodup =>
    rw [hproc]
    exact hP.nodup
  case back =>
    rw [hproc]
    exact hP.back
  case flags =>
    rw [hproc]
    exact hP.flags
  case avl =>
    rw [hcount, hproc]
    exact hP.avl
  case receiving =>
    rw [hcount, hproc]
    exact hP.receiving
  case head =>
    rw [hproc]
    show Ring.next MAX_MESSAGE_COUNT (k.proc p).msgHead =
      ((k.proc p).msgTail + ((k.proc p).msgCount + 1)) % MAX_MESSAGE_COUNT
    rw [hP.head]
    exact Ring.next_mod (by decide)
  case tail =>
    rw [hproc]
    exact hP.tail
  case count =>
    rw [hproc]
    exact hc
  -- a thread that waits would have been handed the message
  case blocked =>
    intro t ht hf
    rw [hproc] at ht
    have hpos : 0 < k.countFlag p 2 := countFlag_pos_iff.mpr ⟨t, ht, hf⟩
    rw [← hP.receiving, hr] at hpos
    exact absurd hpos (lt_irrefl 0)

/-! ## Taking the oldest message

The message is read from the slot at the tail, and the tail moves on. The slot loses its frame,
which by then belongs to no one: the receiver maps it next. -/

/-- The first message of the queue is the one at the tail, and the others stay in order. -/
theorem queue_dequeue (hP : k.ProcOk p) (hc : (k.proc p).msgCount ≠ 0) :
    k.queue p = (k.proc p).messages (k.proc p).msgTail :: (k.dequeue p).queue p := by
  unfold queue dequeue
  rw [modProc_proc_self]
  conv_lhs => rw [show (k.proc p).msgCount = (k.proc p).msgCount - 1 + 1 from by omega]
  exact Ring.window_pop hP.tail

theorem queue_dequeue_of_ne (h : q ≠ p) : (k.dequeue p).queue q = k.queue q := by
  unfold dequeue
  refine queue_congr ?_ ?_ ?_ <;> rw [modProc_proc_of_ne h]

/-- No address space changes. -/
theorem dequeue_sameSpaces : SameSpaces k (k.dequeue p) := by
  refine ⟨rfl, fun q => ?_, fun q => ?_⟩
  · unfold dequeue
    rw [modProc_proc]
    split
    · next h => rw [h]
    · rfl
  · unfold dequeue
    rw [modProc_proc]
    split
    · next h => rw [h]
    · rfl

/-- The tail of a queue that is not empty is in use. -/
theorem inQueue_tail (ht : (k.proc p).msgTail < MAX_MESSAGE_COUNT) (hc : (k.proc p).msgCount ≠ 0) :
    InQueue (k.proc p) (k.proc p).msgTail := by
  refine ⟨ht, ?_⟩
  unfold MAX_MESSAGE_COUNT at *
  omega

/-- The slots in use are those from before without the tail. -/
theorem inQueue_dequeue (ht : (k.proc p).msgTail < MAX_MESSAGE_COUNT)
    (hle : (k.proc p).msgCount ≤ MAX_MESSAGE_COUNT) :
    InQueue ((k.dequeue p).proc p) n ↔ InQueue (k.proc p) n ∧ n ≠ (k.proc p).msgTail := by
  unfold InQueue dequeue
  rw [modProc_proc_self]
  show n < MAX_MESSAGE_COUNT ∧
    (n + MAX_MESSAGE_COUNT - Ring.next MAX_MESSAGE_COUNT (k.proc p).msgTail) % MAX_MESSAGE_COUNT <
      (k.proc p).msgCount - 1 ↔ _
  unfold Ring.next
  unfold MAX_MESSAGE_COUNT at *
  split <;> omega

/-- The ledger after taking a message. -/
theorem frameOf_dequeue (ht : (k.proc p).msgTail < MAX_MESSAGE_COUNT)
    (hle : (k.proc p).msgCount ≤ MAX_MESSAGE_COUNT) :
    (k.dequeue p).frameOf = Function.update k.frameOf (.slot p (k.proc p).msgTail) none := by
  have hslot : (k.dequeue p).frameOf (.slot p (k.proc p).msgTail) = none :=
    frameOf_slot_none fun h => ((inQueue_dequeue ht hle).mp h).2 rfl
  rw [← hslot]
  refine frameOf_update_slot dequeue_sameSpaces rfl
    (fun q hq => modProc_proc_of_ne hq) fun m hm => ?_
  have hiff : InQueue ((k.dequeue p).proc p) m ↔ InQueue (k.proc p) m := by
    rw [inQueue_dequeue ht hle]
    exact and_iff_left hm
  have hmsg : ((k.dequeue p).proc p).messages = (k.proc p).messages := by
    unfold dequeue
    rw [modProc_proc_self]
  simp only [frameOf, hiff, hmsg]
  rfl

/-- Taking a message keeps the record well-formed. No thread has to wait for one by it: a blocked
thread means an empty queue. -/
theorem ProcOk.dequeue (hP : k.ProcOk p) (hc : (k.proc p).msgCount ≠ 0) : (k.dequeue p).ProcOk p := by
  have hproc : (k.dequeue p).proc p = { k.proc p with
      msgTail := Ring.next MAX_MESSAGE_COUNT (k.proc p).msgTail
      msgCount := (k.proc p).msgCount - 1 } := modProc_proc_self
  have hcount : ∀ flag, (k.dequeue p).countFlag p flag = k.countFlag p flag := fun flag =>
    countFlag_congr (by rw [hproc]) fun _ _ => rfl
  constructor
  case current =>
    rw [hproc]
    exact hP.current
  case nodup =>
    rw [hproc]
    exact hP.nodup
  case back =>
    rw [hproc]
    exact hP.back
  case flags =>
    rw [hproc]
    exact hP.flags
  case avl =>
    rw [hcount, hproc]
    exact hP.avl
  case receiving =>
    rw [hcount, hproc]
    exact hP.receiving
  case head =>
    rw [hproc]
    show (k.proc p).msgHead =
      (Ring.next MAX_MESSAGE_COUNT (k.proc p).msgTail + ((k.proc p).msgCount - 1)) %
        MAX_MESSAGE_COUNT
    rw [Ring.next_add_mod hP.tail, Nat.sub_add_cancel (Nat.pos_of_ne_zero hc)]
    exact hP.head
  case tail =>
    rw [hproc]
    exact Ring.next_lt hP.tail
  case count =>
    rw [hproc]
    exact (Nat.sub_le _ _).trans hP.count
  -- the queue was not empty, so no thread waited
  case blocked =>
    intro t ht hf
    rw [hproc] at ht
    exact absurd (hP.blocked t ht hf).empty hc

end Kernel

end NorlitOS
