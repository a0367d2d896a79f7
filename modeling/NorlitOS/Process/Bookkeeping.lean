import NorlitOS.Process.Replay

/-!
# Counters, flags and queues agree

The counters of a process are the numbers of its threads with the flags 0 and 2, whatever the
kernel was entered for, as long as the frames of the thread records stay where they are. A frame
that is mapped twice can be given back while a thread record lives in it; then the counters are
wrong.
-/

namespace NorlitOS

namespace Kernel

variable {k k' k₁ : Kernel} {phy : Prop} {pool : Set Nat} {p ip kernelPDE : Nat} {es : List Event}

/-- The bookkeeping of `p` between kernel entries. -/
structure Bookkeeping (k : Kernel) (p : Nat) : Prop where
  avl : (k.proc p).avlThread = k.countFlag p 0
  receiving : (k.proc p).receiving = k.countFlag p 2
  flags : ∀ t ∈ (k.proc p).thread, (k.thr t).flag = 0 ∨ (k.thr t).flag = 2
  empty : 0 < (k.proc p).receiving → (k.proc p).msgCount = 0
  count : (k.proc p).msgCount ≤ MAX_MESSAGE_COUNT
  head : (k.proc p).msgHead = ((k.proc p).msgTail + (k.proc p).msgCount) % MAX_MESSAGE_COUNT
  /-- The scan of `SEND` and `sendInterrupt` stops at a blocked thread. -/
  scan : (k.proc p).receiving ≠ 0 → ∃ t ∈ (k.proc p).thread,
    findBlocked k.thr none (k.proc p).thread = .ok t ∧ (k.thr t).flag = 2

theorem ProcOk.bookkeeping (hP : k.ProcOk p) : k.Bookkeeping p where
  avl := hP.avl
  receiving := hP.receiving
  flags := hP.flags
  empty h := by
    rw [hP.receiving] at h
    obtain ⟨t, ht, hf⟩ := countFlag_pos_iff.mp h
    exact (hP.blocked t ht hf).empty
  count := hP.count
  head := hP.head
  scan := hP.findBlocked

/-- The invariant in every state of a careful run. -/
theorem Boot.run_inv (hB : k.Boot kernelPDE) (hinit : k.initProc kernelPDE ip = .ok k₁)
    (hrun : Run EntersCarefully k₁ es k') : ∃ pool ⊆ k.heap.freeSet, k'.Inv True pool :=
  Kernel.run_inv hrun ((initProc_spec hB).elim hinit)

/-- **Bookkeeping over runs.** In every state of a careful run the counters, flags and queues of
every process agree. -/
theorem run_bookkeeping (hB : k.Boot kernelPDE) (hinit : k.initProc kernelPDE ip = .ok k₁)
    (hrun : Run EntersCarefully k₁ es k') : ∀ p ∈ k'.processTable, k'.Bookkeeping p := by
  obtain ⟨pool, -, h⟩ := hB.run_inv hinit hrun
  exact fun p hp => (h.procOk hp).bookkeeping

/-- Entries that dispose nothing and allocate one page at most are careful. -/
def Plain : Event → Prop
  | .createProcess _ _ _ | .interrupt _ _ | .tick _ => True
  | .systemCall regs => regs.ax ≤ 2 ∨ regs.ax = 4 ∨ (regs.ax = 5 ∧ regs.bx ≤ 1) ∨ regs.ax = 6
  | .disposeProcess _ | .pageFault _ _ | .exception _ => False

theorem careful_of_plain {ev : Event} (h : Plain ev) : k.Careful ev := by
  cases ev with
  | createProcess ip privilege priority => trivial
  | disposeProcess p => exact h.elim
  | systemCall regs =>
    have h' : regs.ax ≤ 2 ∨ regs.ax = 4 ∨ (regs.ax = 5 ∧ regs.bx ≤ 1) ∨ regs.ax = 6 := h
    refine ⟨fun h5 => ?_, fun h3 => ?_, fun h6 => ?_⟩ <;> omega
  | interrupt regs p => trivial
  | tick regs => trivial
  | pageFault regs cr2 => exact h.elim
  | exception regs => exact h.elim

theorem run_of_plain (hes : ∀ ev ∈ es, Plain ev) (hrun : Run Enters k es k') :
    Run EntersCarefully k es k' := by
  induction hrun with
  | nil s => exact .nil s
  | cons first _ ih =>
    obtain ⟨hev, hes⟩ := List.forall_mem_cons.mp hes
    exact .cons ⟨careful_of_plain hev, first⟩ (ih hes)

/-- A process waits for a message and gets one. -/
theorem run_bookkeeping_interrupt : ∃ (k k₁ k' : Kernel) (p : Nat), k.Boot 0 ∧
    k.initProc 0 0 = .ok k₁ ∧ (∃ es, es.length = 4 ∧ Run EntersCarefully k₁ es k') ∧
      p ∈ k'.processTable ∧ k'.Bookkeeping p := by
  obtain ⟨k, k₁, k', hB, -, hinit, hrun, hp⟩ := run_of_booted_any (a := 0xC0400000)
    (n := 0x400000) (P := fun k => 0xC0406004 ∈ k.processTable)
    (l := [.createProcess 0 1 5, .tick noRegs, call 1 0 0x400000 0, .interrupt noRegs 0xC0406004])
    (by decide +kernel)
  have hrun' := run_of_plain (by simp [Plain, call, noRegs]) hrun
  exact ⟨k, k₁, k', _, hB, hinit, ⟨_, rfl, hrun'⟩, hp, run_bookkeeping hB hinit hrun' _ hp⟩

/-- `SYSCALL_ALLOC_MEMORY` maps sixteen pages and takes one from the allocator, so the process
sees the thread record of a process created later. Its `RECEIVE` at that page gives the record
back while the thread waits, and a new thread gets the page. -/
def doubleUse : List Event :=
  [.createProcess 0 0 100, call 6 0 0 0, call 5 0 0x400000 1,
    call 0 1 0x400000 7, call 0 1 0x400000 7, call 0 1 0x400000 7, call 5 0 0x500000 16,
    -- a second process waits for a message
    .createProcess 0 0 200, call 6 0 0 0, call 1 0 0x600000 0,
    -- the first process gives back three pages, the last of them the thread record
    call 1 0 0x400000 0, call 1 0 0x500000 0, call 1 0 0x505000 0, call 2 0 0 0]

/-- Without care the counters go wrong. -/
theorem not_run_bookkeeping : ¬ ∀ (k k₁ k' : Kernel) (kernelPDE ip : Nat) (es : List Event),
    k.Boot kernelPDE → k.initProc kernelPDE ip = .ok k₁ → Run Enters k₁ es k' →
      ∀ p ∈ k'.processTable, k'.Bookkeeping p := by
  intro hall
  obtain ⟨k, k₁, k', hB, -, hinit, hrun, p, hp, hne⟩ := run_of_booted_any (a := 0xC0400000)
    (n := 0x400000) (l := doubleUse)
    (P := fun k => ∃ p ∈ k.processTable, (k.proc p).receiving ≠ k.countFlag p 2) (by decide +kernel)
  exact hne (hall k k₁ k' 0 0 doubleUse hB hinit hrun p hp).receiving

end Kernel

end NorlitOS
