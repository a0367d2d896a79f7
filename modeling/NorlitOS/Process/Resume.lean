import NorlitOS.Process.Bookkeeping

/-!
# What the processor resumes

`schedule` looks at the flags of processes only, never at those of threads. A thread that waits
is the one its process last ran, and its process waits with it, so the thread that is resumed is
ready. A thread record in a frame that is mapped twice can break this.
-/

namespace NorlitOS

namespace Kernel

variable {k k' k₁ : Kernel} {phy : Prop} {pool : Set Nat} {p ip kernelPDE : Nat} {es : List Event}

/-- The running thread is a live and ready thread of the running process, and so is the thread
that is resumed when a process that is ready gets the processor. -/
structure Resumes (k : Kernel) : Prop where
  running : k.currentProc ∈ k.processTable
  current : k.currentThread = (k.proc k.currentProc).current
  live : k.currentThread ∈ (k.proc k.currentProc).thread
  flag : (k.thr k.currentThread).flag = 0
  ready : ∀ p ∈ k.processTable, (k.proc p).flag = 0 → (k.thr (k.proc p).current).flag = 0

/-- A thread that waits keeps its process from having the flag 0. -/
theorem ProcOk.current_ready (h : k.ProcOk p) (hflag : (k.proc p).flag = 0) :
    (k.thr (k.proc p).current).flag = 0 := by
  cases h.flags _ h.current with
  | inl hzero => exact hzero
  | inr htwo =>
    have hone := (h.blocked _ h.current htwo).flag
    rw [hflag] at hone
    exact absurd hone (by decide)

/-- A thread that waits belongs to a process that does not run. -/
theorem ProcOk.current_running (h : k.ProcOk k.currentProc) :
    (k.thr (k.proc k.currentProc).current).flag = 0 := by
  cases h.flags _ h.current with
  | inl hzero => exact hzero
  | inr htwo => exact absurd rfl (h.blocked _ h.current htwo).away

theorem Inv.resumes (h : k.Inv phy pool) : k.Resumes := by
  have hrun := h.threads.running
  have hcur := h.threads.currentThread
  refine ⟨hrun, hcur, ?_, ?_, fun p hp => (h.procOk hp).current_ready⟩
  · rw [hcur]
    exact (h.procOk hrun).current
  · rw [hcur]
    exact (h.procOk hrun).current_running

/-- **Only ready threads are resumed**, in every state that careful entries reach. -/
theorem run_resumes (hB : k.Boot kernelPDE) (hinit : k.initProc kernelPDE ip = .ok k₁)
    (hrun : Run EntersCarefully k₁ es k') : k'.Resumes := by
  obtain ⟨pool, -, h⟩ := hB.run_inv hinit hrun
  exact h.resumes

/-- A process waits for a message, gets one, and runs on. -/
theorem run_resumes_woken : ∃ (k k₁ k' : Kernel) (p : Nat), k.Boot 0 ∧
    k.initProc 0 0 = .ok k₁ ∧ (∃ es, es.length = 5 ∧ Run EntersCarefully k₁ es k') ∧
      k'.currentProc = p ∧ p ∈ k'.processTable.tail ∧ k'.Resumes := by
  obtain ⟨k, k₁, k', hB, -, hinit, hrun, hcur, hp⟩ := run_of_booted_any (a := 0xC0400000)
    (n := 0x400000) (P := fun k => k.currentProc = 0xC0406004 ∧ 0xC0406004 ∈ k.processTable.tail)
    (l := [.createProcess 0 1 5, .tick noRegs, call 1 0 0x400000 0, .interrupt noRegs 0xC0406004,
      call 6 0 0 0])
    (by decide +kernel)
  have hrun' := run_of_plain (by simp [Plain, call, noRegs]) hrun
  exact ⟨k, k₁, k', _, hB, hinit, ⟨_, rfl, hrun'⟩, hcur, hp, run_resumes hB hinit hrun'⟩

/-- The frames of one process are mapped by another one, which gives back the page of the only
thread of the first. A new thread gets the page, and waits for a message. -/
def stolenThread : List Event :=
  [.createProcess 0 0 100, call 6 0 0 0, call 5 0 0x400000 1,
    call 0 1 0x400000 7, call 0 1 0x400000 7, call 0 1 0x400000 7, call 5 0 0x500000 16,
    -- the process whose thread is lost
    .createProcess 0 0 50,
    -- three pages are given back, the last of them the thread record
    call 1 0 0x400000 0, call 1 0 0x500000 0, call 1 0 0x505000 0,
    call 2 0 0 0, call 3 0 0 0, call 1 0 0x700000 0]

/-- Without care a thread that waits is resumed. -/
theorem not_run_resumes : ¬ ∀ (k k₁ k' : Kernel) (kernelPDE ip : Nat) (es : List Event),
    k.Boot kernelPDE → k.initProc kernelPDE ip = .ok k₁ → Run Enters k₁ es k' → k'.Resumes := by
  intro hall
  obtain ⟨k, k₁, k', hB, -, hinit, hrun, hflag⟩ := run_of_booted_any (a := 0xC0400000)
    (n := 0x400000) (l := stolenThread) (P := fun k => (k.thr k.currentThread).flag = 2)
    (by decide +kernel)
  have hzero := (hall k k₁ k' 0 0 stolenThread hB hinit hrun).flag
  rw [hflag] at hzero
  exact absurd hzero (by decide)

end Kernel

end NorlitOS
