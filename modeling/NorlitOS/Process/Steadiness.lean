import NorlitOS.Process.Bookkeeping

/-!
# Who is ready to run

`Steady` says that the flags of the processes tell which of them can run. The kernel entries keep
it with one exception: when a thread blocks while its process has others, `threadSleep` makes the
process ready and lets `schedule` mark it as sleeping again.
-/

namespace NorlitOS

namespace Kernel

variable {k k' k₁ k₂ : Kernel} {phy : Prop} {pool : Set Nat} {p q t flag ip kernelPDE source : Nat}
  {edx ecx ebx msg : Nat} {es : List Event} {ev : Event}

/-! ## Records that keep flag and counter

`Steady` looks at two fields of every record and at which process runs. What leaves these alone
keeps it. -/

/-- The fields it depends on. -/
theorem Steady.congr (h : k.Steady) (hr : k'.processTable = k.processTable)
    (hc : k'.currentProc = k.currentProc) (hflag : ∀ q, (k'.proc q).flag = (k.proc q).flag)
    (havl : ∀ q, (k'.proc q).avlThread = (k.proc q).avlThread) : k'.Steady := by
  refine ⟨by rw [hc, hflag]; exact h.running, fun q hq hne => ?_⟩
  rw [hr] at hq
  rw [hc] at hne
  unfold idleFlag
  rw [hflag, havl]
  exact h.idle q hq hne

theorem SameButRegs.steady (hS : SameButRegs k k') (h : k.Steady) : k'.Steady :=
  h.congr hS.processTable hS.currentProc (fun q => by rw [hS.proc]) fun q => by rw [hS.proc]

theorem SameRunning.steady (hS : SameRunning k k') (h : k.Steady) : k'.Steady :=
  h.congr hS.processTable hS.currentProc (fun q => by rw [hS.proc]) fun q => by rw [hS.proc]

theorem Queued.steady (hQ : Queued k p msg k') (h : k.Steady) : k'.Steady := by
  refine h.congr hQ.processTable hQ.currentProc (fun q => ?_) fun q => ?_ <;>
  · rw [hQ.proc, enqueue, modProc_proc]
    split
    · next hq => rw [hq]
    · rfl

theorem Taken.steady (hT : Taken k ecx k') (h : k.Steady) : k'.Steady := by
  refine h.congr hT.processTable hT.currentProc (fun q => ?_) fun q => ?_ <;>
  · rw [hT.proc, dequeue, modProc_proc]
    split
    · next hq => rw [hq]
    · rfl

/-! ## Available threads

A thread that wakes up, or is created, makes its process able to run, and the code sets the flag
with the counter. A thread that blocks does the reverse, and this is where `threadSleep` goes
wrong when it is not the only one. -/

/-- The running process has an available thread: the one that runs. -/
theorem Inv.idleFlag_running (h : k.Inv phy pool) : idleFlag (k.proc k.currentProc) = 0 := by
  have hpos : 0 < k.countFlag k.currentProc 0 :=
    countFlag_pos_iff.mpr ⟨_, h.current_mem, h.flag_eq_zero h.current_mem⟩
  rw [← (h.procOk h.threads.running).avl] at hpos
  exact if_neg (Nat.pos_iff_ne_zero.mp hpos)

/-- One more thread: the counter does not wrap. -/
theorem Inv.add32_avl_ne_zero (h : k.Inv phy pool) (hp : p ∈ k.processTable) :
    add32 (k.proc p).avlThread 1 ≠ 0 := by
  have hP := h.procOk hp
  rw [hP.avl, add32_of_lt (countFlag_lt h.layout hp hP.nodup 0)]
  exact Nat.succ_ne_zero _

/-- The thread that waited wakes up, and its process becomes ready. -/
theorem Handed.steady (hH : Handed k p t source msg k') (hinv : k.Inv phy pool)
    (hp : p ∈ k.processTable) (haway : p ≠ k.currentProc) (h : k.Steady) : k'.Steady := by
  refine ⟨?_, fun q hq hne => ?_⟩
  · rw [hH.currentProc, hH.proc_of_ne haway.symm]
    exact h.running
  · rw [hH.processTable] at hq
    rw [hH.currentProc] at hne
    by_cases hqp : q = p
    · -- the woken thread is available, and its process has flag 0
      rw [hqp, hH.proc_self]
      have hne0 : (woken (k.proc p)).avlThread ≠ 0 := hinv.add32_avl_ne_zero hp
      show 0 = idleFlag _
      exact (if_neg hne0).symm
    · rw [hH.proc_of_ne hqp]
      exact h.idle q hq hne

/-- One available thread more, of a process that runs. -/
theorem Spawned.steady (hS : Spawned k k.frameOf phy pool k.currentProc t k') (h : k.Steady) :
    k'.Steady := by
  obtain ⟨l, -, hproc⟩ := hS.proc
  refine ⟨?_, fun q hq hne => ?_⟩
  · rw [hS.currentProc, hproc, modProc_proc_self]
    exact h.running
  · rw [hS.processTable] at hq
    rw [hS.currentProc] at hne
    rw [hS.other hne]
    exact h.idle q hq hne

/-- A new process is ready and has one thread, which is available. -/
theorem Created.steady (hC : Created k phy pool p k') (hrun : k.currentProc ∈ k.processTable)
    (h : k.Steady) : k'.Steady := by
  refine ⟨?_, fun q hq hne => ?_⟩
  · rw [hC.currentProc, hC.other _ fun hc => hC.new (hc ▸ hrun)]
    exact h.running
  · rw [hC.currentProc] at hne
    by_cases hqp : q = p
    · rw [hqp, hC.flag]
      unfold idleFlag
      rw [hC.avlThread]
      rfl
    · rw [hC.other q hqp]
      refine h.idle q ?_ hne
      exact (List.mem_cons.mp (hC.ring.mem_iff.mp hq)).resolve_left hqp

/-- The thread that waits was the last available one of its process. -/
theorem Waiting.steady (hW : Waiting k k') (h : k.Steady)
    (hone : (k.proc k.currentProc).avlThread = 1) : k'.Steady := by
  refine ⟨?_, fun q hq hne => ?_⟩
  · rw [hW.other _ hW.away]
    exact if_pos rfl
  · rw [hW.processTable] at hq
    by_cases hqc : q = k.currentProc
    · rw [hqc, hW.self]
      unfold idleFlag
      show 1 = if sub32 (k.proc k.currentProc).avlThread 1 = 0 then 1 else 0
      rw [hone]
      rfl
    · have hidle : idleFlag (k'.proc q) = idleFlag (k.proc q) := by
        rw [hW.other q hqc]
        rfl
      rw [hidle, hW.other q hqc]
      show (if q = k'.currentProc then 2 else (k.proc q).flag) = _
      rw [if_neg hne]
      exact h.idle q hq hqc

/-! ## Kernel entries

Every entry is steady but for a `RECEIVE` that blocks beside an available thread. `BlocksAlone`
excludes just this. -/

/-- `SEND`. -/
theorem Sent.steady (hS : Sent k edx ecx ebx k') (hinv : k.Inv phy pool) (h : k.Steady) :
    k'.Steady := by
  cases hS with
  | @accepted p k₁ _ hp _ hacc heq =>
    rw [heq]
    refine (sameButRegs_setAx 1).steady ?_
    cases hacc with
    | handed ht hf hH _ _ _ => exact hH.steady hinv hp ((hinv.procOk hp).blocked _ ht hf).away h
    | queued _ _ hQ _ _ _ => exact hQ.steady h
  | refused _ _ heq =>
    rw [heq]
    exact (sameButRegs_setAx _).steady h

/-- An interrupt that is sent as a message. -/
theorem Interrupted.steady (hI : Interrupted k p k') (hinv : k.Inv phy pool)
    (hp : p ∈ k.processTable) (h : k.Steady) : k'.Steady := by
  cases hI with
  | handed ht hf _ _ hH => exact hH.steady hinv hp ((hinv.procOk hp).blocked _ ht hf).away h
  | queued _ _ _ _ hQ => exact hQ.steady h
  | full _ _ heq =>
    rw [heq]
    exact h

/-- `RECEIVE`, if the thread that blocks is the only one available. -/
theorem Received.steady (hR : Received k ecx k') (h : k.Steady)
    (hone : k.Receivable ecx → (k.proc k.currentProc).msgCount = 0 →
      (k.proc k.currentProc).avlThread = 1) : k'.Steady := by
  cases hR with
  | took _ hU _ hT heq =>
    rw [heq]
    exact (sameButRegs_setAx _).steady (hT.steady (hU.steady h))
  | waits hv hU hempty hW =>
    refine hW.steady (hU.steady h) ?_
    rw [hU.currentProc, hU.proc]
    exact hone hv hempty
  | refused _ heq =>
    rw [heq]
    exact (sameButRegs_setAx _).steady h

/-- The process that gives up the processor stays ready. -/
theorem Scheduled.steady_nice (hS : Scheduled k 2 k₁) (hinv : k.Inv phy pool) (h : k.Steady) :
    (k₁.modProc k.currentProc fun P => { P with flag := 0 }).Steady := by
  have hne : k₁.currentProc ≠ k.currentProc := hS.next_ne (by decide)
  refine ⟨?_, fun q hq hqr => ?_⟩
  · rw [modProc_currentProc, modProc_proc_of_ne hne]
    exact hS.flag_running
  · by_cases hqc : q = k.currentProc
    · rw [hqc, modProc_proc_self, hS.proc]
      exact hinv.idleFlag_running.symm
    · rw [modProc_proc_of_ne hqc]
      refine hS.flag_idle hqr (fun hc => absurd hc hqc) fun _ => h.idle q ?_ hqc
      rw [← hS.processTable]
      exact hq

/-- The timer. -/
theorem timerTick_steady (hinv : k.Inv phy pool) (h : k.Steady) : Yields k.timerTick Steady := by
  refine (timerTick_spec hinv).mono fun k' hk' => ?_
  obtain ⟨-, k₁, hT, hS⟩ := hk'
  have h₁ : k₁.Steady := h.congr hT.processTable hT.currentProc (fun q => by rw [hT.proc])
    fun q => by rw [hT.proc]
  refine hS.steady ?_ h₁.idle
  rw [(hT.inv hinv).idleFlag_running]

/-- Entries of running processes, none of which disposes a thread of another process. -/
def Ordinary (k : Kernel) : Event → Prop
  | .createProcess _ _ _ | .interrupt _ _ | .tick _ => True
  | .systemCall regs => (regs.ax ≤ 3 ∨ regs.ax = 6) ∧ (regs.ax = 3 →
      k.disposeTarget regs.dx ∈ (k.proc k.currentProc).thread ∧ k.Mortal k.currentProc)
  | .disposeProcess _ | .pageFault _ _ | .exception _ => False

/-- A thread that blocks is the only one of its process that is available. -/
def BlocksAlone (k : Kernel) : Event → Prop
  | .systemCall regs => regs.ax = 1 → k.Receivable regs.cx →
      (k.proc k.currentProc).msgCount = 0 → (k.proc k.currentProc).avlThread = 1
  | _ => True

/-- An ordinary kernel entry. -/
def EntersOrdinary (k : Kernel) (ev : Event) (k' : Kernel) : Prop := k.Ordinary ev ∧ k.Enters ev k'

/-- An ordinary kernel entry in which no thread blocks while another one is available. -/
def EntersAlone (k : Kernel) (ev : Event) (k' : Kernel) : Prop :=
  k.BlocksAlone ev ∧ k.EntersOrdinary ev k'

/-- Ordinary entries allocate no memory at an address. -/
theorem owning_of_ordinary (h : k.Ordinary ev) : Owning ev := by
  cases ev with
  | systemCall regs =>
    have hax := h.1
    exact ⟨by omega, fun h5 => by omega⟩
  | createProcess ip privilege priority => trivial
  | disposeProcess p => exact h.elim
  | interrupt regs p => trivial
  | tick regs => trivial
  | pageFault regs cr2 => exact h.elim
  | exception regs => exact h.elim

/-- **A system call.** -/
theorem systemCall_steady {eax : Nat} (hinv : k.Inv False pool) (h : k.Steady)
    (hax : eax ≤ 3 ∨ eax = 6) (hcx : (k.thr k.currentThread).regs.cx = ecx)
    (hdis : eax = 3 → k.disposeTarget edx ∈ (k.proc k.currentProc).thread)
    (hone : eax = 1 → k.Receivable ecx → (k.proc k.currentProc).msgCount = 0 →
      (k.proc k.currentProc).avlThread = 1) : Yields (k.systemCall eax edx ecx ebx) Steady := by
  have hrun := hinv.threads.running
  match eax with
  | 0 => exact (sysSend_spec hinv).mono fun _ hk' => hk'.2.steady hinv h
  | 1 => exact (sysReceive_spec hinv hcx).mono fun _ hk' => hk'.2.steady h (hone rfl)
  | 2 =>
    refine (sysCreateThread_spec hinv).mono fun k' hk' => ?_
    obtain ⟨-, k₁, v, rfl, rfl | ⟨t, hS⟩⟩ := hk'
    · exact (sameButRegs_setAx v).steady h
    · exact (sameButRegs_setAx v).steady (hS.steady h)
  -- the thread is one of the process that calls
  | 3 =>
    have ht := hdis rfl
    refine (sysDisposeThread_spec hinv hrun ht (hinv.normalWindow hrun ht)).mono fun k' hk' => ?_
    exact hk'.2.steady rfl h
  | 6 =>
    refine (sysNice_spec hinv).mono fun k' hk' => ?_
    obtain ⟨-, k₁, hS, rfl⟩ := hk'
    exact hS.steady_nice hinv h
  | 4 | 5 | n + 7 => omega

/-- **One kernel entry** keeps the flags. -/
theorem step_steady (hinv : k.Inv False pool) (h : k.Steady) (hs : k.EntersAlone ev k') :
    k'.Steady := by
  obtain ⟨halone, hord, hadm, hok⟩ := hs
  have hsave : ∀ regs, (k.save regs).Steady := fun regs => (sameButRegs_save regs).steady h
  cases ev with
  | createProcess ip privilege priority =>
    have hC : Yields (k.step (.createProcess ip privilege priority)) Steady :=
      (createProcess_spec hinv).bind fun r hr => hr.2.steady hinv.threads.running h
    exact hC.elim hok
  | systemCall regs =>
    refine Yields.elim (Q := Steady) (systemCall_steady hinv.save (hsave regs) hord.1 save_cx
      (fun h3 => (hord.2 h3).1) fun h1 hv => ?_) hok
    -- storing the registers has not changed the condition
    refine halone h1 ⟨hv.user, hv.aligned, ?_⟩
    have hphy := hv.recyclable
    rwa [save_pte] at hphy
  | interrupt regs p =>
    exact ((sendInterrupt_spec hinv.save hadm).elim hok).2.steady hinv.save hadm (hsave regs)
  | tick regs => exact (timerTick_steady hinv.save (hsave regs)).elim hok
  | disposeProcess p => exact hord.elim
  | pageFault regs cr2 => exact hord.elim
  | exception regs => exact hord.elim

/-- `init_proc` leaves Init running. -/
theorem initProc_steady (hok : k.initProc kernelPDE ip = .ok k₁) : k₁.Steady := by
  unfold initProc at hok
  obtain ⟨⟨d, k₂⟩, -, hok⟩ := bind_eq_ok.mp hok
  obtain ⟨⟨init, k₃⟩, -, hok⟩ := bind_eq_ok.mp hok
  cases hok
  refine ⟨?_, fun q hq hne => absurd (List.mem_singleton.mp hq) hne⟩
  show ((k₃.modProc init fun P => { P with pid := 0, flag := 2 }).proc init).flag = 2
  rw [modProc_proc_self]

/-- **The flags over runs.** Where no thread blocks while its process has another one available,
the running process is the only one with flag 2, and every other process has flag 1 when none of
its threads is available and flag 0 otherwise. -/
theorem run_steady (hB : k.Boot kernelPDE) (hinit : k.initProc kernelPDE ip = .ok k₁)
    (hrun : Run EntersAlone k₁ es k') : k'.currentProc ∈ k'.processTable ∧
      (∀ q ∈ k'.processTable, (k'.proc q).flag = 2 ↔ q = k'.currentProc) ∧
      ∀ q ∈ k'.processTable, q ≠ k'.currentProc →
        (k'.proc q).flag = if (k'.proc q).avlThread = 0 then 1 else 0 := by
  have hI : k'.Inv False k.heap.freeSet ∧ k'.Steady := by
    refine Run.invariant (I := fun k' => k'.Inv False k.heap.freeSet ∧ k'.Steady) ?_ hrun
      ⟨(initProc_spec hB).elim hinit, initProc_steady hinit⟩
    rintro s ev t ⟨hinv, hst⟩ hs
    exact ⟨step_owning hinv ⟨owning_of_ordinary hs.2.1, hs.2.2⟩, step_steady hinv hst hs⟩
  obtain ⟨hinv, hst⟩ := hI
  refine ⟨hinv.threads.running, fun q hq => ⟨fun hf => ?_, fun hq => hq ▸ hst.running⟩, hst.idle⟩
  by_contra hne
  rw [hst.idle q hq hne] at hf
  unfold idleFlag at hf
  split at hf
  · exact absurd hf (by decide)
  · exact absurd hf (by decide)

/-- A run whose events are ordinary in every state. -/
theorem run_ordinary (hes : ∀ ev ∈ es, ∀ k, Ordinary k ev) (hrun : Run Enters k es k') :
    Run EntersOrdinary k es k' :=
  (hrun.restrict (P := fun ev => ∀ k, Ordinary k ev) hes).mono fun k _ _ h => ⟨h.1 k, h.2⟩

/-- Two processes take turns, one of them with two threads. -/
theorem run_steady_tick : ∃ k k₁ k' : Kernel, k.Boot 0 ∧ k.initProc 0 0 = .ok k₁ ∧
    Run EntersAlone k₁ [.createProcess 0 0 100, call 6 0 0 0, call 2 0 0 0, .tick noRegs] k' ∧
      ∀ q ∈ k'.processTable, (k'.proc q).flag = 2 ↔ q = k'.currentProc := by
  obtain ⟨k, k₁, k', hB, -, hinit, hrun, -⟩ := run_of_booted_any (a := 0xC0400000)
    (n := 0x400000) (l := [.createProcess 0 0 100, call 6 0 0 0, call 2 0 0 0, .tick noRegs])
    (P := fun _ => True) (by decide +kernel)
  have hord := run_ordinary (by simp [Ordinary, call, noRegs]) hrun
  have hblocks := hord.restrict (P := fun ev => ∀ k, BlocksAlone k ev)
    (by simp [BlocksAlone, call, noRegs])
  have halone : Run EntersAlone k₁ [.createProcess 0 0 100, call 6 0 0 0, call 2 0 0 0,
      .tick noRegs] k' := hblocks.mono fun k _ _ h => ⟨h.1 k, h.2⟩
  exact ⟨k, k₁, k', hB, hinit, halone, (run_steady hB hinit halone).2.1⟩

/-- A thread that waits while its process has another one puts that one to sleep, too. -/
theorem not_run_steady : ¬ ∀ (k k₁ k' : Kernel) (kernelPDE ip : Nat) (es : List Event),
    k.Boot kernelPDE → k.initProc kernelPDE ip = .ok k₁ → Run EntersOrdinary k₁ es k' →
      k'.currentProc ∈ k'.processTable ∧
        (∀ q ∈ k'.processTable, (k'.proc q).flag = 2 ↔ q = k'.currentProc) ∧
        ∀ q ∈ k'.processTable, q ≠ k'.currentProc →
          (k'.proc q).flag = if (k'.proc q).avlThread = 0 then 1 else 0 := by
  intro hall
  obtain ⟨k, k₁, k', hB, -, hinit, hrun, q, hq, hne, havl, hflag⟩ := run_of_booted_any
    (a := 0xC0400000) (n := 0x400000)
    (l := [.createProcess 0 0 100, call 6 0 0 0, call 2 0 0 0, call 1 0 0x400000 0])
    (P := fun k => ∃ q ∈ k.processTable, q ≠ k.currentProc ∧ (k.proc q).avlThread = 1 ∧
      (k.proc q).flag = 1) (by decide +kernel)
  have hord := run_ordinary (by simp [Ordinary, call, noRegs]) hrun
  have hidle := (hall k k₁ k' 0 0 _ hB hinit hord).2.2 q hq hne
  rw [havl, hflag] at hidle
  exact absurd hidle (by decide)

end Kernel

end NorlitOS
