import NorlitOS.Process.KernelHalf

/-!
# Other processes

A system call touches the calling process, the receiver of its message, and the two processes the
scheduler switches between. `Untouched` is the frame of a call for a process: it stays what it was
but for the `flag` and `ticks` of its record. `SYSCALL_DISPOSE_THREAD` takes the address of any
thread, so a process can dispose the threads of another one.
-/

namespace NorlitOS

open Dyadic Ledger

namespace Kernel

variable {k k' k₁ k₂ k₃ : Kernel} {phy : Prop} {pool : Set Nat} {p q t x flag ecx kernelPDE ip : Nat}
  {regs : StackFrame} {es : List Event}

/-- The process `q` with its threads, queue and user page tables. -/
structure Untouched (k k' : Kernel) (q : Nat) : Prop where
  live : q ∈ k'.processTable
  proc : k'.proc q = { k.proc q with flag := (k'.proc q).flag, ticks := (k'.proc q).ticks }
  thr : ∀ t ∈ (k.proc q).thread, k'.thr t = k.thr t
  pte : ∀ a < USER_PDES, ∀ b, k'.pte q a b = k.pte q a b

/-- The threads are part of the record that stays. -/
theorem Untouched.thread (h : Untouched k k' q) : (k'.proc q).thread = (k.proc q).thread := by
  rw [h.proc]

theorem Untouched.trans (h₁ : Untouched k k₁ q) (h₂ : Untouched k₁ k₂ q) : Untouched k k₂ q where
  live := h₂.live
  proc := by rw [h₂.proc, h₁.proc]
  thr t ht := (h₂.thr t (h₁.thread ▸ ht)).trans (h₁.thr t ht)
  pte a ha b := (h₂.pte a ha b).trans (h₁.pte a ha b)

/-- A message for `q`: in its queue, or handed to a thread of it that waits. -/
inductive Delivered (k : Kernel) (q : Nat) (k' : Kernel) : Prop where
  | queued {msg : Nat} (proc : k'.proc q = (k.enqueue q msg).proc q)
      (thr : ∀ t ∈ (k.proc q).thread, k'.thr t = k.thr t)
      (pte : ∀ a < USER_PDES, ∀ b, k'.pte q a b = k.pte q a b)
  | handed {t source x : Nat} (member : t ∈ (k.proc q).thread) (blocked : (k.thr t).flag = 2)
      (proc : k'.proc q = woken (k.proc q)) (self : k'.thr t = answered source (k.thr t))
      (thr : ∀ u ∈ (k.proc q).thread, u ≠ t → k'.thr u = k.thr u)
      (mapped : k'.entryAt q (k.thr t).regs.cx = x ||| 0b11111)
      (pte : ∀ a < USER_PDES, ∀ b,
        ¬ (a = va2pde (k.thr t).regs.cx ∧ b = va2pte (k.thr t).regs.cx) →
          k'.pte q a b = k.pte q a b)

/-- What a call may do to another process: nothing, or a `SEND` that names it delivers a message. -/
def Isolated (k : Kernel) (regs : StackFrame) (k' : Kernel) (q : Nat) : Prop :=
  Untouched k k' q ∨ (regs.ax = 0 ∧ (k.proc q).pid = regs.dx ∧ q ∈ k'.processTable ∧
    Delivered k q k')

/-! ## What the parts of a call leave alone

One lemma for each way a part of the kernel changes the state: all of them change records and
tables of the running process, or of no process. -/

section Parts

variable (h : k.Inv phy pool) (hq : q ∈ k.processTable) (hne : q ≠ k.currentProc)

include h hq hne

/-- Storing the registers of the running thread. -/
theorem SameButRegs.untouched (hS : SameButRegs k k') : Untouched k k' q where
  live := hS.processTable ▸ hq
  proc := by rw [hS.proc]
  thr t ht := by
    obtain ⟨-, -, hsame⟩ := hS.thr t
    exact hsame (h.ne_currentThread hq hne ht)
  pte a _ b := hS.sameMaps.pte q a b

theorem untouched_setAx {v : Nat} : Untouched k (k.setAx k.currentThread v) q :=
  (sameButRegs_setAx v).untouched h hq hne

/-- What the running thread finds in `ax` in the end. -/
theorem Untouched.setAx {v : Nat} (hU : Untouched k k₁ q) (hct : k₁.currentThread = k.currentThread) :
    Untouched k (k₁.setAx k₁.currentThread v) q := by
  have hS := sameButRegs_setAx (k := k₁) v
  refine ⟨hS.processTable ▸ hU.live, ?_, fun u hu => ?_, fun a ha b => ?_⟩
  · rw [hS.proc]
    exact hU.proc
  · obtain ⟨-, -, hsame⟩ := hS.thr u
    rw [hsame (hct ▸ h.ne_currentThread hq hne hu)]
    exact hU.thr u hu
  · rw [hS.sameMaps.pte]
    exact hU.pte a ha b

omit h in
/-- A change that the running process alone sees. -/
theorem SameRunning.untouched (hS : SameRunning k k') : Untouched k k' q where
  live := hS.processTable ▸ hq
  proc := by rw [hS.proc]
  thr t _ := by rw [hS.thr]
  pte a ha b := hS.pte q hq hne a ha b

omit h in
/-- Taking a message from the queue of the running process. -/
theorem Taken.untouched (hT : Taken k ecx k') : Untouched k k' q where
  live := hT.processTable ▸ hq
  proc := by rw [hT.proc, dequeue, modProc_proc_of_ne hne]
  thr t _ := by rw [hT.thr]
  pte a ha b := hT.pte q hq hne a ha b

/-- The running thread begins to wait. -/
theorem Waiting.untouched (hW : Waiting k k') : Untouched k k' q where
  live := hW.processTable ▸ hq
  proc := by rw [hW.other q hne]
  thr t ht := hW.thr_of_ne (h.ne_currentThread hq hne ht)
  pte a ha b := hW.pte q hq a ha b

/-- A new thread of the running process. -/
theorem Spawned.untouched (hS : Spawned k k.frameOf phy pool k.currentProc t k') :
    Untouched k k' q := by
  obtain ⟨l, -, hproc⟩ := hS.proc
  refine ⟨hS.processTable ▸ hq, by rw [hproc, modProc_proc_of_ne hne], fun u hu => ?_,
    fun a ha b => hS.pte q hq hne a ha b⟩
  -- the new thread has a page that was free
  exact hS.thr u fun hut => h.owned.ne_of_free (frameOf_threadPage hq hu) hS.free hut

omit hne in
/-- The scheduler changes `flag` and `ticks`, and these `Untouched` leaves open. -/
theorem Scheduled.untouched (hS : Scheduled k flag k') : Untouched k k' q where
  live := hS.processTable ▸ hq
  proc := by rw [hS.proc]
  thr t _ := by rw [hS.thr]
  pte a ha b := hS.pte_user h.layout hq ha b

omit h in
/-- Disposing a thread of the running process, with the process or without. -/
theorem Disposed.untouched (hD : Disposed k pool k.currentProc t k') : Untouched k k' q where
  live := by
    rw [hD.processTable]
    split
    · exact (List.mem_erase_of_ne hne).mpr hq
    · exact hq
  proc := hD.other q hne
  thr u _ := by rw [hD.thr]
  pte a ha b := hD.pte q hq hne a ha b

omit h in
/-- Disposing the running process and going on to the next one. -/
theorem Exited.untouched (hE : Exited k pool k.currentProc k') : Untouched k k' q where
  live := by
    rw [hE.processTable]
    exact (List.mem_erase_of_ne hne).mpr hq
  proc := hE.other q hne
  thr u _ := by rw [hE.thr]
  pte a ha b := hE.pte q hq hne a ha b

end Parts

/-! ## Messages

A message changes the receiver alone. There are two ways it can arrive, and each is one of the two
cases of `Delivered`. -/

section Messages

variable {source msg : Nat} (h : k.Inv phy pool) (hq : q ∈ k.processTable)
  (hne : q ≠ k.currentProc)

include h hq hne

/-- A message handed to another process. -/
theorem Handed.untouched (hH : Handed k p t source x k') (hp : p ∈ k.processTable)
    (ht : t ∈ (k.proc p).thread) (hqp : q ≠ p) : Untouched k k' q where
  live := hH.processTable ▸ hq
  proc := by rw [hH.proc_of_ne hqp]
  thr u hu := hH.thr_of_ne fun hut => hqp (h.thread_unique hq hp (hut ▸ hu) ht)
  pte a ha b := hH.pte q hq hne hqp a ha b

omit h in
/-- A message queued for another process. -/
theorem Queued.untouched (hQ : Queued k p msg k') (hqp : q ≠ p) : Untouched k k' q where
  live := hQ.processTable ▸ hq
  proc := by rw [hQ.proc, enqueue, modProc_proc_of_ne hqp]
  thr u _ := by rw [hQ.thr]
  pte a ha b := hQ.pte q hq hne a ha b

omit h hq hne in
/-- The receiver of a message that is handed over. -/
theorem Handed.delivered (hH : Handed k q t source x k') (ht : t ∈ (k.proc q).thread)
    (hf : (k.thr t).flag = 2) : Delivered k q k' :=
  .handed ht hf hH.proc_self hH.thr_self (fun _ _ hut => hH.thr_of_ne hut) hH.mapped hH.space

omit h in
/-- The receiver of a message that is queued. -/
theorem Queued.delivered (hQ : Queued k q msg k') : Delivered k q k' :=
  .queued (by rw [hQ.proc]) (fun _ _ => by rw [hQ.thr]) fun a ha b => hQ.pte q hq hne a ha b

/-- Registers of other threads are no part of a delivery. -/
theorem Delivered.of_sameButRegs (hS : SameButRegs k k₁) (hS' : SameButRegs k₂ k')
    (hcur : k₂.currentThread = k.currentThread) (hD : Delivered k₁ q k₂) : Delivered k q k' := by
  have hproc : k₁.proc q = k.proc q := by rw [hS.proc]
  have hthr : ∀ u ∈ (k.proc q).thread, k₁.thr u = k.thr u := fun u hu =>
    (hS.untouched h hq hne).thr u hu
  have hthr' : ∀ u ∈ (k.proc q).thread, k'.thr u = k₂.thr u := by
    intro u hu
    obtain ⟨-, -, hsame⟩ := hS'.thr u
    exact hsame (hcur ▸ h.ne_currentThread hq hne hu)
  have hpte := hS.sameMaps.pte q
  have hpte' := hS'.sameMaps.pte q
  -- the registers stored are those of the running thread, which is none of `q`
  cases hD with
  | queued proc thr pte =>
    refine .queued (by rw [hS'.proc, proc, enqueue, enqueue, modProc_proc_self, modProc_proc_self,
      hproc]) (fun u hu => ?_) fun a ha b => ?_
    · rw [hthr' u hu, thr u (hproc ▸ hu), hthr u hu]
    · rw [hpte', pte a ha b, hpte]
  | @handed t source x member blocked proc self thr mapped pte =>
    rw [hproc] at member proc
    rw [hthr t member] at blocked self mapped pte
    refine .handed member blocked (by rw [hS'.proc, proc]) ((hthr' t member).trans self)
      (fun u hu hut => ?_) ((hpte' _ _).trans mapped) fun a ha b hab => ?_
    · rw [hthr' u hu, thr u (hproc ▸ hu) hut, hthr u hu]
    · rw [hpte', pte a ha b hab, hpte]

end Messages

/-! ## Every call

The parts are put together along the definition of each call. `SEND` is the only one with a
receiver, and it names the receiver by its `pid`. -/

/-- A process that is found has the `pid` that was asked for. -/
theorem getProcessById_pid {id : Nat} (h : k.getProcessById id = some p) : (k.proc p).pid = id := by
  have hfound := List.find?_some h
  exact of_decide_eq_true hfound

/-- `SYSCALL_SEND`. -/
theorem Sent.isolated (hS : Sent (k.save regs) regs.dx regs.cx regs.bx k') (hax : regs.ax = 0)
    (h : k.Inv phy pool) (hq : q ∈ k.processTable) (hne : q ≠ k.currentProc) :
    Isolated k regs k' q := by
  have hsave := sameButRegs_save (k := k) regs
  have hfirst := hsave.untouched h hq hne
  -- a refused `SEND` stores its error and nothing else
  cases hS with
  | refused _ _ heq =>
    rw [heq]
    exact Or.inl (hfirst.trans (untouched_setAx (k := k.save regs) h.save hq hne))
  | @accepted p k₁ hsends hp _ hacc heq =>
    have hpid : (k.proc p).pid = regs.dx := getProcessById_pid hsends.found
    -- either way `q` is the receiver, or it is untouched up to the last store
    have hcases : k₁.currentProc = k.currentProc ∧ k₁.currentThread = k.currentThread ∧
        k₁.processTable = k.processTable ∧
          ((q = p ∧ Delivered (k.save regs) q k₁) ∨ Untouched (k.save regs) k₁ q) := by
      cases hacc with
      | @handed t fresh ht hf hH =>
        refine ⟨hH.currentProc, hH.currentThread, hH.processTable, ?_⟩
        by_cases hqp : q = p
        · rw [hqp]
          exact Or.inl ⟨rfl, hH.delivered ht hf⟩
        · exact Or.inr (hH.untouched h.save hq hne hp ht hqp)
      | queued _ _ hQ =>
        refine ⟨hQ.currentProc, hQ.currentThread, hQ.processTable, ?_⟩
        by_cases hqp : q = p
        · rw [← hqp] at hQ
          exact Or.inl ⟨hqp, hQ.delivered hq hne⟩
        · exact Or.inr (hQ.untouched hq hne hqp)
    obtain ⟨hcp, hct, hring, hor⟩ := hcases
    have hlast : SameButRegs k₁ k' := by
      rw [heq]
      exact sameButRegs_setAx 1
    cases hor with
    | inl hD =>
      obtain ⟨hqp, hD⟩ := hD
      exact Or.inr ⟨hax, hqp ▸ hpid, by rw [hlast.processTable, hring]; exact hq,
        hD.of_sameButRegs h hq hne hsave hlast hct⟩
    | inr hU =>
      rw [heq]
      exact Or.inl (hfirst.trans (Untouched.setAx (k := k.save regs) h.save hq hne hU hct))

/-- `SYSCALL_RECEIVE`. -/
theorem Received.untouched (hR : Received k ecx k') (h : k.Inv phy pool) (hq : q ∈ k.processTable)
    (hne : q ≠ k.currentProc) : Untouched k k' q := by
  cases hR with
  | refused _ heq =>
    rw [heq]
    exact untouched_setAx h hq hne
  | @took k₁ k₂ _ hU _ hT heq =>
    have h₁ : Untouched k k₁ q := hU.toSameRunning.untouched hq hne
    have h₂ : Untouched k₁ k₂ q := hT.untouched h₁.live (hU.currentProc.symm ▸ hne)
    rw [heq]
    exact Untouched.setAx h hq hne (h₁.trans h₂) (hT.currentThread.trans hU.currentThread)
  | @waits k₁ _ hU _ hW =>
    have h₁ : Untouched k k₁ q := hU.toSameRunning.untouched hq hne
    have hne₁ : q ≠ k₁.currentProc := hU.currentProc.symm ▸ hne
    refine h₁.trans ⟨hW.processTable ▸ h₁.live, by rw [hW.other q hne₁], fun u hu => ?_,
      fun a ha b => hW.pte q h₁.live a ha b⟩
    rw [h₁.thread] at hu
    exact hW.thr_of_ne (hU.currentThread.symm ▸ h.ne_currentThread hq hne hu)

/-- A mapping call, with any registers. -/
theorem MapCall.untouched {g : Heap} {r : Nat × Kernel} {own : Owner → Option Nat}
    (hM : MapCall k regs g x flag r k') (h : k.Inv True pool) (hO : Owned g own pool)
    (hA : Agree own k) (hq : q ∈ k.processTable) (hne : q ≠ k.currentProc) :
    Untouched k k' q := by
  obtain ⟨⟨own', pool', hE⟩, -⟩ := hM.extended h hO hA
  have h₁ : Untouched k (k.mapping regs g) q :=
    ((sameButRegs_save regs).untouched h hq hne).trans (sameRunning_withHeap.untouched hq hne)
  have h₂ : Untouched (k.mapping regs g) r.2 q := ⟨hE.mem hq, by rw [hE.proc],
    fun u _ => by rw [hE.thr], fun a ha b => hE.other q hq hne a ha b⟩
  have h₃ := Untouched.setAx (v := r.1) h hq hne (h₁.trans h₂) hE.currentThread
  refine ⟨hM.processTable ▸ h₃.live, ?_, fun u hu => ?_, fun a ha b => ?_⟩
  · rw [hM.proc]
    exact h₃.proc
  · rw [hM.thr]
    exact h₃.thr u hu
  · refine Eq.trans ?_ (h₃.pte a ha b)
    unfold Kernel.pte pde pd
    rw [hM.table, hM.proc]
    rfl

theorem mapping_untouched (h : k.Inv True pool) (hax : regs.ax = 4 ∨ regs.ax = 5)
    (hok : k.step (.systemCall regs) = .ok k') (hq : q ∈ k.processTable) (hne : q ≠ k.currentProc) :
    Untouched k k' q := by
  cases hax with
  | inl h4 =>
    obtain ⟨r, hM, -⟩ := step_openPhysicalMemory h4 hok
    exact hM.untouched h h.owned (Agree.refl k) hq hne
  | inr h5 =>
    obtain ⟨f, g, r, hf, hM, -⟩ := step_allocMemory h h5 hok
    obtain ⟨hO, hA⟩ := inHand_owned hf
    exact hM.untouched h hO hA hq hne

/-- The calls that neither send nor map. -/
theorem systemCall_untouched {eax edx ecx ebx : Nat} (h : k.Inv phy pool)
    (hcx : (k.thr k.currentThread).regs.cx = ecx) (hsend : eax ≠ 0) (hmap : ¬ (eax = 4 ∨ eax = 5))
    (hself : eax = 3 → k.disposeTarget edx ∈ (k.proc k.currentProc).thread)
    (hwin : eax = 3 → k.NormalWindow k.currentProc (k.disposeTarget edx))
    (hwins : 6 < eax → k.NormalWindows k.currentProc) (hq : q ∈ k.processTable)
    (hne : q ≠ k.currentProc) :
    Yields (k.systemCall eax edx ecx ebx) fun k' => Untouched k k' q := by
  match eax with
  | 0 => exact absurd rfl hsend
  | 1 => exact (sysReceive_spec h hcx).mono fun _ hk' => hk'.2.untouched h hq hne
  | 2 =>
    refine (sysCreateThread_spec h).mono fun k' hk' => ?_
    obtain ⟨-, k₁, v, rfl, hor⟩ := hk'
    rcases hor with rfl | ⟨t, hS⟩
    · exact untouched_setAx h hq hne
    · exact Untouched.setAx h hq hne (hS.untouched h hq hne) hS.currentThread
  | 3 =>
    exact (sysDisposeThread_spec h h.threads.running (hself rfl) (hwin rfl)).mono
      fun _ hk' => hk'.2.untouched hq hne
  | 4 => exact absurd (Or.inl rfl) hmap
  | 5 => exact absurd (Or.inr rfl) hmap
  | 6 =>
    refine (sysNice_spec h).mono fun k' hk' => ?_
    obtain ⟨-, k₁, hS, rfl⟩ := hk'
    have h₁ := hS.untouched h hq
    have hM : SameMaps k₁ (k₁.modProc k.currentProc fun P => { P with flag := 0 }) :=
      sameMaps_modProc (fun _ => rfl) (fun _ => rfl) (fun _ => rfl) (fun _ => rfl) fun _ => rfl
    refine ⟨h₁.live, ?_, h₁.thr, fun a ha b => (hM.pte q a b).trans (h₁.pte a ha b)⟩
    rw [modProc_proc_of_ne hne]
    exact h₁.proc
  -- an unknown call ends the caller
  | n + 7 =>
    exact (exceptionHandler_spec h (hwins (by omega))).mono fun _ hk' => hk'.2.untouched hq hne

/-- **A call of a process that disposes at most its own threads** leaves the others alone. -/
theorem isolated_of_own (h : k.Inv True pool)
    (hcare : regs.ax ≠ 5 → k.Careful (.systemCall regs))
    (hself : regs.ax = 3 → k.disposeTarget regs.dx ∈ (k.proc k.currentProc).thread)
    (hok : k.step (.systemCall regs) = .ok k') (hq : q ∈ k.processTable) (hne : q ≠ k.currentProc) :
    Isolated k regs k' q := by
  by_cases hmap : regs.ax = 4 ∨ regs.ax = 5
  · exact Or.inl (mapping_untouched h hmap hok hq hne)
  by_cases hsend : regs.ax = 0
  · exact (sent_of_step h hsend hok).isolated hsend h hq hne
  · have hc := hcare fun h5 => hmap (Or.inr h5)
    have hfirst := (sameButRegs_save (k := k) regs).untouched h hq hne
    refine Or.inl (hfirst.trans ((systemCall_untouched h.save save_cx hsend hmap hself (fun h3 => ?_)
      (fun h6 => normalWindows_save.mpr (hc.2.2 h6)) hq hne).elim hok))
    have hwin := hc.2.1 h3
    rw [(h.procOk h.threads.running).back _ (hself h3)] at hwin
    exact normalWindow_save.mpr hwin

/-- The process of a thread that is disposed has lost it. -/
theorem not_isolated_of_foreign (h : k.Inv True pool) (hax : regs.ax = 3)
    (hcare : k.Careful (.systemCall regs)) (hp : p ∈ k.processTable)
    (ht : k.disposeTarget regs.dx ∈ (k.proc p).thread)
    (hok : k.step (.systemCall regs) = .ok k') : ¬ Isolated k regs k' p := by
  have hsys : (k.save regs).sysDisposeThread regs.dx = .ok k' := by
    change (k.save regs).systemCall regs.ax regs.dx regs.cx regs.bx = .ok k' at hok
    rw [hax] at hok
    exact hok
  have hwin := hcare.2.1 hax
  rw [(h.procOk hp).back _ ht] at hwin
  have hD := ((sysDisposeThread_spec (k := k.save regs) h.save hp ht
    (normalWindow_save.mpr hwin)).elim hsys).2
  intro hI
  cases hI with
  | inl hU =>
    -- the process has lost a thread
    have hlen := congrArg List.length (hU.thread.symm.trans hD.thread)
    change (k.proc p).thread.length = ((k.proc p).thread.erase (k.disposeTarget regs.dx)).length at hlen
    rw [List.length_erase_of_mem ht] at hlen
    have hpos := List.length_pos_of_mem ht
    omega
  | inr hD =>
    rw [hax] at hD
    exact absurd hD.1 (by decide)

/-- **Isolation.** In every state that careful entries reach, a system call with any registers
leaves every other process alone, or delivers a message to the one it names, exactly if the thread
it disposes, if it disposes one, is a thread of the calling process. -/
theorem run_isolated_iff (hB : k.Boot kernelPDE) (hinit : k.initProc kernelPDE ip = .ok k₁)
    (hrun : Run EntersCarefully k₁ es k₂) (hadm : k₂.Admissible (.systemCall regs))
    (hcare : regs.ax ≠ 5 → k₂.Careful (.systemCall regs))
    (hok : k₂.step (.systemCall regs) = .ok k₃) :
    (∀ q ∈ k₂.processTable, q ≠ k₂.currentProc → Isolated k₂ regs k₃ q) ↔
      (regs.ax = 3 → k₂.disposeTarget regs.dx ∈ (k₂.proc k₂.currentProc).thread) := by
  obtain ⟨pool, -, h⟩ := hB.run_inv hinit hrun
  constructor
  · intro hI h3
    obtain ⟨p, hp, ht, -⟩ := hadm.1 h3
    by_cases hpc : p = k₂.currentProc
    · exact hpc ▸ ht
    · exact absurd (hI p hp hpc)
        (not_isolated_of_foreign h h3 (hcare (by rw [h3]; decide)) hp ht hok)
  · exact fun hself q hq hne => isolated_of_own h hcare hself hok hq hne

/-- Two processes beside Init: one creates a thread. -/
theorem run_isolated_iff_create : ∃ k k₁ k₂ k₃ : Kernel, k.Boot 0 ∧ k.initProc 0 0 = .ok k₁ ∧
    Run EntersCarefully k₁ [.createProcess 0 0 100, .createProcess 0 0 50, call 6 0 0 0] k₂ ∧
      k₂.Enters (call 2 0 0 0) k₃ ∧ k₂.processTable.length = 3 ∧
        ∀ q ∈ k₂.processTable, q ≠ k₂.currentProc →
          Isolated k₂ { noRegs with ax := 2, dx := 0, cx := 0, bx := 0 } k₃ q := by
  obtain ⟨k, k₁, k₂, k₃, hB, hinit, hrun, hs, hlen⟩ := run_of_booted_step (a := 0xC0400000)
    (n := 0x400000) (l := [.createProcess 0 0 100, .createProcess 0 0 50, call 6 0 0 0])
    (e := call 2 0 0 0) (P := fun k _ => k.processTable.length = 3) (by decide +kernel)
  have hreach := run_of_plain (by simp [Plain, call, noRegs]) hrun
  exact ⟨k, k₁, k₂, k₃, hB, hinit, hreach, hs, hlen, (run_isolated_iff hB hinit hreach hs.1
    (fun _ => careful_of_plain (Or.inl le_rfl)) hs.2).mpr fun h3 => absurd h3 (by decide)⟩

/-- One process disposes the thread of the other. -/
theorem not_run_isolated : ¬ ∀ (k k₁ k₂ k₃ : Kernel) (kernelPDE ip : Nat) (es : List Event)
    (regs : StackFrame), k.Boot kernelPDE → k.initProc kernelPDE ip = .ok k₁ → Run Enters k₁ es k₂ →
      k₂.Enters (.systemCall regs) k₃ → ∀ q ∈ k₂.processTable, q ≠ k₂.currentProc →
        Isolated k₂ regs k₃ q := by
  intro hall
  obtain ⟨k, k₁, k₂, k₃, hB, hinit, hrun, hs, hq, hne, hgone⟩ := run_of_booted_step (a := 0xC0400000)
    (n := 0x400000) (l := [.createProcess 0 0 100, .createProcess 0 0 50, call 6 0 0 0])
    (e := call 3 0xC040E000 0 0) (P := fun k k' => 0xC040B004 ∈ k.processTable ∧
      0xC040B004 ≠ k.currentProc ∧ 0xC040B004 ∉ k'.processTable) (by decide +kernel)
  cases hall k k₁ k₂ k₃ 0 0 _ _ hB hinit hrun hs _ hq hne with
  | inl hU => exact hgone hU.live
  | inr hD => exact absurd hD.1 (by decide)

end Kernel

end NorlitOS
