import NorlitOS.Process.Authentic

/-!
# The mailbox of one process

Seen from one process, the kernel is a queue of letters that it reads with `RECEIVE`. The thread of
a process that runs is always the current one of its record, so entries of others append letters,
or hand one to this thread while it waits.
-/

namespace NorlitOS

open Dyadic Ledger

namespace Kernel

variable {k k' k₁ k₂ : Kernel} {phy : Prop} {pool : Set Nat} {p q t x source flag : Nat}
  {edx ecx ebx : Nat} {regs : StackFrame} {ev : Event}

/-- The thread of `p` that runs when `p` does. -/
def runner (k : Kernel) (p : Nat) : Nat := (k.proc p).current

/-- The runner of `p` is blocked in `RECEIVE`. -/
def Waits (k : Kernel) (p : Nat) : Prop := (k.thr (k.runner p)).flag = 2

instance (k : Kernel) (p : Nat) : Decidable (k.Waits p) :=
  inferInstanceAs (Decidable ((k.thr (k.runner p)).flag = 2))

/-- The letters the entry accepts for `p`. -/
def arrived (p : Nat) (k : Kernel) (ev : Event) (k' : Kernel) : List (Nat × Nat) :=
  (accepted p k ev k').map Posting.letter

/-- An entry that is no system call of `p`. -/
def Foreign (p : Nat) (k : Kernel) : Event → Prop
  | .systemCall _ => p ≠ k.currentProc
  | _ => True

instance (p : Nat) (k : Kernel) (ev : Event) : Decidable (Foreign p k ev) :=
  match ev with
  | .systemCall _ => inferInstanceAs (Decidable (p ≠ k.currentProc))
  | .createProcess _ _ _ | .disposeProcess _ | .interrupt _ _ | .tick _ | .pageFault _ _
  | .exception _ => inferInstanceAs (Decidable True)

/-- An entry of others that sends nothing to `p`. -/
def Quiet (p : Nat) (k : Kernel) : Event → Prop
  | .systemCall regs => p ≠ k.currentProc ∧ (regs.ax = 0 → k.getProcessById regs.dx ≠ some p)
  | .interrupt _ q => q ≠ p
  | _ => True

instance (p : Nat) (k : Kernel) (ev : Event) : Decidable (Quiet p k ev) :=
  match ev with
  | .systemCall regs => inferInstanceAs
    (Decidable (p ≠ k.currentProc ∧ (regs.ax = 0 → k.getProcessById regs.dx ≠ some p)))
  | .interrupt _ q => inferInstanceAs (Decidable (q ≠ p))
  | .createProcess _ _ _ | .disposeProcess _ | .tick _ | .pageFault _ _ | .exception _ =>
    inferInstanceAs (Decidable True)

/-- An entry that sends nothing to `p` is no call of `p`. -/
theorem Quiet.foreign (h : Quiet p k ev) : Foreign p k ev := by
  cases ev with
  | systemCall regs => exact h.1
  | _ => trivial

/-- A page of its own, present and at an address `SEND` and `RECEIVE` accept. -/
structure Holds (k : Kernel) (p addr : Nat) : Prop where
  user : addr < PAGE_OFFSET
  aligned : addr % PAGE_SIZE = 0
  mapped : k.entryAt p addr ≠ 0
  normal : isPhy (k.entryAt p addr) = false

/-! ## What an entry does to the runner

A process reads its letters with the thread that runs when it does. An entry of others lets this
thread rest, or wakes it with a page, and what it obtains is read off its registers. -/

/-- The runner of `p` goes on as it was. While `p` runs its registers are its own affair. -/
structure Rests (k : Kernel) (p : Nat) (k' : Kernel) : Prop where
  runner : k'.runner p = k.runner p
  flag : (k'.thr (k.runner p)).flag = (k.thr (k.runner p)).flag
  cx : p ≠ k.currentProc → (k'.thr (k.runner p)).regs.cx = (k.thr (k.runner p)).regs.cx
  pte : ∀ a < USER_PDES, ∀ b, k'.pte p a b = k.pte p a b

/-- The runner of `p` has waited and gets a page. -/
structure Wakes (k : Kernel) (p : Nat) (k' : Kernel) : Prop where
  runner : k'.runner p = k.runner p
  waited : k.Waits p
  flag : (k'.thr (k.runner p)).flag = 0
  cx : (k'.thr (k.runner p)).regs.cx = (k.thr (k.runner p)).regs.cx
  mapped : ∃ x, PAGE_SIZE ∣ x ∧ k'.entryAt p (k.thr (k.runner p)).regs.cx = x ||| 0b11111

section Runner

variable (h : k.Inv phy pool) (hp : p ∈ k.processTable)

include h hp

/-- The runner is a thread of the process. -/
theorem Inv.runner_mem : k.runner p ∈ (k.proc p).thread := (h.procOk hp).current

/-- Only the runner of a process waits. -/
theorem Inv.eq_runner (ht : t ∈ (k.proc p).thread) (hf : (k.thr t).flag = 2) : t = k.runner p :=
  ((h.procOk hp).blocked t ht hf).current.symm

/-- A process whose runner waits does not run, and its queue is empty. -/
theorem Inv.away (hw : k.Waits p) : p ≠ k.currentProc :=
  ((h.procOk hp).blocked _ (h.runner_mem hp) hw).away

/-- Nothing is queued for a runner that waits. -/
theorem Inv.mail_of_waits (hw : k.Waits p) : k.mail p = [] :=
  mail_of_empty ((h.procOk hp).blocked _ (h.runner_mem hp) hw).empty

/-- At most one thread of `p` returns from a `RECEIVE`, its runner. -/
theorem obtained_runner : obtained p k ev k' =
    if k.returns ev k' (k.runner p) then [k'.letterOf p (k.runner p)] else [] := by
  have hP := h.procOk hp
  have hmem := h.runner_mem hp
  have honly : ∀ u ∈ (k.proc p).thread, k.returns ev k' u = true → u = k.runner p := by
    intro u hu hr
    cases (returns_eq_true.mp hr).2 with
    | inl hf => exact h.eq_runner hp hu hf
    | inr hreceives =>
      -- the running thread is the current one of the running process
      cases ev with
      | systemCall regs =>
        have hcur : u = k.currentThread := hreceives.2.1
        have hpc : p = k.currentProc := by
          by_contra hne
          exact h.ne_currentThread hp hne hu hcur
        rw [hcur, h.threads.currentThread, hpc]
        rfl
      | _ => exact hreceives.elim
  unfold obtained
  -- the runner obtains a letter, or no thread does
  cases hr : k.returns ev k' (k.runner p) with
  | false =>
    have hnone : (k.proc p).thread.filter (k.returns ev k') = [] := by
      refine List.filter_eq_nil_iff.mpr fun u hu hret => ?_
      rw [honly u hu hret, hr] at hret
      exact nomatch hret
    rw [hnone]
    rfl
  | true =>
    have hone : (k.proc p).thread.filter (k.returns ev k') =
        (k.proc p).thread.filter fun u => decide (u = k.runner p) := by
      refine List.filter_congr fun u hu => ?_
      rw [Bool.eq_iff_iff, decide_eq_true_iff]
      exact ⟨honly u hu, fun heq => heq ▸ hr⟩
    rw [hone, List.filter_eq, List.count_eq_one_of_mem hP.nodup hmem]
    rfl

/-- **The law of the mailbox.** -/
theorem EntersIpc.mailbox (hs : k.EntersIpc ev k') : k.mail p ++ arrived p k ev k' =
    (if k.returns ev k' (k.runner p) then [k'.letterOf p (k.runner p)] else []) ++ k'.mail p := by
  have hlaw := hs.conserves h hp
  rw [Conserves, obtained_runner h hp] at hlaw
  exact hlaw

end Runner

theorem Rests.trans (h₁ : Rests k p k₁) (h₂ : Rests k₁ p k₂) (hcp : k₁.currentProc = k.currentProc) :
    Rests k p k₂ := by
  have hr := h₁.runner
  refine ⟨h₂.runner.trans hr, ?_, fun hne => ?_, fun a ha b => (h₂.pte a ha b).trans (h₁.pte a ha b)⟩
  · exact (hr ▸ h₂.flag).trans h₁.flag
  · exact (hr ▸ h₂.cx (hcp ▸ hne)).trans (h₁.cx hne)

/-- Storing registers of the running thread. -/
theorem SameButRegs.rests (hS : SameButRegs k k') (h : k.Inv phy pool) (hp : p ∈ k.processTable) :
    Rests k p k' := by
  refine ⟨?_, hS.thr_flag _, fun hne => ?_, fun a _ b => hS.sameMaps.pte p a b⟩
  · unfold Kernel.runner
    rw [hS.proc]
  · obtain ⟨-, -, hsame⟩ := hS.thr (k.runner p)
    rw [hsame (h.ne_currentThread hp hne (h.runner_mem hp))]

/-- An untouched process keeps its runner as it is. -/
theorem Untouched.rests (hU : Untouched k k' p) (h : k.Inv phy pool) (hp : p ∈ k.processTable) :
    Rests k p k' := by
  have hthr := hU.thr _ (h.runner_mem hp)
  refine ⟨?_, by rw [hthr], fun _ => by rw [hthr], hU.pte⟩
  unfold Kernel.runner
  rw [hU.proc]

/-- A page is handed to the runner of `p`, and then the registers of another thread may change. -/
theorem Handed.wakes (hH : Handed (k.save regs) p t source x k₁) (h : k.Inv phy pool)
    (hp : p ∈ k.processTable) (ht : t ∈ (k.proc p).thread) (hf : (k.thr t).flag = 2)
    (hx : PAGE_SIZE ∣ x) (hproc : k'.proc p = k₁.proc p) (hthr : k'.thr t = k₁.thr t)
    (hpte : ∀ a b, k'.pte p a b = k₁.pte p a b) : Wakes k p k' := by
  have htr := h.eq_runner hp ht hf
  have hne : t ≠ k.currentThread :=
    h.ne_currentThread hp ((h.procOk hp).blocked t ht hf).away ht
  have hsave : (k.save regs).thr t = k.thr t := modThr_thr_of_ne hne
  subst htr
  have hself : k'.thr (k.runner p) = answered source (k.thr (k.runner p)) := by
    rw [hthr, hH.thr_self, hsave]
  refine ⟨?_, hf, by rw [hself]; rfl, by rw [hself]; rfl, x, hx, ?_⟩
  · show (k'.proc p).current = _
    rw [hproc, hH.proc_self]
    rfl
  · have hmapped := hH.mapped
    rw [hsave] at hmapped
    exact (hpte _ _).trans hmapped

/-- Entries that send, at a process that does not run. -/
theorem Sent.rests_or_wakes (hS : Sent (k.save regs) regs.dx regs.cx regs.bx k')
    (h : k.Inv phy pool) (hp : p ∈ k.processTable) (hne : p ≠ k.currentProc) :
    Rests k p k' ∨ Wakes k p k' := by
  have hsave : Rests k p (k.save regs) := (sameButRegs_save regs).rests h hp
  cases hS with
  | refused _ _ heq =>
    rw [heq]
    exact Or.inl (hsave.trans ((sameButRegs_setAx (k := k.save regs) _).rests h.save hp) rfl)
  | @accepted q k₁ _ hq _ hacc heq =>
    have hlast : SameButRegs k₁ k' := by
      rw [heq]
      exact sameButRegs_setAx 1
    have hthr : ∀ u ≠ k.currentThread, k₁.currentThread = k.currentThread → k'.thr u = k₁.thr u := by
      intro u hu hct
      obtain ⟨-, -, hsame⟩ := hlast.thr u
      exact hsame (hct ▸ hu)
    have hcur := h.ne_currentThread hp hne (h.runner_mem hp)
    cases hacc with
    | @handed t fresh ht hf hH =>
      rw [save_flag] at hf
      -- only the receiver wakes up
      by_cases hqp : p = q
      · subst hqp
        have htc := h.ne_currentThread hp hne ht
        exact Or.inr (hH.wakes h hp ht hf (pageBase_dvd _) (by rw [hlast.proc])
          (hthr t htc hH.currentThread) fun a b => hlast.sameMaps.pte p a b)
      · have hU : Untouched (k.save regs) k₁ p := hH.untouched h.save hp hne hq ht hqp
        have hU' := Untouched.setAx (v := 1) (k := k.save regs) h.save hp hne hU hH.currentThread
        rw [heq]
        exact Or.inl (hsave.trans (hU'.rests h.save hp) rfl)
    | queued _ _ hQ =>
      -- the message is queued, and no thread of `p` notices
      have hsame : k'.thr ((k.save regs).runner p) = (k.save regs).thr ((k.save regs).runner p) :=
        (hthr _ hcur hQ.currentThread).trans (congrFun hQ.thr _)
      refine Or.inl (hsave.trans ⟨?_, by rw [hsame], fun _ => by rw [hsame], fun a ha b => ?_⟩ rfl)
      · show (k'.proc p).current = _
        rw [hlast.proc, hQ.proc, enqueue, modProc_proc]
        split
        · next hpq =>
          rw [hpq]
          rfl
        · rfl
      · rw [hlast.sameMaps.pte]
        exact hQ.pte p hp hne a ha b

/-- Interrupts, at any process. -/
theorem Interrupted.rests_or_wakes (hI : Interrupted (k.save regs) q k') (h : k.Inv phy pool)
    (hp : p ∈ k.processTable) (hq : q ∈ k.processTable) : Rests k p k' ∨ Wakes k p k' := by
  have hsave : Rests k p (k.save regs) := (sameButRegs_save regs).rests h hp
  -- only a message that is handed to a thread wakes a runner
  cases hI with
  | full _ _ heq =>
    rw [heq]
    exact Or.inl hsave
  | queued _ _ _ _ hQ hmaps =>
    refine Or.inl (hsave.trans ⟨?_, ?_, fun _ => ?_, fun a _ b => hmaps p a b⟩ rfl)
    · show (k'.proc p).current = _
      rw [hQ.proc, enqueue, modProc_proc]
      split
      · next hpq =>
        rw [hpq]
        rfl
      · rfl
    · rw [hQ.thr]
    · rw [hQ.thr]
  | @handed t f h' ht hf hok hphys hH hrunning =>
    rw [save_flag] at hf
    have hal := Owned.Allocated.physical (h.owned.alloc.elim hok) h.owned
    by_cases hqp : p = q
    · subst hqp
      exact Or.inr (hH.wakes h hp ht hf hal.1 rfl rfl fun _ _ => rfl)
    · have hru : (k.save regs).runner p ≠ t := fun hrt =>
        hqp (h.thread_unique hp hq (hrt ▸ h.runner_mem hp) ht)
      refine Or.inl (hsave.trans ⟨?_, ?_, fun _ => ?_, fun a ha b => ?_⟩ rfl)
      · show (k'.proc p).current = _
        rw [hH.proc_of_ne hqp]
        rfl
      · rw [hH.thr_of_ne hru]
      · rw [hH.thr_of_ne hru]
      · by_cases hpc : p = k.currentProc
        · rw [hpc]
          exact hrunning a ha b
        · exact hH.pte p hp hpc hqp a ha b

/-- The scheduler leaves every runner alone. -/
theorem Scheduled.rests (hS : Scheduled k flag k') (h : k.Inv phy pool) (hp : p ∈ k.processTable) :
    Rests k p k' := by
  refine ⟨?_, by rw [hS.thr], fun _ => by rw [hS.thr], fun a ha b => hS.pte_user h.layout hp ha b⟩
  show (k'.proc p).current = _
  rw [hS.proc]
  rfl

/-- **An entry that is no call of `p`** leaves the runner of `p` alone or wakes it. -/
theorem EntersIpc.rests_or_wakes (hs : k.EntersIpc ev k') (h : k.Inv phy pool)
    (hp : p ∈ k.processTable) (hev : Foreign p k ev) : Rests k p k' ∨ Wakes k p k' := by
  have hsave : ∀ regs, Rests k p (k.save regs) := fun regs => (sameButRegs_save regs).rests h hp
  -- only `SEND` and an interrupt can wake a runner
  cases hs.ipcStep h with
  | send _ hS => exact hS.rests_or_wakes h hp hev
  | @receive regs _ _ hR =>
    have hU := hR.untouched h.save hp hev
    exact Or.inl ((hsave regs).trans (hU.rests h.save hp) rfl)
  | @nice regs k₁ _ hS =>
    have hne : p ≠ k.currentProc := hev
    have h₁ : Rests (k.save regs) p k₁ := hS.rests h.save hp
    refine Or.inl ((hsave regs).trans ⟨?_, h₁.flag, h₁.cx, fun a ha b => ?_⟩ rfl)
    · rw [← h₁.runner]
      show (Kernel.proc (modProc _ _ _) p).current = _
      rw [modProc_proc_of_ne (show p ≠ (k.save regs).currentProc from hne)]
      rfl
    · -- `NICE` sets a flag of the running process, no entry
      have hM : SameMaps k₁ (k₁.modProc (k.save regs).currentProc fun P => { P with flag := 0 }) :=
        sameMaps_modProc (fun _ => rfl) (fun _ => rfl) (fun _ => rfl) (fun _ => rfl) fun _ => rfl
      exact (hM.pte p a b).trans (h₁.pte a ha b)
  | interrupt hq hI => exact hI.rests_or_wakes h hp hq
  | @tick regs k₁ k' hT hS =>
    have h₁ : Rests (k.save regs) p k₁ := by
      refine ⟨?_, by rw [hT.thr], fun _ => by rw [hT.thr], fun a _ b => hT.sameMaps.pte p a b⟩
      show (k₁.proc p).current = _
      rw [hT.proc]
      rfl
    have h₂ : Rests k₁ p k' := hS.rests (hT.inv h.save) (hT.processTable ▸ hp)
    exact Or.inl (((hsave regs).trans h₁ rfl).trans h₂ hT.currentProc)

/-- No `RECEIVE` of `p` starts in such an entry. -/
theorem Foreign.not_receives (hev : Foreign p k ev) (h : k.Inv phy pool) (hp : p ∈ k.processTable) :
    ¬ k.Receives ev (k.runner p) := by
  cases ev with
  | systemCall regs => exact not_receives_of_ne (h.ne_currentThread hp hev (h.runner_mem hp))
  | _ => exact id

/-! ## The calls of the runner

What the runner itself can do at its address: receive there, and put the page it has there into
its own queue again. -/

/-- `RECEIVE` at `addr`: the runner waits, or has a page there. -/
structure Reads (k : Kernel) (p addr : Nat) (k' : Kernel) : Prop where
  runner : k'.runner p = k.runner p
  cx : (k'.thr (k.runner p)).regs.cx = addr
  mapped : ¬ k'.Waits p → ∃ x, PAGE_SIZE ∣ x ∧ k'.entryAt p addr = x ||| 0b11111

/-- A `RECEIVE` at a valid address has returned with a page there, or waits. -/
theorem Received.reads (hR : Received (k.save regs) regs.cx k') (h : k.Inv phy pool)
    (hv : k.Receivable regs.cx) : Reads k k.currentProc regs.cx k' := by
  have hrunner : k.runner k.currentProc = k.currentThread := h.threads.currentThread.symm
  cases hR with
  | @took k₁ k₂ _ hU _ hT heq =>
    refine ⟨?_, ?_, fun _ => ?_⟩
    · show (k'.proc k.currentProc).current = _
      rw [heq]
      show (k₂.proc k.currentProc).current = _
      rw [hT.proc, hU.currentProc, dequeue]
      show (Kernel.proc (modProc _ k.currentProc _) _).current = _
      rw [modProc_proc_self, hU.proc]
      rfl
    · rw [hrunner, heq, setAx_cx, hT.thr, hU.thr]
      exact save_cx
    · have hm := hT.mapped
      rw [hU.currentProc] at hm
      refine ⟨_, pageBase_dvd _, Eq.trans ?_ hm⟩
      rw [heq]
      rfl
  | @waits k₁ _ hU hempty hW =>
    -- the queue is empty, and the call sleeps
    have hself := hW.self
    have hct : k₁.currentThread = k.currentThread := hU.currentThread
    rw [hU.currentProc] at hself
    have hrun : k'.runner k.currentProc = k.runner k.currentProc := by
      show (k'.proc k.currentProc).current = _
      rw [show k'.proc k.currentProc = _ from hself, hU.proc]
      rfl
    have hthr := hW.thr_self
    rw [hct] at hthr
    refine ⟨hrun, ?_, fun hnot => absurd ?_ hnot⟩
    · rw [hrunner, hthr]
      show (k₁.thr k.currentThread).regs.cx = regs.cx
      rw [hU.thr]
      exact save_cx
    · show (k'.thr (k'.runner k.currentProc)).flag = 2
      rw [hrun, hrunner, hthr]
  | refused hv' _ => exact absurd (receivable_save.mpr hv) hv'

/-- Whatever it finds, `RECEIVE` takes no letter but the oldest, and waits only without one. -/
theorem EntersIpc.receive (hs : k.EntersIpc (.systemCall regs) k') (h : k.Inv phy pool)
    (hax : regs.ax = 1) (hv : k.Receivable regs.cx) : Reads k k.currentProc regs.cx k' ∧
      k.mail k.currentProc = (if k'.Waits k.currentProc then [] else
        [k'.letterOf k.currentProc (k.runner k.currentProc)]) ++ k'.mail k.currentProc := by
  have hrun := h.threads.running
  have hR := (received_of_step h hax hs.2.2).reads h hv
  refine ⟨hR, ?_⟩
  have hlaw := hs.mailbox h hrun
  have harrived : arrived k.currentProc k (.systemCall regs) k' = [] := by
    unfold arrived
    rw [accepted_receive (by rw [hax]; decide)]
    rfl
  have hreturns : k.returns (.systemCall regs) k' (k.runner k.currentProc) = true ↔
      ¬ k'.Waits k.currentProc := by
    rw [returns_eq_true, Waits, hR.runner]
    exact ⟨fun hr => hr.1, fun hf => ⟨hf, Or.inr ⟨hax, h.threads.currentThread.symm, hv⟩⟩⟩
  rw [harrived, List.append_nil] at hlaw
  rw [hlaw]
  congr 1
  -- it waits with an empty queue, or it has the first letter
  by_cases hw : k'.Waits k.currentProc
  · rw [if_pos hw, if_neg fun hr => hreturns.mp hr hw]
  · rw [if_neg hw, if_pos (hreturns.mpr hw)]

/-- The runner puts a page into its own queue. -/
structure Posts (k : Kernel) (p addr : Nat) (k' : Kernel) : Prop where
  runner : k'.runner p = k.runner p
  flag : (k'.thr (k.runner p)).flag = 0
  holds : k'.Holds p addr

/-- An entry as `RECEIVE` writes it is a page of the process's own. -/
theorem Holds.of_entry {addr : Nat} (hu : addr < PAGE_OFFSET) (ha : addr % PAGE_SIZE = 0)
    (hx : PAGE_SIZE ∣ x) (he : k.entryAt p addr = x ||| 0b11111) : k.Holds p addr := by
  refine ⟨hu, ha, ?_, ?_⟩
  · rw [he]
    exact ne_zero_of_testBit (testBit_or hx)
  · rw [he]
    exact isPhy_or hx

/-- A page the running process holds can be sent. -/
theorem Holds.sends (hh : k.Holds k.currentProc ecx) (h : k.Inv phy pool)
    (hfound : k.getProcessById edx = some p) (hroom : k.HasRoom p) : k.Sends edx ecx p := by
  have hrun := h.threads.running
  have hi := va2pde_user hh.user
  have hpde : k.pde k.currentProc (va2pde ecx) ≠ 0 := fun h0 => hh.mapped (pte_of_no_pde h0)
  exact ⟨hh.user, hh.aligned, h.layout.pdeOdd hrun hi hpde,
    h.layout.pteOdd hrun hi (va2pte_lt ecx) hh.mapped, hh.normal, hfound, hroom⟩

/-- **`SEND` to itself**, when there is room: the page joins the queue. -/
theorem EntersIpc.repost (hs : k.EntersIpc (.systemCall regs) k') (h : k.Inv phy pool)
    (hax : regs.ax = 0) (hfound : k.getProcessById regs.dx = some k.currentProc)
    (hroom : k.HasRoom k.currentProc) (hh : k.Holds k.currentProc regs.cx) :
    Posts k k.currentProc regs.cx k' ∧ k'.mail k.currentProc = k.mail k.currentProc ++
      [(k.sendSource regs.bx, frameAt (k.entryAt k.currentProc regs.cx))] := by
  have hrun := h.threads.running
  have hcur := h.current_mem
  have hrunner : k.runner k.currentProc = k.currentThread := h.threads.currentThread.symm
  cases sent_of_step h hax hs.2.2 with
  | refused hidle _ _ => exact absurd (sends_save.mpr (hh.sends h hfound hroom)) (hidle _)
  | @accepted q k₁ hsends hq hsendable hacc heq =>
    have hqp : k.currentProc = q := Option.some.inj (hfound.symm.trans hsends.found)
    subst hqp
    cases hacc with
    | handed ht hf _ =>
      -- no thread of the running process waits
      rw [save_flag, h.flag_eq_zero ht] at hf
      exact absurd hf (by decide)
    | @queued fresh _ _ hQ hfree hrep hphys =>
      have hlast : SameButRegs k₁ k' := by
        rw [heq]
        exact sameButRegs_setAx 1
      have hct : k₁.currentThread = k.currentThread := hQ.currentThread
      have hal : PAGE_SIZE ∣ va2pa fresh := (va2pa_managed (hphys ▸ frameAt_dvd _)
        (h.owned.inside (h.owned.accounts.free_subset (hfree (self_mem_page fresh))))).1
      have hflag : (k'.thr k.currentThread).flag = 0 := by
        rw [hlast.thr_flag, hQ.thr, save_flag]
        exact h.flag_eq_zero hcur
      have hrunner' : k'.runner k.currentProc = k.runner k.currentProc := by
        show (k'.proc k.currentProc).current = _
        rw [hlast.proc, hQ.proc]
        show (Kernel.proc (modProc _ _ _) _).current = _
        rw [modProc_proc_self]
        rfl
      have hentry : k'.entryAt k.currentProc regs.cx = va2pa fresh ||| 0b11111 :=
        (hlast.sameMaps.pte _ _ _).trans hrep
      refine ⟨⟨hrunner', by rw [hrunner]; exact hflag,
        .of_entry hh.user hh.aligned hal hentry⟩, ?_⟩
      have hstatus : (k'.thr k.currentThread).regs.ax = 1 := by
        rw [heq, hct]
        exact setAx_ax 1
      have hlaw := hs.mailbox h hrun
      have hreturns : ¬ k.returns (.systemCall regs) k' (k.runner k.currentProc) = true := by
        rw [returns_eq_true, hrunner]
        rintro ⟨-, hf | hr⟩
        · rw [h.flag_eq_zero hcur] at hf
          exact absurd hf (by decide)
        · exact not_receives_send hax _ hr
      rw [if_neg hreturns, arrived, accepted_send hax hfound hstatus, if_pos rfl] at hlaw
      exact hlaw.symm

/-! ## What arrives

The letters of an entry, for the three kinds of entries that can bring one. -/

/-- A quiet entry brings none. -/
theorem Quiet.arrived (hev : Quiet p k ev) : Kernel.arrived p k ev k' = [] := by
  have hnone : accepted p k ev k' = [] := by
    cases ev with
    | systemCall regs => exact if_neg fun hc => hev.2 hc.1 hc.2.1
    | interrupt regs q => exact if_neg fun hc => hev hc.1
    | _ => rfl
  unfold Kernel.arrived
  rw [hnone]
  rfl

/-- A `SEND` brings at most one, and to the process it names. -/
theorem arrived_send : arrived p k (.systemCall regs) k' = [] ∨
    (k.getProcessById regs.dx = some p ∧
      ∃ f, arrived p k (.systemCall regs) k' = [(k.sendSource regs.bx, f)]) := by
  unfold arrived accepted
  dsimp only
  split
  · next hc => exact Or.inr ⟨hc.2.1, _, rfl⟩
  · exact Or.inl rfl

/-- `sendInterrupt` posts one message, if there is room for it. -/
theorem EntersIpc.arrived_interrupt (hs : k.EntersIpc (.interrupt regs p) k')
    (h : k.Inv phy pool) : (arrived p k (.interrupt regs p) k').map Prod.fst =
      if k.HasRoom p then [0xFFFFFFFF] else [] := by
  have hp : p ∈ k.processTable := hs.2.1
  have hstep : (k.save regs).sendInterrupt p = .ok k' := hs.2.2
  have hone : k.HasRoom p → (∃ f g, k.heap.memoryAlloc 12 = .ok (f, g)) →
      (arrived p k (.interrupt regs p) k').map Prod.fst = if k.HasRoom p then [0xFFFFFFFF] else [] := by
    rintro hroom ⟨f, g, hok⟩
    have hfull : ¬ ((k.proc p).receiving = 0 ∧ MAX_MESSAGE_COUNT ≤ (k.proc p).msgCount) :=
      fun hc => hroom.elim (fun hr => hr hc.1) fun hm => Nat.not_lt.mpr hc.2 hm
    rw [arrived, Kernel.accepted_interrupt hfull hok, if_pos rfl, if_pos hroom]
    rfl
  cases ((sendInterrupt_spec h.save hp).elim hstep).2 with
  | handed ht hf hok _ _ _ =>
    rw [save_flag] at hf
    have hpos : (k.proc p).receiving ≠ 0 := by
      rw [(h.procOk hp).receiving]
      exact Nat.pos_iff_ne_zero.mp (countFlag_pos_iff.mpr ⟨_, ht, hf⟩)
    exact hone (Or.inl hpos) ⟨_, _, hok⟩
  | queued _ hroom hok _ _ _ => exact hone (Or.inr hroom) ⟨_, _, hok⟩
  -- without room the message is lost
  | full hidle hfull _ =>
    have hnone : accepted p k (.interrupt regs p) k' = [] :=
      if_neg fun hc => hc.2 ⟨hidle, Nat.not_lt.mp hfull⟩
    rw [arrived, hnone, if_neg fun hroom : k.HasRoom p => hroom.elim (fun hr => hr hidle) hfull]
    rfl

/-! ## A runner that reads its mailbox in a loop

`Loop` is where the runner is, and `content` what it still has to read together with what it has
just read. An entry of others appends to `content`, and a step of the runner takes the first
letter off or puts it at the end. -/

/-- Where the runner is in a loop around `RECEIVE`: in front of the call, blocked in it, or behind
it with the source it has returned. -/
inductive Loop where
  | start
  | receiving
  | got (ret : Nat)
deriving DecidableEq

variable {addr ret : Nat} {l : Loop}

/-- A `RECEIVE` returns when the runner no longer waits. -/
def resumed (k : Kernel) (p : Nat) : Loop → Loop
  | .receiving => if k.Waits p then .receiving else .got (k.thr (k.runner p)).regs.ax
  | l => l

/-- The letters of `p`: the one it has read and has at `addr`, and those in its queue. -/
def content (k : Kernel) (p addr : Nat) : Loop → List (Nat × Nat)
  | .got ret => (ret, frameAt (k.entryAt p addr)) :: k.mail p
  | _ => k.mail p

/-- The state of the runner, and of the page at `addr`. -/
def AtLoop (k : Kernel) (p addr : Nat) : Loop → Prop
  | .start => ¬ k.Waits p ∧ isPhy (k.entryAt p addr) = false
  | .receiving => k.Waits p ∧ (k.thr (k.runner p)).regs.cx = addr
  | .got _ => ¬ k.Waits p ∧ k.Holds p addr

/-- A process other than Init whose runner reads its mailbox at `addr`. -/
structure Reader (p addr : Nat) (s : Kernel × Loop) : Prop where
  inv : ∃ pool, s.1.Inv True pool
  ascending : s.1.Ascending
  mortal : s.1.Mortal p
  user : addr < PAGE_OFFSET
  aligned : addr % PAGE_SIZE = 0
  phase : AtLoop s.1 p addr s.2

/-- The invariants hold after every entry, with a pool that may have shrunk. -/
theorem EntersIpc.inv (hs : k.EntersIpc ev k') (h : k.Inv True pool) :
    ∃ pool', k'.Inv True pool' := by
  obtain ⟨hcare, hadm, hok⟩ := hs.careful
  obtain ⟨⟨pool', -, hinv'⟩, -⟩ := (step_spec h hadm hcare fun _ _ _ => trivial).elim hok
  exact ⟨pool', hinv'⟩

/-- An entry leads to the next phase of the reader. -/
theorem Reader.next {s : Kernel × Loop} (hr : Reader p addr s) (hs : s.1.EntersIpc ev k')
    (hat : AtLoop k' p addr l) : Reader p addr (k', l) := by
  obtain ⟨pool, h⟩ := hr.inv
  refine ⟨hs.inv h, (hs.sameIds h).ascending hr.ascending, ?_, hr.user, hr.aligned, hat⟩
  rw [Mortal, hs.processTable h]
  exact hr.mortal

/-- A new loop round, with the page of the last one still mapped. -/
theorem Reader.again (hr : Reader p addr (k, .got ret)) : Reader p addr (k, .start) :=
  ⟨hr.inv, hr.ascending, hr.mortal, hr.user, hr.aligned, hr.phase.1, hr.phase.2.normal⟩

/-- A runner that rests goes on waiting, or goes on not waiting. -/
theorem Rests.waits (hR : Rests k p k') : k'.Waits p ↔ k.Waits p := by
  unfold Waits
  rw [hR.runner, hR.flag]

/-- A runner that was woken does not wait. -/
theorem Wakes.not_waits (hW : Wakes k p k') : ¬ k'.Waits p := by
  unfold Waits
  rw [hW.runner, hW.flag]
  decide

section Foreign

variable (hs : k.EntersIpc ev k') (hev : Foreign p k ev) (h : k.Inv phy pool)
  (hp : p ∈ k.processTable)

include hs hev h hp

/-- What arrives is appended. -/
theorem Rests.mail (hR : Rests k p k') : k'.mail p = k.mail p ++ arrived p k ev k' := by
  have hreturns : ¬ k.returns ev k' (k.runner p) = true := by
    rw [returns_eq_true, hR.flag]
    rintro ⟨hf, hf' | hr⟩
    · exact hf hf'
    · exact hev.not_receives h hp hr
  have hlaw := hs.mailbox h hp
  rw [if_neg hreturns, List.nil_append] at hlaw
  exact hlaw.symm

omit hev in
/-- `RECEIVE` returns with the letter that arrives. -/
theorem Wakes.mail (hW : Wakes k p k') :
    k.mail p ++ arrived p k ev k' = k'.letterOf p (k.runner p) :: k'.mail p := by
  have hreturns : k.returns ev k' (k.runner p) = true := by
    rw [returns_eq_true, hW.flag]
    exact ⟨by decide, Or.inl hW.waited⟩
  have hlaw := hs.mailbox h hp
  rwa [if_pos hreturns] at hlaw

/-- **An entry of others** adds what arrives to the content. -/
theorem EntersIpc.content_foreign (hat : AtLoop k p addr l) (hu : addr < PAGE_OFFSET)
    (ha : addr % PAGE_SIZE = 0) : AtLoop k' p addr (resumed k' p l) ∧
      content k' p addr (resumed k' p l) = content k p addr l ++ arrived p k ev k' := by
  cases hs.rests_or_wakes h hp hev with
  | inl hR =>
    -- the runner rests, and what arrives is queued
    have hmail := hR.mail hs hev h hp
    have hentry : k'.entryAt p addr = k.entryAt p addr := hR.pte _ (va2pde_user hu) _
    cases l with
    | start => exact ⟨⟨fun hw => hat.1 (hR.waits.mp hw), hentry ▸ hat.2⟩, hmail⟩
    | receiving =>
      have hw : k'.Waits p := hR.waits.mpr hat.1
      have hloop : resumed k' p .receiving = .receiving := if_pos hw
      rw [hloop]
      refine ⟨⟨hw, ?_⟩, hmail⟩
      rw [hR.runner, hR.cx (h.away hp hat.1)]
      exact hat.2
    | got ret =>
      have hh := hat.2
      refine ⟨⟨fun hw => hat.1 (hR.waits.mp hw), hh.user, hh.aligned, hentry ▸ hh.mapped,
        hentry ▸ hh.normal⟩, ?_⟩
      show (ret, frameAt (k'.entryAt p addr)) :: k'.mail p = _
      rw [hentry, hmail]
      rfl
  | inr hW =>
    -- the runner wakes up with the message in its hand
    have hnot := hW.not_waits
    cases l with
    | start => exact absurd hW.waited hat.1
    | got ret => exact absurd hW.waited hat.1
    | receiving =>
      have hcx : (k.thr (k.runner p)).regs.cx = addr := hat.2
      obtain ⟨x, hx, hmapped⟩ := hW.mapped
      rw [hcx] at hmapped
      have hloop : resumed k' p .receiving = .got (k'.thr (k'.runner p)).regs.ax := if_neg hnot
      rw [hloop]
      refine ⟨⟨hnot, .of_entry hu ha hx hmapped⟩, ?_⟩
      refine Eq.trans ?_ (hW.mail hs h hp).symm
      unfold letterOf
      rw [hW.cx, hcx, hW.runner]
      rfl

end Foreign

/-- **`RECEIVE` in the loop** takes the oldest letter into the hand, or waits for one. -/
theorem EntersIpc.content_receive (hs : k.EntersIpc (.systemCall regs) k') (h : k.Inv phy pool)
    (hax : regs.ax = 1) (hcx : regs.cx = addr) (hat : AtLoop k k.currentProc addr .start)
    (hu : addr < PAGE_OFFSET) (ha : addr % PAGE_SIZE = 0) :
    AtLoop k' k.currentProc addr (resumed k' k.currentProc .receiving) ∧
      content k' k.currentProc addr (resumed k' k.currentProc .receiving) =
        content k k.currentProc addr .start := by
  obtain ⟨hread, hlaw⟩ := hs.receive h hax (hcx ▸ ⟨hu, ha, hat.2⟩ : k.Receivable regs.cx)
  show _ ∧ _ = k.mail k.currentProc
  by_cases hw : k'.Waits k.currentProc
  · have hloop : resumed k' k.currentProc .receiving = .receiving := if_pos hw
    rw [if_pos hw] at hlaw
    rw [hloop]
    refine ⟨⟨hw, ?_⟩, hlaw.symm⟩
    rw [hread.runner, hread.cx, hcx]
  · have hloop : resumed k' k.currentProc .receiving =
        .got (k'.thr (k'.runner k.currentProc)).regs.ax := if_neg hw
    obtain ⟨x, hx, hmapped⟩ := hread.mapped hw
    rw [hcx] at hmapped
    rw [if_neg hw] at hlaw
    rw [hloop]
    refine ⟨⟨hw, .of_entry hu ha hx hmapped⟩, ?_⟩
    -- the letter is in the hands of the runner now
    refine Eq.trans ?_ hlaw.symm
    unfold letterOf
    rw [hread.cx, hcx, hread.runner]
    rfl

/-- **`SEND` of the runner** leaves the page at `addr` where it is, and what it sends to its own
process joins the queue. -/
theorem EntersIpc.content_send (hs : k.EntersIpc (.systemCall regs) k') (h : k.Inv phy pool)
    (hax : regs.ax = 0) (hu : addr < PAGE_OFFSET)
    (hapart : ¬ (va2pde addr = va2pde regs.cx ∧ va2pte addr = va2pte regs.cx))
    (hat : AtLoop k k.currentProc addr .start) : AtLoop k' k.currentProc addr .start ∧
      k'.mail k.currentProc = k.mail k.currentProc ++
        arrived k.currentProc k (.systemCall regs) k' := by
  have hrun := h.threads.running
  have hcur := h.current_mem
  have hrunner : k.runner k.currentProc = k.currentThread := h.threads.currentThread.symm
  have hi := va2pde_user hu
  have hsame : k'.runner k.currentProc = k.runner k.currentProc ∧
      (k'.thr k.currentThread).flag = (k.thr k.currentThread).flag ∧
      k'.entryAt k.currentProc addr = k.entryAt k.currentProc addr := by
    cases sent_of_step h hax hs.2.2 with
    | @refused v _ _ heq =>
      have hS : Rests k k.currentProc (k.save regs) := (sameButRegs_save regs).rests h hrun
      have hR : Rests (k.save regs) k.currentProc k' := by
        rw [heq]
        exact (sameButRegs_setAx v).rests h.save hrun
      have hall := hS.trans hR rfl
      rw [← hrunner]
      exact ⟨hall.runner, hall.flag, hall.pte _ hi _⟩
    | @accepted q k₁ _ hq _ hacc heq =>
      have hlast : SameButRegs k₁ k' := by
        rw [heq]
        exact sameButRegs_setAx 1
      cases hacc with
      | @handed t fresh ht hf hH _ _ _ hkept =>
        rw [save_flag] at hf
        -- the receiver waits, so it is another process
        have haway := ((h.procOk hq).blocked t ht hf).away
        refine ⟨?_, ?_, (hlast.sameMaps.pte _ _ _).trans (hkept _ hi _ hapart)⟩
        · show (k'.proc k.currentProc).current = _
          rw [hlast.proc, hH.proc_of_ne haway.symm]
          rfl
        · rw [hlast.thr_flag, hH.thr_of_ne (h.ne_currentThread hq haway ht).symm, save_flag]
      | queued _ _ hQ _ _ _ hkept =>
        refine ⟨?_, ?_, (hlast.sameMaps.pte _ _ _).trans (hkept _ hi _ hapart)⟩
        · show (k'.proc k.currentProc).current = _
          rw [hlast.proc, hQ.proc, enqueue, modProc_proc]
          split
          · next hpq =>
            rw [hpq]
            rfl
          · rfl
        · rw [hlast.thr_flag, hQ.thr, save_flag]
  obtain ⟨hrunner', hflag, hentry⟩ := hsame
  have hz := h.flag_eq_zero hcur
  refine ⟨⟨?_, hentry ▸ hat.2⟩, ?_⟩
  · unfold Waits
    rw [hrunner', hrunner, hflag, hz]
    decide
  · have hlaw := hs.mailbox h hrun
    have hreturns : ¬ k.returns (.systemCall regs) k' (k.runner k.currentProc) = true := by
      rw [returns_eq_true, hrunner]
      rintro ⟨-, hf | hr⟩
      · rw [hz] at hf
        exact absurd hf (by decide)
      · exact not_receives_send hax _ hr
    rw [if_neg hreturns] at hlaw
    exact hlaw.symm

end Kernel

end NorlitOS
