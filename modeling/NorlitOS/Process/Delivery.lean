import NorlitOS.Process.Bookkeeping

/-!
# Messages arrive once and in order

A message is accepted for a process when it is queued or handed to a blocked thread, and obtained
when a `RECEIVE` of the process returns with it. What one kernel entry accepts, obtains and leaves
in the queue obeys one law, so a run of entries does: what has been accepted is what has been
obtained, in the same order, followed by what is still queued.
-/

namespace NorlitOS

open Dyadic

namespace Kernel

variable {k k' k₁ k₂ : Kernel} {phy : Prop} {pool : Set Nat} {p q t u ip kernelPDE source x msg : Nat}
  {edx ecx ebx : Nat} {regs : StackFrame} {es es' : List Event} {ev : Event}

/-! ## What is accepted and what is obtained

Both are read off the state before and the state after an entry, and not off the code in between:
a `SEND` is accepted if it returns 1, and a `RECEIVE` has returned if its thread no longer waits.
-/

/-- A message as the receiver sees it: the source it is told, and the frame of its page. -/
def letter (msg : Nat) : Nat × Nat := (msg / 2 ^ 32, frameAt (msg % 2 ^ 32))

/-- The queued messages of `p`, oldest first. -/
def mail (k : Kernel) (p : Nat) : List (Nat × Nat) := (k.queue p).map letter

/-- A message on its way, with the process that posted it: `none` is the hardware. -/
structure Posting where
  origin : Option Nat
  source : Nat
  frame : Nat

def Posting.letter (m : Posting) : Nat × Nat := (m.source, m.frame)

/-- What the entry accepts for `p`: a `SEND` that returns 1, or `sendInterrupt` unless it finds
the queue full. -/
def accepted (p : Nat) (k : Kernel) (ev : Event) (k' : Kernel) : List Posting :=
  match ev with
  | .systemCall regs =>
    if regs.ax = 0 ∧ k.getProcessById regs.dx = some p ∧ (k'.thr k.currentThread).regs.ax = 1 then
      [{ origin := some k.currentProc
         source := k.sendSource regs.bx
         frame := frameAt (k.pte k.currentProc (va2pde regs.cx) (va2pte regs.cx)) }]
    else []
  | .interrupt _ q =>
    if q = p ∧ ¬ ((k.proc p).receiving = 0 ∧ MAX_MESSAGE_COUNT ≤ (k.proc p).msgCount) then
      match k.heap.memoryAlloc 12 with
      | .ok (f, _) => [{ origin := none, source := 0xFFFFFFFF, frame := f }]
      | .error _ => []
    else []
  | _ => []

instance (k : Kernel) (ecx : Nat) : Decidable (k.Receivable ecx) :=
  decidable_of_iff (ecx < PAGE_OFFSET ∧ ecx % PAGE_SIZE = 0 ∧
    isPhy (k.pte k.currentProc (va2pde ecx) (va2pte ecx)) = false)
    ⟨fun ⟨h₁, h₂, h₃⟩ => ⟨h₁, h₂, h₃⟩, fun ⟨h₁, h₂, h₃⟩ => ⟨h₁, h₂, h₃⟩⟩

/-- The running thread calls `RECEIVE` at an address that can take a page. -/
def Receives (k : Kernel) : Event → Nat → Prop
  | .systemCall regs, t => regs.ax = 1 ∧ t = k.currentThread ∧ k.Receivable regs.cx
  | _, _ => False

instance (k : Kernel) (ev : Event) (t : Nat) : Decidable (k.Receives ev t) :=
  match ev with
  | .systemCall regs =>
    inferInstanceAs (Decidable (regs.ax = 1 ∧ t = k.currentThread ∧ k.Receivable regs.cx))
  | .createProcess _ _ _ | .disposeProcess _ | .interrupt _ _ | .tick _ | .pageFault _ _
  | .exception _ => inferInstanceAs (Decidable False)

/-- The thread returns from a `RECEIVE`: from this one, or from one it was blocked in. -/
def returns (k : Kernel) (ev : Event) (k' : Kernel) (t : Nat) : Bool :=
  (k'.thr t).flag ≠ 2 ∧ ((k.thr t).flag = 2 ∨ k.Receives ev t)

/-- What a thread of `p` finds when `RECEIVE` returns: the source in `ax` and a page at the
address in `cx`. -/
def letterOf (k : Kernel) (p t : Nat) : Nat × Nat :=
  ((k.thr t).regs.ax, frameAt (k.pte p (va2pde (k.thr t).regs.cx) (va2pte (k.thr t).regs.cx)))

/-- What `RECEIVE` calls of `p` return with in this entry. -/
def obtained (p : Nat) (k : Kernel) (ev : Event) (k' : Kernel) : List (Nat × Nat) :=
  ((k.proc p).thread.filter (k.returns ev k')).map (k'.letterOf p)

/-! ## Who returns

In one entry at most one thread returns from a `RECEIVE`: the one that calls it, or one that a
message was handed to. -/

theorem returns_eq_true : k.returns ev k' t = true ↔
    (k'.thr t).flag ≠ 2 ∧ ((k.thr t).flag = 2 ∨ k.Receives ev t) := decide_eq_true_iff

/-- If no thread returns nothing is obtained. -/
theorem obtained_nil (h : ∀ t ∈ (k.proc p).thread, (k'.thr t).flag ≠ 2 →
    (k.thr t).flag ≠ 2 ∧ ¬ k.Receives ev t) : obtained p k ev k' = [] := by
  unfold obtained
  rw [List.map_eq_nil_iff, List.filter_eq_nil_iff]
  intro t ht hr
  obtain ⟨hf, hor⟩ := returns_eq_true.mp hr
  exact hor.elim (h t ht hf).1 (h t ht hf).2

/-- No thread of `p` changes its flag, and none calls `RECEIVE`. -/
theorem obtained_of_flags (hf : ∀ t ∈ (k.proc p).thread, (k'.thr t).flag = (k.thr t).flag)
    (hev : ∀ t ∈ (k.proc p).thread, ¬ k.Receives ev t) : obtained p k ev k' = [] :=
  obtained_nil fun t ht h => ⟨hf t ht ▸ h, hev t ht⟩

/-- One thread of `p` returns. -/
theorem obtained_one (hnd : (k.proc p).thread.Nodup) (ht : t ∈ (k.proc p).thread)
    (hr : (k'.thr t).flag ≠ 2 ∧ ((k.thr t).flag = 2 ∨ k.Receives ev t))
    (honly : ∀ u ∈ (k.proc p).thread, u ≠ t → (k'.thr u).flag = (k.thr u).flag ∧
      ¬ k.Receives ev u) : obtained p k ev k' = [k'.letterOf p t] := by
  have hfilter : (k.proc p).thread.filter (k.returns ev k') =
      (k.proc p).thread.filter (fun u => decide (u = t)) := by
    refine List.filter_congr fun u hu => ?_
    rw [Bool.eq_iff_iff, returns_eq_true, decide_eq_true_iff]
    constructor
    · rintro ⟨hf, hor⟩
      by_contra hne
      obtain ⟨hsame, hno⟩ := honly u hu hne
      exact hor.elim (hsame ▸ hf) hno
    · rintro rfl
      exact hr
  unfold obtained
  rw [hfilter, List.filter_eq, List.count_eq_one_of_mem hnd ht]
  rfl

/-! ## Queues

What each of the four ways a message moves does to the list of queued messages. -/

/-- The queue is in the record of the process. -/
theorem mail_congr (h : k'.proc p = k.proc p) : k'.mail p = k.mail p := by
  have hq : k'.queue p = k.queue p := queue_congr (by rw [h]) (by rw [h]) (by rw [h])
  unfold mail
  rw [hq]

theorem mail_of_empty (h : (k.proc p).msgCount = 0) : k.mail p = [] := by
  unfold mail queue
  rw [h]
  rfl

/-- What is read from a slot is what was written there. -/
theorem letter_message (source x : Nat) : letter (message source x) = (source, frameAt x) := by
  unfold letter
  rw [message_div, message_mod, frameAt_mod]

/-- The flags of an entry do not change its frame. -/
theorem frameAt_or {x : Nat} (h : PAGE_SIZE ∣ x) : frameAt (x ||| 0b11111) = pa2va x := by
  rw [frameAt, pageBase_or h]

/-- A message has been appended to the queue of `p`. -/
theorem Queued.mail (hQ : Queued k p msg k') (hP : k.ProcOk p)
    (hc : (k.proc p).msgCount < MAX_MESSAGE_COUNT) (q : Nat) :
    k'.mail q = k.mail q ++ if q = p then [letter msg] else [] := by
  have hsame : k'.mail q = (k.enqueue p msg).mail q := mail_congr (by rw [hQ.proc])
  rw [hsame]
  unfold Kernel.mail
  split
  · next h => rw [h, queue_enqueue hP hc, List.map_append, List.map_singleton]
  · next h => rw [queue_enqueue_of_ne h, List.append_nil]

/-- Waking a thread leaves the queues. -/
theorem Handed.mail (hH : Handed k p t source x k') (q : Nat) : k'.mail q = k.mail q := by
  unfold Kernel.mail
  by_cases hq : q = p
  · rw [hq, queue_congr (k := k)] <;>
    · rw [hH.proc_self]
      rfl
  · exact mail_congr (hH.proc_of_ne hq)

/-- The oldest message has left the queue of the running process. -/
theorem Taken.mail (hT : Taken k ecx k') (hP : k.ProcOk k.currentProc)
    (hc : (k.proc k.currentProc).msgCount ≠ 0) (q : Nat) : k.mail q =
      (if q = k.currentProc then
        [letter ((k.proc k.currentProc).messages (k.proc k.currentProc).msgTail)] else []) ++
        k'.mail q := by
  have hsame : k'.mail q = (k.dequeue k.currentProc).mail q := mail_congr (by rw [hT.proc])
  rw [hsame]
  unfold Kernel.mail
  split
  · next h =>
    rw [h, queue_dequeue hP hc, List.map_cons]
    rfl
  · next h =>
    rw [queue_dequeue_of_ne h]
    rfl

/-- A thread that begins to wait leaves the queues alone. -/
theorem Waiting.mail (hW : Waiting k k') (q : Nat) : k'.mail q = k.mail q := by
  unfold Kernel.mail
  by_cases hq : q = k.currentProc
  · rw [hq, queue_congr (k := k)] <;> rw [hW.self]
  · rw [queue_congr (k := k)] <;> rw [hW.other q hq]

/-! ## The law of one entry

The law is about one process at a time. An entry that moves no message keeps it because nothing is
accepted and nothing returns; the entries that do move one are gone through below. -/

/-- What was queued and what is accepted is what is obtained and what is queued then. -/
def Conserves (k : Kernel) (ev : Event) (k' : Kernel) (p : Nat) : Prop :=
  k.mail p ++ (accepted p k ev k').map Posting.letter = obtained p k ev k' ++ k'.mail p

/-- Nothing is accepted, obtained or queued. -/
theorem conserves_of_same (hacc : accepted p k ev k' = [])
    (hf : ∀ t ∈ (k.proc p).thread, (k'.thr t).flag = (k.thr t).flag)
    (hev : ∀ t ∈ (k.proc p).thread, ¬ k.Receives ev t) (hmail : k'.mail p = k.mail p) :
    k.Conserves ev k' p := by
  unfold Conserves
  rw [hacc, obtained_of_flags hf hev, hmail]
  exact List.append_nil _

/-- Saving registers blocks no thread and wakes none. -/
theorem save_flag (t : Nat) : ((k.save regs).thr t).flag = (k.thr t).flag :=
  (sameButRegs_save regs).thr_flag t

theorem setAx_flag (v : Nat) : ((k.setAx t v).thr u).flag = (k.thr u).flag := by
  unfold setAx
  rw [modThr_thr]
  split
  · next h => rw [h]
  · rfl

/-- A result leaves the address of a `RECEIVE` alone. -/
theorem setAx_cx (v : Nat) : ((k.setAx t v).thr u).regs.cx = (k.thr u).regs.cx := by
  unfold setAx
  rw [modThr_thr]
  split
  · next h => rw [h]
  · rfl

theorem setAx_ax (v : Nat) : ((k.setAx t v).thr t).regs.ax = v := by
  unfold setAx
  rw [modThr_thr_self]

/-- What one thread obtains is not changed by the result of another. -/
theorem letterOf_setAx_of_ne (v : Nat) (h : u ≠ t) :
    (k.setAx t v).letterOf p u = k.letterOf p u := by
  unfold letterOf
  rw [setAx, modThr_thr_of_ne h]
  rfl

/-- The blocked thread of `p` returns with the page it has been handed, and no other thread does. -/
theorem Handed.conserves (hH : Handed (k.save regs) p t source x k') (h : k.Inv phy pool)
    (hp : p ∈ k.processTable) (ht : t ∈ (k.proc p).thread) (hf : (k.thr t).flag = 2)
    (hx : PAGE_SIZE ∣ x) (hev : ∀ u, ¬ k.Receives ev u)
    (hthr : ∀ u, (k₂.thr u).flag = (k'.thr u).flag) (hletter : k₂.letterOf p t = k'.letterOf p t)
    (hmail : ∀ q, k₂.mail q = k'.mail q)
    (hacc : ∀ q, (accepted q k ev k₂).map Posting.letter = if q = p then [(source, pa2va x)] else [])
    (hq : q ∈ k.processTable) : k.Conserves ev k₂ q := by
  have hB := (h.procOk hp).blocked t ht hf
  have hmail' : k₂.mail q = k.mail q := (hmail q).trans (hH.mail q)
  have hother : ∀ u, u ≠ t → (k₂.thr u).flag = (k.thr u).flag := by
    intro u hu
    rw [hthr, hH.thr_of_ne hu, save_flag]
  unfold Conserves
  rw [hacc, hmail']
  -- the thread that waited returns with the message, so nothing was queued for its process
  by_cases hqp : q = p
  · subst hqp
    rw [if_pos rfl, mail_of_empty hB.empty]
    have hself : (k₂.thr t).flag ≠ 2 := by
      rw [hthr, hH.thr_self]
      exact (by decide : 0 ≠ 2)
    rw [obtained_one (h.procOk hq).nodup ht ⟨hself, Or.inl hf⟩ fun u _ hu => ⟨hother u hu, hev u⟩,
      hletter]
    have hcx : (k'.thr t).regs.cx = ((k.save regs).thr t).regs.cx := by
      rw [hH.thr_self]
      rfl
    have hax : (k'.thr t).regs.ax = source := by
      rw [hH.thr_self]
      rfl
    unfold letterOf
    rw [hax, hcx, hH.mapped, frameAt_or hx]
    rfl
  · rw [if_neg hqp, obtained_of_flags (fun u hu => hother u ?_) fun u _ => hev u]
    · exact List.append_nil _
    · rintro rfl
      exact hqp (h.thread_unique hq hp hu ht)

/-- A message is appended; no thread returns. -/
theorem Queued.conserves (hQ : Queued (k.save regs) p msg k') (h : k.Inv phy pool)
    (hp : p ∈ k.processTable) (hc : (k.proc p).msgCount < MAX_MESSAGE_COUNT)
    (hev : ∀ u, ¬ k.Receives ev u) (hthr : ∀ u, (k₂.thr u).flag = (k'.thr u).flag)
    (hmail : ∀ q, k₂.mail q = k'.mail q)
    (hacc : ∀ q, (accepted q k ev k₂).map Posting.letter = if q = p then [letter msg] else []) :
    k.Conserves ev k₂ q := by
  have hP : (k.save regs).ProcOk p := (h.save (r := regs)).procOk hp
  have hm : k'.mail q = k.mail q ++ if q = p then [letter msg] else [] := hQ.mail hP hc q
  have hobt : obtained q k ev k₂ = [] := by
    refine obtained_of_flags (fun u _ => ?_) fun u _ => hev u
    rw [hthr, hQ.thr, save_flag]
  unfold Conserves
  rw [hacc, hobt, hmail, hm]
  rfl

/-! ## `SEND`

A `SEND` is accepted and then either handed over or queued, or it is refused and nothing moves. -/

theorem not_receives_send (h : regs.ax = 0) (u : Nat) : ¬ k.Receives (.systemCall regs) u := by
  rintro ⟨h1, -⟩
  rw [h] at h1
  exact absurd h1 (by decide)

/-- The message is accepted for the process that was found, and for no other. -/
theorem accepted_send (h : regs.ax = 0) (hfound : k.getProcessById regs.dx = some p)
    (hax : (k'.thr k.currentThread).regs.ax = 1) (q : Nat) :
    (accepted q k (.systemCall regs) k').map Posting.letter = if q = p then
      [(k.sendSource regs.bx,
        frameAt (k.pte k.currentProc (va2pde regs.cx) (va2pte regs.cx)))] else [] := by
  unfold accepted
  dsimp only
  by_cases hqp : q = p
  · rw [if_pos ⟨h, hqp ▸ hfound, hax⟩, if_pos hqp]
    rfl
  · have hne : ¬ (regs.ax = 0 ∧ k.getProcessById regs.dx = some q ∧
        (k'.thr k.currentThread).regs.ax = 1) := by
      rintro ⟨-, hq, -⟩
      exact hqp (Option.some.inj (hq.symm.trans hfound))
    rw [if_neg hne, if_neg hqp]
    rfl

/-- All three ways keep the law. -/
theorem Sent.conserves (hS : Sent (k.save regs) regs.dx regs.cx regs.bx k') (hax : regs.ax = 0)
    (h : k.Inv phy pool) (hq : q ∈ k.processTable) : k.Conserves (.systemCall regs) k' q := by
  have hev := not_receives_send (k := k) hax
  cases hS with
  | @accepted p k₁ hsends hp hs hacc heq =>
    have hcur : k₁.currentThread = k.currentThread := by
      cases hacc with
      | handed _ _ hH _ _ _ => exact hH.currentThread
      | queued _ _ hQ _ _ _ => exact hQ.currentThread
    have hstatus : (k'.thr k.currentThread).regs.ax = 1 := by
      rw [heq, hcur]
      exact setAx_ax 1
    have hthr : ∀ u, (k'.thr u).flag = (k₁.thr u).flag := fun u => heq ▸ setAx_flag 1
    have hmail : ∀ q, k'.mail q = k₁.mail q := fun q => heq ▸ mail_congr rfl
    have hposted := accepted_send hax hsends.found hstatus
    cases hacc with
    | @handed t fresh ht hf hH _ _ _ =>
      rw [save_flag] at hf
      -- the receiver is not the sender, whose `ax` is set last
      have hne : t ≠ k₁.currentThread := by
        rw [hcur]
        exact h.ne_currentThread hp ((h.procOk hp).blocked t ht hf).away ht
      exact hH.conserves h hp ht hf (pageBase_dvd _) hev hthr (heq ▸ letterOf_setAx_of_ne 1 hne)
        hmail hposted hq
    | queued _ hroom hQ _ _ _ =>
      refine hQ.conserves h hp hroom hev hthr hmail fun q => ?_
      refine (hposted q).trans ?_
      rw [letter_message]
  | @refused v _ hv heq =>
    have hstatus : (k'.thr k.currentThread).regs.ax = v := by
      rw [heq]
      exact setAx_ax v
    -- nothing was sent
    refine conserves_of_same ?_ (fun u _ => ?_) (fun u _ => hev u) (heq ▸ mail_congr rfl)
    · refine if_neg fun hc => ?_
      rw [hc.2.2] at hstatus
      omega
    · rw [heq, setAx_flag, save_flag]

/-! ## `sendInterrupt`

The same with a page of the kernel's own and no sender. -/

/-- The message is accepted for the driver's process unless its queue is full. -/
theorem accepted_interrupt {f : Nat} {h' : Heap}
    (hfull : ¬ ((k.proc p).receiving = 0 ∧ MAX_MESSAGE_COUNT ≤ (k.proc p).msgCount))
    (hok : k.heap.memoryAlloc 12 = .ok (f, h')) (q : Nat) :
    (accepted q k (.interrupt regs p) k').map Posting.letter =
      if q = p then [(0xFFFFFFFF, f)] else [] := by
  unfold accepted
  dsimp only
  by_cases hqp : q = p
  · rw [if_pos hqp, if_pos ⟨hqp.symm, hqp ▸ hfull⟩, hok]
    rfl
  · rw [if_neg hqp, if_neg fun hc => hqp hc.1.symm]
    rfl

/-- An interrupt keeps the law. -/
theorem Interrupted.conserves (hI : Interrupted (k.save regs) p k') (h : k.Inv phy pool)
    (hp : p ∈ k.processTable) (hq : q ∈ k.processTable) :
    k.Conserves (.interrupt regs p) k' q := by
  have hev : ∀ u, ¬ k.Receives (.interrupt regs p) u := fun _ h => h
  -- handed over, queued, or lost because the queue is full
  cases hI with
  | @handed t f h' ht hf hok hphys hH =>
    rw [save_flag] at hf
    have hpos : (k.proc p).receiving ≠ 0 := by
      rw [(h.procOk hp).receiving]
      exact Nat.pos_iff_ne_zero.mp (countFlag_pos_iff.mpr ⟨t, ht, hf⟩)
    have hal := (Owned.Allocated.physical ((h.owned.alloc.elim hok)) h.owned)
    refine hH.conserves h hp ht hf hal.1 hev (fun _ => rfl) rfl (fun _ => rfl) (fun q => ?_) hq
    rw [accepted_interrupt (fun hc => hpos hc.1) hok, hal.2]
  | @queued f h' hidle hroom hok hphys hQ =>
    refine hQ.conserves h hp hroom hev (fun _ => rfl) (fun _ => rfl) fun q => ?_
    rw [letter_message, hphys]
    exact accepted_interrupt (k := k) (fun hc => absurd hroom (Nat.not_lt.mpr hc.2)) hok q
  | full hidle hfull heq =>
    refine conserves_of_same ?_ (fun u _ => ?_) (fun u _ => hev u) (heq ▸ mail_congr rfl)
    · refine if_neg fun hc => hc.2 ⟨?_, ?_⟩
      · exact hc.1 ▸ hidle
      · exact hc.1 ▸ Nat.not_lt.mp hfull
    · rw [heq, save_flag]

/-! ## `RECEIVE`

The message that was queued first is returned. With an empty queue the thread waits, and what it
obtains is obtained later, in the entry that hands it over. -/

theorem accepted_receive (h : regs.ax ≠ 0) : accepted q k (.systemCall regs) k' = [] :=
  if_neg fun hc => h hc.1

/-- The address is judged by mappings, which saving registers does not change. -/
theorem receivable_save : (k.save regs).Receivable ecx ↔ k.Receivable ecx := by
  constructor
  · intro h
    have hphy := h.recyclable
    rw [save_pte] at hphy
    exact ⟨h.user, h.aligned, hphy⟩
  · intro h
    exact ⟨h.user, h.aligned, by rw [save_pte]; exact h.recyclable⟩

/-- Only the running thread calls `RECEIVE`. -/
theorem not_receives_of_ne (h : u ≠ k.currentThread) : ¬ k.Receives (.systemCall regs) u :=
  fun hr => h hr.2.1

/-- The thread that took a message finds that message. -/
theorem Taken.letterOf (hT : Taken k ecx k') (hcx : (k'.thr t).regs.cx = ecx)
    (hmsg : (k.proc k.currentProc).messages (k.proc k.currentProc).msgTail = msg) :
    (k'.setAx t (msg / 2 ^ 32)).letterOf k.currentProc t = letter msg := by
  have hmap : (k'.setAx t (msg / 2 ^ 32)).pte k.currentProc (va2pde ecx) (va2pte ecx) =
      pageBase (msg % 2 ^ 32) ||| 0b11111 := hmsg ▸ hT.mapped
  unfold Kernel.letterOf
  rw [setAx_ax, setAx_cx, hcx, hmap, frameAt_or (pageBase_dvd _)]
  rfl

/-- All three ways keep the law. -/
theorem Received.conserves (hR : Received (k.save regs) regs.cx k') (hax : regs.ax = 1)
    (h : k.Inv phy pool) (hq : q ∈ k.processTable) : k.Conserves (.systemCall regs) k' q := by
  have hrun := h.threads.running
  have hacc : accepted q k (.systemCall regs) k' = [] := accepted_receive (by rw [hax]; decide)
  have hcur := h.current_mem
  cases hR with
  | @took k₁ k₂ hv hU hc hT heq =>
    set msg := (k.proc k.currentProc).messages (k.proc k.currentProc).msgTail with hmsg
    have hproc : k₁.proc = k.proc := hU.proc
    have hP₁ : k₁.ProcOk k₁.currentProc := by
      rw [hU.currentProc]
      exact ((h.save (r := regs)).procOk hrun).congr_running
        (SameProc.of_eq (by rw [hU.proc]) fun u _ => by rw [hU.thr]) fun u _ =>
          Inv.not_blocked (k := k.save regs) u
    have hc₁ : (k₁.proc k₁.currentProc).msgCount ≠ 0 := by
      rw [hproc, hU.currentProc]
      exact hc
    have hmail : k.mail q = (if q = k.currentProc then [letter msg] else []) ++ k'.mail q := by
      have h₁ := hT.mail hP₁ hc₁ q
      rw [mail_congr (p := q) (k := k) (by rw [hproc]), hproc, hU.currentProc] at h₁
      rw [h₁, heq]
      rfl
    have hflag : ∀ u, (k'.thr u).flag = (k.thr u).flag := by
      intro u
      rw [heq, setAx_flag, hT.thr, hU.thr, save_flag]
    unfold Conserves
    rw [hacc, hmail]
    by_cases hqc : q = k.currentProc
    · subst hqc
      have hf : (k'.thr k.currentThread).flag ≠ 2 := by
        rw [hflag, h.flag_eq_zero hcur]
        decide
      have hct : k₂.currentThread = k.currentThread := hT.currentThread.trans hU.currentThread
      rw [if_pos rfl, obtained_one (h.procOk hq).nodup hcur
        ⟨hf, Or.inr (show k.Receives (.systemCall regs) k.currentThread from
          ⟨hax, rfl, receivable_save.mp hv⟩)⟩
        fun u _ hu => ⟨hflag u, not_receives_of_ne hu⟩]
      have hcx : (k₂.thr k.currentThread).regs.cx = regs.cx := by
        rw [hT.thr, hU.thr]
        exact save_cx
      have hfound : k'.letterOf k.currentProc k.currentThread = letter msg := by
        have hoff : (k₁.proc k₁.currentProc).messages (k₁.proc k₁.currentProc).msgTail = msg := by
          rw [hproc, hU.currentProc]
          rfl
        have hletter := hT.letterOf hcx hoff
        rw [hU.currentProc] at hletter
        rw [heq, hct]
        exact hletter
      rw [hfound, List.map_nil, List.append_nil]
    · rw [if_neg hqc, obtained_of_flags (fun u _ => hflag u) fun u hu => not_receives_of_ne
        (h.ne_currentThread hq hqc hu)]
      exact List.append_nil _
  | @waits k₁ hv hU hempty hW =>
    have hct : k₁.currentThread = k.currentThread := hU.currentThread
    have hobt : obtained q k (.systemCall regs) k' = [] := by
      refine obtained_nil fun u _ hf => ?_
      -- the thread that waits now has flag 2
      have hne : u ≠ k.currentThread := by
        rintro rfl
        rw [← hct, hW.thr_self] at hf
        exact hf rfl
      rw [hW.thr_of_ne (hct ▸ hne), hU.thr, save_flag] at hf
      exact ⟨hf, not_receives_of_ne hne⟩
    have hmail : k'.mail q = k.mail q := (hW.mail q).trans (mail_congr (by rw [hU.proc]; rfl))
    unfold Conserves
    rw [hacc, hobt, hmail]
    exact List.append_nil _
  | refused hv heq =>
    refine conserves_of_same hacc (fun u _ => ?_) (fun u _ hr => hv ?_) (heq ▸ mail_congr rfl)
    · rw [heq, setAx_flag, save_flag]
    · exact receivable_save.mpr hr.2.2

/-! ## Runs

The law of one entry adds up: over a run, what was queued and accepted is what was obtained and is
queued. This is the equation from which order and uniqueness follow. -/

/-- `SEND`, `RECEIVE`, interrupts and what makes processes take turns. -/
def Ipc : Event → Prop
  | .systemCall regs => regs.ax = 0 ∨ regs.ax = 1 ∨ regs.ax = 6
  | .interrupt _ _ | .tick _ => True
  | .createProcess _ _ _ | .disposeProcess _ | .pageFault _ _ | .exception _ => False

instance (ev : Event) : Decidable (Ipc ev) :=
  match ev with
  | .systemCall regs => inferInstanceAs (Decidable (regs.ax = 0 ∨ regs.ax = 1 ∨ regs.ax = 6))
  | .interrupt _ _ | .tick _ => inferInstanceAs (Decidable True)
  | .createProcess _ _ _ | .disposeProcess _ | .pageFault _ _ | .exception _ =>
    inferInstanceAs (Decidable False)

def EntersIpc (k : Kernel) (ev : Event) (k' : Kernel) : Prop := Ipc ev ∧ k.Enters ev k'

/-- Entries of this kind dispose of no thread, so there is nothing to be careful about. -/
theorem EntersIpc.careful (h : k.EntersIpc ev k') : k.EntersCarefully ev k' := by
  refine ⟨careful_of_plain ?_, h.2⟩
  have hipc := h.1
  cases ev with
  | systemCall regs =>
    have hax : regs.ax = 0 ∨ regs.ax = 1 ∨ regs.ax = 6 := hipc
    show regs.ax ≤ 2 ∨ regs.ax = 4 ∨ (regs.ax = 5 ∧ regs.bx ≤ 1) ∨ regs.ax = 6
    omega
  | interrupt regs p => trivial
  | tick regs => trivial
  | createProcess ip privilege priority => exact hipc.elim
  | disposeProcess p => exact hipc.elim
  | pageFault regs cr2 => exact hipc.elim
  | exception regs => exact hipc.elim

/-- What such an entry does. -/
inductive IpcStep (k : Kernel) : Event → Kernel → Prop where
  | send {regs : StackFrame} {k' : Kernel} (ax : regs.ax = 0)
      (sent : Sent (k.save regs) regs.dx regs.cx regs.bx k') : IpcStep k (.systemCall regs) k'
  | receive {regs : StackFrame} {k' : Kernel} (ax : regs.ax = 1)
      (received : Received (k.save regs) regs.cx k') : IpcStep k (.systemCall regs) k'
  | nice {regs : StackFrame} {k₁ : Kernel} (ax : regs.ax = 6)
      (scheduled : Scheduled (k.save regs) 2 k₁) : IpcStep k (.systemCall regs)
        (k₁.modProc (k.save regs).currentProc fun P => { P with flag := 0 })
  | interrupt {regs : StackFrame} {p : Nat} {k' : Kernel} (mem : p ∈ k.processTable)
      (interrupted : Interrupted (k.save regs) p k') : IpcStep k (.interrupt regs p) k'
  | tick {regs : StackFrame} {k₁ k' : Kernel} (ticked : SameButTicks (k.save regs) k₁)
      (scheduled : Scheduled k₁ 0 k') : IpcStep k (.tick regs) k'

/-- Every such entry is one of the five. -/
theorem EntersIpc.ipcStep (hs : k.EntersIpc ev k') (h : k.Inv phy pool) : IpcStep k ev k' := by
  obtain ⟨hipc, henter⟩ := hs
  cases ev with
  | systemCall regs =>
    rcases hipc with hax | hax | hax
    · exact .send hax (sent_of_step h hax henter.2)
    · exact .receive hax (received_of_step h hax henter.2)
    · have hok : (k.save regs).systemCall regs.ax regs.dx regs.cx regs.bx = .ok k' := henter.2
      rw [hax] at hok
      obtain ⟨-, k₁, hS, rfl⟩ := (sysNice_spec h.save).elim hok
      exact .nice hax hS
  | interrupt regs p => exact .interrupt henter.1 ((sendInterrupt_spec h.save henter.1).elim henter.2).2
  | tick regs =>
    obtain ⟨-, k₁, hT, hS⟩ := (timerTick_spec h.save).elim henter.2
    exact .tick hT hS
  | createProcess ip privilege priority => exact hipc.elim
  | disposeProcess p => exact hipc.elim
  | pageFault regs cr2 => exact hipc.elim
  | exception regs => exact hipc.elim

/-- The scheduler moves no message. -/
theorem Scheduled.conserves {flag : Nat} (hS : Scheduled k₁ flag k₂)
    (hproc : ∀ q, (k₁.proc q).msgTail = (k.proc q).msgTail ∧
      (k₁.proc q).msgCount = (k.proc q).msgCount ∧ (k₁.proc q).messages = (k.proc q).messages)
    (hthr : ∀ u, (k₁.thr u).flag = (k.thr u).flag) (hacc : accepted q k ev k' = [])
    (hev : ∀ u, ¬ k.Receives ev u) (hthr' : k'.thr = k₂.thr) (hmail : k'.mail q = k₂.mail q) :
    k.Conserves ev k' q := by
  refine conserves_of_same hacc (fun u _ => ?_) (fun u _ => hev u) ?_
  · rw [hthr', hS.thr, hthr]
  · have hq : k₂.queue q = k.queue q := by
      obtain ⟨htail, hcount, hmessages⟩ := hproc q
      -- the scheduler changes neither queues nor messages
      refine queue_congr ?_ ?_ ?_
      · rw [hS.proc]
        exact htail
      · rw [hS.proc]
        exact hcount
      · rw [hS.proc]
        exact hmessages
    rw [hmail]
    unfold mail
    rw [hq]

/-- **The law of one entry.** -/
theorem EntersIpc.conserves (hs : k.EntersIpc ev k') (h : k.Inv phy pool)
    (hq : q ∈ k.processTable) : k.Conserves ev k' q := by
  -- one law for each call
  cases hs.ipcStep h with
  | send hax hS => exact hS.conserves hax h hq
  | receive hax hR => exact hR.conserves hax h hq
  | @nice regs k₁ hax hS =>
    refine hS.conserves (fun q => ⟨rfl, rfl, rfl⟩) (fun u => save_flag u)
      (accepted_receive (by rw [hax]; decide)) (fun u hr => ?_) rfl ?_
    · exact absurd (hax.symm.trans hr.1) (by decide)
    · -- `NICE` touches no queue
      unfold mail
      congr 1
      refine queue_congr ?_ ?_ ?_ <;>
      · rw [modProc_proc]
        split
        · next hc => rw [hc]
        · rfl
  | interrupt hp hI => exact hI.conserves h hp hq
  | tick hT hS =>
    refine hS.conserves (fun q => ?_) (fun u => ?_) rfl (fun _ hr => hr) rfl rfl
    · rw [hT.proc]
      exact ⟨rfl, rfl, rfl⟩
    · rw [hT.thr]
      exact save_flag u

/-- No entry of these creates or disposes a process. -/
theorem EntersIpc.processTable (hs : k.EntersIpc ev k') (h : k.Inv phy pool) :
    k'.processTable = k.processTable := by
  cases hs.ipcStep h with
  | send _ hS =>
    cases hS with
    | accepted _ _ _ hacc heq =>
      rw [heq]
      cases hacc with
      | handed _ _ hH _ _ _ => exact hH.processTable
      | queued _ _ hQ _ _ _ => exact hQ.processTable
    | refused _ _ heq =>
      rw [heq]
      rfl
  | receive _ hR =>
    cases hR with
    | took _ hU _ hT heq =>
      rw [heq]
      exact hT.processTable.trans hU.processTable
    | waits _ hU _ hW => exact hW.processTable.trans hU.processTable
    | refused _ heq =>
      rw [heq]
      rfl
  | nice _ hS => exact hS.processTable
  | interrupt _ hI =>
    cases hI with
    | handed _ _ _ _ hH => exact hH.processTable
    | queued _ _ _ _ hQ => exact hQ.processTable
    | full _ _ heq =>
      rw [heq]
      rfl
  | tick hT hS => exact hS.processTable.trans hT.processTable

/-- The state after an entry, if it returns. -/
def next (k : Kernel) (ev : Event) : Option Kernel :=
  match k.step ev with
  | .ok k' => some k'
  | .error _ => none

/-- The state after an entry is a function of the state before. -/
theorem EntersIpc.next (hs : k.EntersIpc ev k') : k.next ev = some k' := by
  unfold Kernel.next
  rw [hs.2.2]

/-- What the entries accept for `p`, in order. -/
def acceptedIn (p : Nat) (k : Kernel) (es : List Event) : List Posting :=
  total next (accepted p) k es

/-- What the `RECEIVE` calls of `p` return with, in order. -/
def obtainedIn (p : Nat) (k : Kernel) (es : List Event) : List (Nat × Nat) :=
  total next (obtained p) k es

/-- What holds of a state with the process `p` in every state of the run. -/
theorem EntersIpc.keeps (hs : k.EntersIpc ev k')
    (h : (∃ pool, k.Inv True pool) ∧ p ∈ k.processTable) :
    (∃ pool, k'.Inv True pool) ∧ p ∈ k'.processTable := by
  obtain ⟨⟨pool, hinv⟩, hp⟩ := h
  obtain ⟨hcare, hadm, hok⟩ := hs.careful
  obtain ⟨⟨pool', -, hinv'⟩, -⟩ := (step_spec hinv hadm hcare fun _ _ _ => trivial).elim hok
  exact ⟨⟨pool', hinv'⟩, by rw [hs.processTable hinv]; exact hp⟩

/-- **The law of a run.** -/
theorem run_conserves (h : k.Inv True pool) (hrun : Run EntersIpc k es k')
    (hp : p ∈ k.processTable) : k.mail p ++ (acceptedIn p k es).map Posting.letter =
      obtainedIn p k es ++ k'.mail p := by
  unfold acceptedIn obtainedIn
  rw [map_total]
  refine Run.conserve (I := fun k => (∃ pool, k.Inv True pool) ∧ p ∈ k.processTable)
    (q := fun k => k.mail p) (fun _ _ _ hs => hs.next) (fun _ _ _ h hs => hs.keeps h) ?_ hrun
    ⟨⟨pool, h⟩, hp⟩
  rintro s ev t ⟨⟨pool, hinv⟩, hp⟩ hs
  exact hs.conserves hinv hp

/-- The two ways a `SEND` ends: the page behind the caller's entry has been accepted and the
entry has a page that was free, or only the caller's `ax` has changed. -/
def SendEnds (k : Kernel) (regs : StackFrame) (k' : Kernel) : Prop :=
  ((k'.thr k.currentThread).regs.ax = 1 ∧ ∃ fresh, page fresh ⊆ k.heap.freeSet ∧
      frameAt (k'.pte k.currentProc (va2pde regs.cx) (va2pte regs.cx)) = fresh ∧
      k'.frameOf (.pte k.currentProc (va2pde regs.cx) (va2pte regs.cx)) = some fresh) ∨
    ∃ v, (v = 0 ∨ v = 0xFFFFFFFF ∨ v = 0xFFFFFFFE) ∧
      k' = (k.save regs).setAx k.currentThread v

/-- A `SEND` ends in one of these ways. -/
theorem send_ends (h : k.Inv phy pool) (hax : regs.ax = 0) :
    Yields (k.step (.systemCall regs)) (k.SendEnds regs) := by
  have hsave := h.save (r := regs)
  have hstep : k.step (.systemCall regs) = (k.save regs).sysSend regs.dx regs.cx regs.bx := by
    show (k.save regs).systemCall regs.ax _ _ _ = _
    rw [hax]
    rfl
  rw [hstep]
  refine (sysSend_spec hsave).mono fun k' hk' => ?_
  obtain ⟨hinv, hS⟩ := hk'
  cases hS with
  | @accepted p k₁ _ _ hs hacc heq =>
    have hfresh : k₁.currentThread = k.currentThread ∧ k₁.currentProc = k.currentProc ∧
        k₁.processTable = k.processTable ∧ ∃ fresh, page fresh ⊆ k.heap.freeSet ∧
          k₁.pte k.currentProc (va2pde regs.cx) (va2pte regs.cx) = va2pa fresh ||| 0b11111 ∧
          frameAt (va2pa fresh ||| 0b11111) = fresh := by
      cases hacc with
      | handed _ _ hH hfree hrep hphys =>
        exact ⟨hH.currentThread, hH.currentProc, hH.processTable, _, hfree, hrep, hphys⟩
      | queued _ _ hQ hfree hrep hphys =>
        exact ⟨hQ.currentThread, hQ.currentProc, hQ.processTable, _, hfree, hrep, hphys⟩
    obtain ⟨hct, hcp, hring, fresh, hfree, hrep, hphys⟩ := hfresh
    have hpte : k'.pte k.currentProc (va2pde regs.cx) (va2pte regs.cx) = va2pa fresh ||| 0b11111 := by
      rw [heq]
      exact hrep
    refine Or.inl ⟨by rw [heq, hct]; exact setAx_ax 1, fresh, hfree, by rw [hpte, hphys], ?_⟩
    have hmem : k.currentProc ∈ k'.processTable := by
      rw [heq]
      exact hring ▸ h.threads.running
    -- the sender has a fresh page where the one it sent was
    have hal : PAGE_SIZE ∣ va2pa fresh :=
      (va2pa_managed (hphys ▸ frameAt_dvd _) (h.owned.inside (h.owned.accounts.free_subset
        (hfree (self_mem_page fresh))))).1
    rw [frameOf_pte hmem hs.user hs.index, hpte, entryFrame_or hal, ← frameAt_or hal, hphys]
  | refused _ hv heq => exact Or.inr ⟨_, hv, heq⟩

/-- **Messages arrive once and in order.** From every state that careful entries reach, over
every run of `SEND`, `RECEIVE` and interrupts and for every process: the messages queued at the
start and those accepted since are, in this order, those obtained and those still queued. And
every `SEND` on the way ends in one of two ways. -/
theorem run_fifo (hB : k.Boot kernelPDE) (hinit : k.initProc kernelPDE ip = .ok k₁)
    (hreach : Run EntersCarefully k₁ es k') (hrun : Run EntersIpc k' es' k₂) :
    (∀ p ∈ k'.processTable, k'.mail p ++ (acceptedIn p k' es').map Posting.letter =
      obtainedIn p k' es' ++ k₂.mail p) ∧
    ∀ regs, regs.ax = 0 → Yields (k₂.step (.systemCall regs)) (k₂.SendEnds regs) := by
  obtain ⟨pool, -, h⟩ := hB.run_inv hinit hreach
  obtain ⟨pool₂, -, h₂⟩ := Kernel.run_inv (hrun.mono fun _ _ _ hs => hs.careful) h
  exact ⟨fun p hp => run_conserves h hrun hp, fun regs hax => send_ends h₂ hax⟩

/-- A run of such events is a run of such entries. -/
theorem run_ipc (hes : ∀ ev ∈ es, Ipc ev) (hrun : Run Enters k es k') : Run EntersIpc k es k' :=
  hrun.restrict hes

/-- A process waits, another one sends it a page, and an interrupt follows. -/
theorem run_fifo_send : ∃ (k k₁ k' k₂ : Kernel) (es' : List Event), k.Boot 0 ∧
    k.initProc 0 0 = .ok k₁ ∧
    Run EntersCarefully k₁ [.createProcess 0 0 100, call 6 0 0 0] k' ∧
    Run EntersIpc k' es' k₂ ∧ es'.length = 2 ∧ ∀ p ∈ k'.processTable,
      k'.mail p ++ (acceptedIn p k' es').map Posting.letter = obtainedIn p k' es' ++ k₂.mail p := by
  obtain ⟨k, k₁, k', hB, -, hinit, hrun, hsome⟩ := run_of_booted_any (a := 0xC0400000)
    (n := 0x400000) (l := [.createProcess 0 0 100, call 6 0 0 0])
    (P := fun k => (k.replay [call 1 0 0x400000 0, .interrupt noRegs 0xC0406004]).isSome = true)
    (by decide +kernel)
  obtain ⟨k₂, hk₂⟩ := Option.isSome_iff_exists.mp hsome
  have hreach := run_of_plain (by simp [Plain, call, noRegs]) hrun
  have hipc := run_ipc (by simp [Ipc, call, noRegs]) (run_of_replay hk₂)
  exact ⟨k, k₁, k', k₂, _, hB, hinit, hreach, hipc, rfl, (run_fifo hB hinit hreach hipc).1⟩

end Kernel

end NorlitOS
