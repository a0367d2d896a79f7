import NorlitOS.Process.Selective

/-!
# `receive` turns the queue

When nothing arrives, `receive` finds the first message of the wanted process. It has put back
behind all others what stood in front of it: the queue is turned, and its order is kept only where
nothing stood in front of the message or nothing behind it. The call comes back: it reads each
message once, and nothing but a lack of memory stops it.
-/

namespace NorlitOS

open Dyadic Ledger Select

/-- `x` returns, or stops for lack of memory. -/
def Affords {α : Type} (x : Except Stop α) : Prop := ∀ e, x = .error e → e = .outOfMemory

section Affords

variable {α β : Type} {x : Except Stop α} {f : α → Except Stop β} {a : α}

theorem affords_ok : Affords (.ok a : Except Stop α) := nofun

theorem Affords.bind (hx : Affords x) (hf : ∀ a, x = .ok a → Affords (f a)) : Affords (x >>= f) := by
  cases x with
  | error e =>
    intro e' he'
    cases he'
    exact hx e rfl
  | ok a => exact hf a rfl

end Affords

namespace Kernel

variable {k k' k₁ : Kernel} {phy : Prop} {pool : Set Nat} {p proc linear ip kernelPDE ret n : Nat}
  {ecx edx ebx : Nat} {es es' : List Event} {ev : Event} {regs : StackFrame}
  {pre post : List (Nat × Nat)} {w : Nat × Nat}

/-! ## What a call can lack

A call fails for lack of memory or not at all: what `Affords` says is carried through the parts of
`SEND` and `RECEIVE` like a specification. -/

theorem allocPage_affords (hw : k.heap.WellFormed) : Affords k.allocPage := by
  refine Affords.bind ?_ fun r _ => affords_ok
  rcases @Heap.memoryAlloc_spec k.heap k.heap.freeSet 12 (Heap.wellFormed_iff_rep.mp hw)
    (by decide) (by decide) with ⟨f, h', hok, -⟩ | ⟨herr, -⟩
  · rw [hok]
    exact affords_ok
  · rw [herr]
    exact fun e he => (Except.error.inj he).symm

theorem ensureTable_affords {cr3 i : Nat} (hw : k.heap.WellFormed) : Affords (k.ensureTable cr3 i) := by
  unfold ensureTable
  split
  · exact (allocPage_affords hw).bind fun _ _ => affords_ok
  · exact affords_ok

/-- Mapping one page takes one page at most, for its table. -/
theorem openPhysicalMemory_affords {q phyaddr flag : Nat} (hw : k.heap.WellFormed) :
    Affords (k.openPhysicalMemory q phyaddr ecx 1 flag) := by
  have hone : Affords (k.openPhysicalPage q phyaddr ecx flag) := by
    refine (ensureTable_affords hw).bind fun _ _ => ?_
    dsimp only
    split
    · exact affords_ok
    · exact affords_ok
  refine hone.bind fun r _ => ?_
  obtain ⟨r, k'⟩ := r
  dsimp only
  split
  · exact affords_ok
  · rw [openPhysicalMemory]
    exact affords_ok

/-- `RECEIVE` with a message in the queue. -/
theorem sysReceive_affords (h : k.Inv phy pool) (hv : k.Receivable ecx)
    (hmsg : (k.proc k.currentProc).msgCount ≠ 0) : Affords (k.sysReceive ecx) := by
  -- with a message in the queue there is nothing to wait for
  have hat : ∀ k₁ : Kernel, k₁.heap.WellFormed → k₁.proc = k.proc → k₁.currentProc = k.currentProc →
      Affords (k₁.receiveAt ecx) := by
    intro k₁ hw hproc hcur
    unfold receiveAt
    rw [hproc, hcur, if_neg hmsg]
    generalize (k.proc k.currentProc).messages (k.proc k.currentProc).msgTail = msg
    refine Affords.bind (openPhysicalMemory_affords ?_) fun _ _ => affords_ok
    exact hw
  have hrun := h.threads.running
  unfold sysReceive
  rw [frameAt_cr3 h.layout hrun, if_pos ⟨hv.user, hv.aligned⟩]
  simp only [show ∀ i, k.table (k.pd k.currentProc) i = k.pde k.currentProc i from fun _ => rfl]
  split
  · next hpres =>
    have h0 := ne_zero_of_testBit hpres.1
    have hodd := hpres.2
    rw [← pte_of_pde (j := va2pte ecx) h0] at hodd ⊢
    rw [if_neg (by rw [hv.recyclable]; decide)]
    obtain ⟨h', hok, hkeep, hU⟩ := unmap_spec h hv.user h0 (ne_zero_of_testBit hodd) hv.recyclable
    rw [hok, ok_bind]
    exact hat _ hkeep.inv.owned.wellFormed rfl rfl
  · exact hat k h.owned.wellFormed rfl rfl

/-- `SEND` to the running process with room in its queue. -/
theorem sysSend_affords (h : k.Inv phy pool) (hfound : k.getProcessById edx = some k.currentProc) :
    Affords (k.sysSend edx ecx ebx) := by
  -- the runner is running, so it does not wait
  have hidle : (k.proc k.currentProc).receiving = 0 := by
    rw [(h.procOk h.threads.running).receiving]
    by_contra hne
    obtain ⟨t, ht, hf⟩ := countFlag_pos_iff.mp (Nat.pos_of_ne_zero hne)
    rw [h.flag_eq_zero ht] at hf
    exact absurd hf (by decide)
  unfold sysSend
  dsimp only
  split
  · rw [hfound]
    dsimp only
    unfold sendTo
    rw [if_neg (not_not.mpr hidle)]
    split
    · refine Affords.bind ?_ fun _ _ => affords_ok
      exact (allocPage_affords h.owned.wellFormed).bind fun _ _ => affords_ok
    · exact affords_ok
  · exact affords_ok

/-! ## Steps while nothing arrives

Every letter that `receive` reads and does not want goes to the end of the queue. The contents
turn, and the number of calls up to the wanted letter is the number of letters in front of it. -/

/-- A step of `receive` in which nothing is posted to `p`. -/
def SelectsQuietly (p proc linear : Nat) (s : Kernel × Loop) (ev : Event) (s' : Kernel × Loop) : Prop :=
  Selects p proc linear s ev s' ∧ posted p s.1 ev s'.1 = []

/-- The next call of `receive`. -/
def Calls (p proc linear : Nat) (s : Kernel × Loop) (regs : StackFrame) : Prop :=
  match s.2 with
  | .start => regs.ax = 1 ∧ regs.cx = linear
  | .receiving => False
  | .got ret => again proc ret ∧ regs.ax = 0 ∧ regs.dx = (s.1.proc p).pid ∧ regs.cx = linear ∧
      regs.bx = ret

/-- The reader, after it has put back `n` of the messages in front of `w`. It is not blocked. -/
structure Turns (p proc linear : Nat) (pre : List (Nat × Nat)) (w : Nat × Nat)
    (post : List (Nat × Nat)) (n : Nat) (s : Kernel × Loop) : Prop where
  reader : Reader p linear s
  turned : Turned pre w post n (content s.1 p linear s.2)
  room : pre.length + post.length < MAX_MESSAGE_COUNT
  others : ∀ m ∈ pre, m.1 ≠ proc ∧ m.1 ≠ 0
  wanted : w.1 = proc
  awake : s.2 ≠ .receiving

/-- The calls that have been made, with `n` messages put back. -/
def callsMade (n : Nat) : Loop → Nat
  | .start => 2 * n
  | _ => 2 * n + 1

section Turns

variable {s s' : Kernel × Loop} (h : Turns p proc linear pre w post n s)

include h

theorem Turns.not_empty : content s.1 p linear s.2 ≠ [] := by
  have hlen := h.turned.length
  exact List.ne_nil_of_length_pos (by omega)

/-- There is room for the message that is put back. -/
theorem Turns.hasRoom (hl : s.2 = .got ret) : s.1.HasRoom p := by
  have hlen := h.turned.length
  have hroom := h.room
  rw [hl] at hlen
  have hmail : (s.1.mail p).length = (s.1.proc p).msgCount := by
    unfold mail queue
    rw [List.length_map, Ring.length_window]
  have hcontent : (content s.1 p linear (.got ret)).length = (s.1.mail p).length + 1 := rfl
  exact Or.inr (by omega)

/-- The message in the hand, if it is not wanted, is one of those in front of `w`. -/
theorem Turns.source_ne (hl : s.2 = .got ret) (hagain : again proc ret) : ret ≠ 0 := by
  have hturned := h.turned
  rw [hl] at hturned
  have hmem := (Turned.putBack (fun m => decide (m.1 = proc)) hturned
    (decide_eq_false hagain.1) (decide_eq_true h.wanted)).1
  exact (h.others _ hmem).2

end Turns

section Cases

variable {l : Loop} {k k' : Kernel} {regs : StackFrame}

/-- Others leave the reader where it is. -/
theorem Turns.other (h : Turns p proc linear pre w post n (k, l)) (hforeign : Foreign p k ev)
    (henter : k.EntersIpc ev k') (hquiet : posted p k ev k' = []) :
    Turns p proc linear pre w post n (k', resumed k' p l) ∧ resumed k' p l = l := by
  have hr := h.reader
  obtain ⟨pool, hinv⟩ := hr.inv
  obtain ⟨hat, hlaw⟩ :=
    henter.content_foreign hforeign hinv hr.mortal.mem hr.phase hr.user hr.aligned
  -- the runner was not waiting, so nothing resumes it
  have hsame : resumed k' p l = l := by
    cases l with
    | receiving => exact absurd rfl h.awake
    | start => rfl
    | got ret => rfl
  rw [posted, if_pos hforeign] at hquiet
  rw [hquiet, List.append_nil] at hlaw
  refine ⟨⟨hr.next henter hat, ?_, h.room, h.others, h.wanted, ?_⟩, hsame⟩
  · dsimp only
    rw [hlaw]
    exact h.turned
  · dsimp only
    rw [hsame]
    exact h.awake

/-- `RECEIVE` takes the first message of the queue. -/
theorem Turns.receive (h : Turns k.currentProc proc linear pre w post n (k, .start))
    (hax : regs.ax = 1) (hcx : regs.cx = linear) (henter : k.EntersIpc (.systemCall regs) k') :
    Turns k.currentProc proc linear pre w post n (k', resumed k' k.currentProc .receiving) ∧
      ∃ ret, resumed k' k.currentProc .receiving = .got ret := by
  have hr := h.reader
  obtain ⟨pool, hinv⟩ := hr.inv
  obtain ⟨hat, hlaw⟩ := henter.content_receive hinv hax hcx hr.phase hr.user hr.aligned
  have hnext := hr.next henter hat
  have hawake : resumed k' k.currentProc .receiving ≠ .receiving := by
    intro hblocked
    -- a blocked thread has an empty queue
    rw [hblocked] at hat hlaw
    obtain ⟨pool', hinv'⟩ := hnext.inv
    have hempty := hinv'.mail_of_waits hnext.mortal.mem hat.1
    exact h.not_empty (hlaw.symm.trans hempty)
  have hgot : ∃ ret, resumed k' k.currentProc .receiving = .got ret := by
    by_cases hw : k'.Waits k.currentProc
    · exact absurd (if_pos hw) hawake
    · exact ⟨_, if_neg hw⟩
  refine ⟨⟨hnext, ?_, h.room, h.others, h.wanted, hawake⟩, hgot⟩
  dsimp only
  rw [hlaw]
  exact h.turned

/-- `SEND` puts an unwanted message behind the others. -/
theorem Turns.repost (h : Turns k.currentProc proc linear pre w post n (k, .got ret))
    (hunwanted : again proc ret) (hax : regs.ax = 0) (hdx : regs.dx = (k.proc k.currentProc).pid)
    (hcx : regs.cx = linear) (hbx : regs.bx = ret) (henter : k.EntersIpc (.systemCall regs) k') :
    Turns k.currentProc proc linear pre w post (n + 1) (k', .start) := by
  have hr := h.reader
  obtain ⟨pool, hinv⟩ := hr.inv
  have hphase : ¬ k.Waits k.currentProc ∧ k.Holds k.currentProc linear := hr.phase
  have hret := h.source_ne rfl hunwanted
  have hfound : k.getProcessById regs.dx = some k.currentProc := by
    rw [hdx]
    exact hr.ascending.getProcessById hr.mortal
  have hh : k.Holds k.currentProc regs.cx := hcx ▸ hphase.2
  obtain ⟨hpost, hmail⟩ := henter.repost hinv hax hfound (h.hasRoom rfl) hh
  have hsource : k.sendSource regs.bx = ret := by
    rw [hbx]
    exact if_neg hret
  rw [hsource, hcx] at hmail
  -- the call returns to the same thread, which does not wait
  have hat : AtLoop k' k.currentProc linear .start := by
    refine ⟨?_, (hcx ▸ hpost.holds).normal⟩
    unfold Waits
    rw [hpost.runner, hpost.flag]
    decide
  have hback := (Turned.putBack (fun m => decide (m.1 = proc)) h.turned
    (decide_eq_false hunwanted.1) (decide_eq_true h.wanted)).2
  refine ⟨hr.next henter hat, ?_, h.room, h.others, h.wanted, by simp⟩
  show Turned pre w post (n + 1) (k'.mail k.currentProc)
  rw [hmail]
  exact hback

end Cases

section Turns

variable {s s' : Kernel × Loop} (h : Turns p proc linear pre w post n s)

include h

/-- **One step of `receive`** while nothing arrives: others leave it where it is, and each call of its
own brings it on. -/
theorem Turns.step (hs : SelectsQuietly p proc linear s ev s') :
    ∃ n', Turns p proc linear pre w post n' s' ∧
      (if Foreign p s.1 ev then n' = n ∧ s'.2 = s.2
        else callsMade n' s'.2 = callsMade n s.2 + 1) := by
  obtain ⟨hs, hquiet⟩ := hs
  -- only reading and putting back are calls
  cases hs with
  | other hforeign henter =>
    obtain ⟨hnext, hsame⟩ := h.other hforeign henter hquiet
    refine ⟨n, hnext, ?_⟩
    rw [if_pos hforeign]
    exact ⟨rfl, hsame⟩
  | receive hrun hax hcx henter =>
    subst hrun
    obtain ⟨hnext, ret, hgot⟩ := h.receive hax hcx henter
    refine ⟨n, hnext, ?_⟩
    rw [if_neg fun hne => hne rfl]
    dsimp only
    rw [hgot]
    rfl
  | repost hrun hunwanted hax hdx hcx hbx henter =>
    subst hrun
    refine ⟨n + 1, h.repost hunwanted hax hdx hcx hbx henter, ?_⟩
    rw [if_neg fun hne => hne rfl]
    show 2 * (n + 1) = 2 * n + 1 + 1
    omega

/-- When `receive` returns, it has the message `w`, and the queue is turned. -/
theorem Turns.found (hl : s.2 = .got ret) (hdone : ¬ again proc ret) (hproc : proc ≠ 0) :
    (ret, frameAt (s.1.entryAt p linear)) = w ∧ s.1.mail p = post ++ pre := by
  have hret : ret = proc := by
    by_contra hne
    exact hdone ⟨hne, hproc⟩
  have hturned := h.turned
  rw [hl] at hturned
  exact Turned.found (fun m => decide (m.1 = proc)) hturned
    (fun m hm => decide_eq_false (h.others m hm).1) (decide_eq_true hret)

end Turns

/-! ## Progress

A step of the loop can always be made: the queue is not empty, so no `RECEIVE` waits, and a `SEND`
to the own process finds the slot just left free. -/

theorem Received.currentProc (hR : Received k ecx k') (hv : k.Receivable ecx)
    (hmsg : (k.proc k.currentProc).msgCount ≠ 0) : k'.currentProc = k.currentProc := by
  cases hR with
  | took _ hU _ hT heq =>
    rw [heq]
    exact hT.currentProc.trans hU.currentProc
  | waits _ _ hempty _ => exact absurd hempty hmsg
  | refused hnot _ => exact absurd hv hnot

theorem Sent.currentProc (hS : Sent k edx ecx ebx k') : k'.currentProc = k.currentProc := by
  cases hS with
  | accepted _ _ _ hacc heq =>
    rw [heq]
    cases hacc with
    | handed _ _ hH => exact hH.currentProc
    | queued _ _ hQ => exact hQ.currentProc
  | refused _ _ heq =>
    rw [heq]
    rfl

section Progress

variable {s s' : Kernel × Loop} (h : Turns p proc linear pre w post n s)

include h

theorem Turns.msgCount_ne (hl : s.2 = .start) : (s.1.proc p).msgCount ≠ 0 := by
  have hne := h.not_empty
  rw [hl] at hne
  exact fun hzero => hne (mail_of_empty hzero)

/-- A call of its own leaves the process running. -/
theorem Turns.running (hs : SelectsQuietly p proc linear s ev s') (hown : ¬ Foreign p s.1 ev) :
    s'.1.currentProc = p := by
  obtain ⟨pool, hinv⟩ := h.reader.inv
  cases hs.1 with
  | other hev _ => exact absurd hev hown
  | @receive k k' regs hrun hax hcx henter =>
    subst hrun
    have hat : ¬ k.Waits k.currentProc ∧ isPhy (k.entryAt k.currentProc linear) = false := h.reader.phase
    have hv : k.Receivable regs.cx := hcx ▸ ⟨h.reader.user, h.reader.aligned, hat.2⟩
    exact (received_of_step hinv hax henter.2.2).currentProc (receivable_save.mpr hv)
      (h.msgCount_ne rfl)
  | @repost k k' ret regs hrun _ hax _ _ _ henter =>
    subst hrun
    exact (sent_of_step hinv hax henter.2.2).currentProc

omit h in
/-- A call that can lack only memory is made, or memory is short. -/
theorem enters_of_affords (hax : regs.ax = 0 ∨ regs.ax = 1)
    (haff : Affords (k.step (.systemCall regs))) :
    (∃ k', k.EntersIpc (.systemCall regs) k') ∨ k.step (.systemCall regs) = .error .outOfMemory := by
  cases hstep : k.step (.systemCall regs) with
  | error e => exact Or.inr (congrArg _ (haff e hstep))
  | ok k' =>
    have hadm : k.Admissible (.systemCall regs) :=
      ⟨fun hthree => absurd hthree (by omega), fun hlarge => absurd hlarge (by omega)⟩
    exact Or.inl ⟨k', hax.imp_right Or.inl, hadm, hstep⟩

/-- **The next call** is made, or memory is short. -/
theorem Turns.progress (hrun : p = s.1.currentProc) (hcall : Calls p proc linear s regs) :
    (∃ s', SelectsQuietly p proc linear s (.systemCall regs) s') ∨
      s.1.step (.systemCall regs) = .error .outOfMemory := by
  obtain ⟨pool, hinv⟩ := h.reader.inv
  obtain ⟨k, l⟩ := s
  subst hrun
  have hown : ∀ k', posted k.currentProc k (.systemCall regs) k' = [] :=
    fun k' => if_neg fun hne => hne rfl
  have hphase : AtLoop k k.currentProc linear l := h.reader.phase
  cases l with
  | receiving => exact hcall.elim
  | start =>
    obtain ⟨hax, hcx⟩ := hcall
    have hv : k.Receivable regs.cx := hcx ▸ ⟨h.reader.user, h.reader.aligned, hphase.2⟩
    -- the call lacks memory, or it returns
    have haff : Affords (k.step (.systemCall regs)) := by
      show Affords ((k.save regs).systemCall regs.ax regs.dx regs.cx regs.bx)
      rw [hax]
      exact sysReceive_affords hinv.save (receivable_save.mpr hv) (h.msgCount_ne rfl)
    rcases enters_of_affords (Or.inr hax) haff with ⟨k', henter⟩ | hmem
    · exact Or.inl ⟨_, .receive rfl hax hcx henter, hown k'⟩
    · exact Or.inr hmem
  | got ret =>
    obtain ⟨hagain, hax, hdx, hcx, hbx⟩ := hcall
    have hfound : k.getProcessById regs.dx = some k.currentProc := by
      rw [hdx]
      exact h.reader.ascending.getProcessById h.reader.mortal
    have haff : Affords (k.step (.systemCall regs)) := by
      show Affords ((k.save regs).systemCall regs.ax regs.dx regs.cx regs.bx)
      rw [hax]
      exact sysSend_affords hinv.save hfound
    rcases enters_of_affords (Or.inl hax) haff with ⟨k', henter⟩ | hmem
    · exact Or.inl ⟨_, .repost rfl hagain hax hdx hcx hbx henter, hown k'⟩
    · exact Or.inr hmem

end Progress

/-! ## Runs

When the process runs alone its calls are the whole run. The bound on them is that of the turning
queue. -/

/-- **The law of a run of `receive`** while nothing arrives. -/
theorem run_turns {s s' : Kernel × Loop} (hrun : Run (SelectsQuietly p proc linear) s es s')
    (h : Turns p proc linear pre w post n s) : ∃ n', Turns p proc linear pre w post n' s' := by
  induction hrun generalizing n with
  | nil => exact ⟨n, h⟩
  | cons first _ ih =>
    obtain ⟨n', h', -⟩ := h.step first
    exact ih h'

/-- A call of `receive` itself, while nothing arrives. -/
def SelectsAlone (p proc linear : Nat) (s : Kernel × Loop) (ev : Event) (s' : Kernel × Loop) : Prop :=
  SelectsQuietly p proc linear s ev s' ∧ ¬ Foreign p s.1 ev

/-- Alone, `receive` keeps running, and each message in front of `w` costs it two calls. -/
theorem run_alone {s s' : Kernel × Loop} (hrun : Run (SelectsAlone p proc linear) s es s')
    (h : Turns p proc linear pre w post n s) (hcur : s.1.currentProc = p) :
    s'.1.currentProc = p ∧ callsMade n s.2 + es.length ≤ 2 * pre.length + 1 := by
  induction hrun generalizing n with
  | nil s =>
    refine ⟨hcur, ?_⟩
    have hle := h.turned.le
    -- an even number of calls at the start of a round, an odd one inside
    cases s.2 with
    | start =>
      show 2 * n + 0 ≤ _
      omega
    | _ =>
      show 2 * n + 1 + 0 ≤ _
      omega
  | @cons s t u ev es first _ ih =>
    obtain ⟨n', h', hmade⟩ := h.step first.1
    rw [if_neg first.2] at hmade
    obtain ⟨hlast, hlen⟩ := ih h' (h.running first.1 first.2)
    refine ⟨hlast, ?_⟩
    rw [List.length_cons]
    omega

/-- **Selective receive turns the queue.** A process other than Init calls `receive` in a state that
careful entries reach, with a message of `proc` in its queue, and no message in front of it that lacks
a source. While nothing arrives, `receive` is never blocked and its next call is made unless memory is
short; it returns with the first message of `proc`, and leaves the messages behind that one in front
of those before it. Alone, it makes no more than two calls for each of these and one more. -/
theorem receive_turns (hB : k.Boot kernelPDE) (hinit : k.initProc kernelPDE ip = .ok k₁)
    (hreach : Run EntersCarefully k₁ es k') (hmortal : k'.Mortal k'.currentProc) (hproc : proc ≠ 0)
    (hv : k'.Receivable linear) (hmail : k'.mail k'.currentProc = pre ++ w :: post)
    (hpre : ∀ m ∈ pre, m.1 ≠ proc ∧ m.1 ≠ 0) (hw : w.1 = proc) :
    (∀ es' s, Run (SelectsQuietly k'.currentProc proc linear) (k', .start) es' s →
      s.2 ≠ .receiving ∧
      (∀ regs, k'.currentProc = s.1.currentProc → Calls k'.currentProc proc linear s regs →
        (∃ s', SelectsQuietly k'.currentProc proc linear s (.systemCall regs) s') ∨
          s.1.step (.systemCall regs) = .error .outOfMemory) ∧
      ∀ ret, s.2 = .got ret → ¬ again proc ret →
        (ret, frameAt (s.1.entryAt k'.currentProc linear)) = w ∧
          s.1.mail k'.currentProc = post ++ pre) ∧
    ∀ es' s, Run (SelectsAlone k'.currentProc proc linear) (k', .start) es' s →
      s.1.currentProc = k'.currentProc ∧ es'.length ≤ 2 * pre.length + 1 := by
  obtain ⟨pool, -, h⟩ := hB.run_inv hinit hreach
  have hnot : ¬ k'.Waits k'.currentProc := fun hw => h.away h.threads.running hw rfl
  have hreader : Reader k'.currentProc linear (k', .start) :=
    ⟨⟨pool, h⟩, (hB.run_numbered hinit hreach).ascending, hmortal, hv.user, hv.aligned,
      hnot, hv.recyclable⟩
  -- the messages around `w` leave one slot of the queue for the one put back
  have hroom : pre.length + post.length < MAX_MESSAGE_COUNT := by
    have hcount := (h.procOk h.threads.running).count
    have hlen : (k'.mail k'.currentProc).length = (k'.proc k'.currentProc).msgCount := by
      unfold mail queue
      rw [List.length_map, Ring.length_window]
    rw [hmail, List.length_append, List.length_cons] at hlen
    omega
  have hturns : Turns k'.currentProc proc linear pre w post 0 (k', .start) := by
    refine ⟨hreader, ?_, hroom, hpre, hw, by simp⟩
    show Turned pre w post 0 (k'.mail k'.currentProc)
    rw [hmail]
    exact Turned.start pre w post
  refine ⟨fun es' s hrun => ?_, fun es' s hrun => ?_⟩
  · obtain ⟨n, hs⟩ := run_turns hrun hturns
    exact ⟨hs.awake, fun regs hcur hcall => hs.progress hcur hcall,
      fun ret hl hdone => hs.found hl hdone hproc⟩
  · obtain ⟨hcur, hlen⟩ := run_alone hrun hturns rfl
    exact ⟨hcur, by simpa [callsMade] using hlen⟩

/-- One call of `receive` itself as a function. -/
def selectAlone (p proc linear : Nat) (s : Kernel × Loop) (ev : Event) : Option (Kernel × Loop) :=
  if Foreign p s.1 ev then none else select p proc linear s ev

theorem alone_of_selectAlone {s s' : Kernel × Loop} (h : selectAlone p proc linear s ev = some s') :
    SelectsAlone p proc linear s ev s' := by
  unfold selectAlone at h
  split at h
  · exact nomatch h
  · next hown => exact ⟨⟨selects_of_select h, if_neg hown⟩, hown⟩

/-- A process with an interrupt, a message and another interrupt in its queue asks for the message. -/
theorem run_between : ∃ (k k₁ k' k₂ : Kernel) (es' : List Event), k.Boot 0 ∧
    k.initProc 0 0 = .ok k₁ ∧ Run EntersCarefully k₁ [.createProcess 0 0 50, .createProcess 0 0 100,
      call 6 0 0 0, .interrupt noRegs 0xC0406004, call 0 1 0xBFFFF000 0, .interrupt noRegs 0xC0406004,
      call 6 0 0 0] k' ∧
    k'.Mortal k'.currentProc ∧ k'.Receivable 0x400000 ∧
    (k'.mail k'.currentProc).map Prod.fst = [0xFFFFFFFF, 2, 0xFFFFFFFF] ∧
    Run (SelectsAlone k'.currentProc 2 0x400000) (k', .start) es' (k₂, .got 2) ∧
    k₂.mail k'.currentProc ≠ (k'.mail k'.currentProc).eraseIdx 1 := by
  obtain ⟨k, k₁, k', hB, -, hinit, hrun, hmortal, hv, hsources, hany⟩ := run_of_booted_any
    (a := 0xC0400000) (n := 0x400000) (l := [.createProcess 0 0 50, .createProcess 0 0 100,
      call 6 0 0 0, .interrupt noRegs 0xC0406004, call 0 1 0xBFFFF000 0,
      .interrupt noRegs 0xC0406004, call 6 0 0 0])
    (P := fun k => k.Mortal k.currentProc ∧ k.Receivable 0x400000 ∧
      (k.mail k.currentProc).map Prod.fst = [0xFFFFFFFF, 2, 0xFFFFFFFF] ∧
      (Run.follow (selectAlone k.currentProc 2 0x400000) (k, .start) [call 1 0 0x400000 0,
        call 0 1 0x400000 0xFFFFFFFF, call 1 0 0x400000 0]).any (fun s =>
          decide (s.2 = .got 2 ∧
            s.1.mail k.currentProc ≠ (k.mail k.currentProc).eraseIdx 1)) = true)
    (by decide +kernel)
  obtain ⟨s, hs, hdec⟩ := (Option.any_eq_true _ _).mp hany
  obtain ⟨k₂, l⟩ := s
  -- the queue is not what erasing the message from it leaves
  obtain ⟨hgot, hne⟩ := of_decide_eq_true hdec
  cases hgot
  exact ⟨k, k₁, k', k₂, _, hB, hinit, run_of_plain (by simp [Plain, call, noRegs]) hrun, hmortal, hv,
    hsources, Run.of_follow (fun _ _ _ => alone_of_selectAlone) hs, hne⟩

/-- Its two interrupts come to stand the other way round. -/
theorem receive_turns_between : ∃ (k' k₂ : Kernel) (a b c : Nat × Nat),
    k'.mail k'.currentProc = [a, b, c] ∧ a.1 = c.1 ∧ k₂.mail k'.currentProc = [c, a] := by
  obtain ⟨k, k₁, k', k₂, es', hB, hinit, hreach, hmortal, hv, hsources, hrun, -⟩ := run_between
  obtain ⟨a, rest, hmail, ha, hsources⟩ := List.map_eq_cons_iff.mp hsources
  obtain ⟨b, rest, rfl, hb, hsources⟩ := List.map_eq_cons_iff.mp hsources
  obtain ⟨c, rest, rfl, hc, hsources⟩ := List.map_eq_cons_iff.mp hsources
  rw [List.map_eq_nil_iff] at hsources
  subst hsources
  have hquiet := hrun.mono fun _ _ _ hs => hs.1
  have hsplit : k'.mail k'.currentProc = [a] ++ b :: [c] := hmail
  have hturns := (receive_turns hB hinit hreach hmortal (by decide) hv hsplit
    (by rw [List.forall_mem_singleton, ha]; decide) hb).1 es' (k₂, .got 2) hquiet
  exact ⟨k', k₂, a, b, c, hmail, ha.trans hc.symm, (hturns.2.2 2 rfl (by decide)).2⟩

/-- The order is not kept. -/
theorem not_receive_in_order : ¬ ∀ (k k₁ k' k₂ : Kernel) (kernelPDE ip proc linear ret : Nat)
    (es es' : List Event) (pre post : List (Nat × Nat)) (w : Nat × Nat), k.Boot kernelPDE →
      k.initProc kernelPDE ip = .ok k₁ → Run EntersCarefully k₁ es k' →
      k'.Mortal k'.currentProc → proc ≠ 0 → k'.Receivable linear →
      k'.mail k'.currentProc = pre ++ w :: post → (∀ m ∈ pre, m.1 ≠ proc ∧ m.1 ≠ 0) → w.1 = proc →
      Run (SelectsAlone k'.currentProc proc linear) (k', .start) es' (k₂, .got ret) →
      ¬ again proc ret → k₂.mail k'.currentProc = pre ++ post := by
  intro hall
  obtain ⟨k, k₁, k', k₂, es', hB, hinit, hreach, hmortal, hv, hsources, hrun, hne⟩ := run_between
  obtain ⟨a, rest, hmail, ha, hsources⟩ := List.map_eq_cons_iff.mp hsources
  obtain ⟨b, rest, rfl, hb, hsources⟩ := List.map_eq_cons_iff.mp hsources
  have horder := hall k k₁ k' k₂ 0 0 2 0x400000 2 _ es' [a] rest b hB hinit hreach hmortal
    (by decide) hv hmail (by rw [List.forall_mem_singleton, ha]; decide) hb hrun (by decide)
  rw [hmail] at hne
  exact hne horder

end Kernel

end NorlitOS
