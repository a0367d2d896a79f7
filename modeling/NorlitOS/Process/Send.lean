import NorlitOS.Process.Interrupt

/-!
# `SYSCALL_SEND`

The page behind the sender's entry goes to a blocked thread of the receiver or into its queue,
and the entry gets a fresh page. Otherwise the call changes nothing besides `ax`.
-/

namespace NorlitOS

open Dyadic Ledger

namespace Kernel

variable {k k' k₁ : Kernel} {own : Owner → Option Nat} {phy : Prop} {pool : Set Nat}
  {p q t i j a b source x f msg : Nat}

/-- The page of the entry `(a, b)` of the running process has gone to `p`, and the entry has
got the page `fresh`. -/
inductive Accepted (k : Kernel) (p source a b : Nat) (k' : Kernel) : Prop where
  | handed {t fresh : Nat} (member : t ∈ (k.proc p).thread) (blocked : (k.thr t).flag = 2)
      (handed : Handed k p t source (pageBase (k.pte k.currentProc a b)) k')
      (free : page fresh ⊆ k.heap.freeSet)
      (replaced : k'.pte k.currentProc a b = va2pa fresh ||| 0b11111)
      (physical : frameAt (va2pa fresh ||| 0b11111) = fresh)
      (kept : ∀ c < USER_PDES, ∀ d, ¬ (c = a ∧ d = b) →
        k'.pte k.currentProc c d = k.pte k.currentProc c d)
  | queued {fresh : Nat} (idle : (k.proc p).receiving = 0)
      (room : (k.proc p).msgCount < MAX_MESSAGE_COUNT)
      (queued : Queued k p (message source (k.pte k.currentProc a b)) k')
      (free : page fresh ⊆ k.heap.freeSet)
      (replaced : k'.pte k.currentProc a b = va2pa fresh ||| 0b11111)
      (physical : frameAt (va2pa fresh ||| 0b11111) = fresh)
      (kept : ∀ c < USER_PDES, ∀ d, ¬ (c = a ∧ d = b) →
        k'.pte k.currentProc c d = k.pte k.currentProc c d)

/-- An entry whose page can be sent. -/
structure Sendable (k : Kernel) (a b : Nat) : Prop where
  user : a < USER_PDES
  index : b < 1024
  table : k.pde k.currentProc a ≠ 0
  present : (k.pte k.currentProc a b).testBit 0 = true
  owned : isPhy (k.pte k.currentProc a b) = false

theorem Sendable.frameOf (hs : k.Sendable a b) (h : k.Inv phy pool) :
    k.frameOf (.pte k.currentProc a b) = some (frameAt (k.pte k.currentProc a b)) := by
  rw [frameOf_pte h.threads.running hs.user hs.index,
    entryFrame_of (ne_zero_of_testBit hs.present) hs.owned]

/-- The hand-over of the sender's page. -/
theorem sendBlocked_spec (h : k.Inv phy pool) (hp : p ∈ k.processTable)
    (ht : t ∈ (k.proc p).thread) (hf : (k.thr t).flag = 2) (hs : k.Sendable a b) :
    Yields (do
      let (_, k₁) ← (k.answering p t source).openPhysicalMemory p
        (pageBase (k.pte k.currentProc a b)) ((k.answering p t source).thr t).regs.cx 1 0
      let (fresh, k₁) ← k₁.allocPhysicalPage
      let k₁ := k₁.setWord (frameAt (k.pde k.currentProc a)) b (fresh ||| 0b11111)
      let k₁ := k₁.threadAwake t
      .ok (k₁.setAx k₁.currentThread 1)) fun k' => Keeps k phy pool k' ∧
        ∃ k₁, k' = k₁.setAx k₁.currentThread 1 ∧ Accepted k p source a b k₁ := by
  have hB := (h.procOk hp).blocked t ht hf
  have hrun := h.threads.running
  have hS : SameMaps k (k.answering p t source) := sameMaps_answering
  have hL := hS.layout h.layout
  have hi := va2pde_user hB.user
  have hx := pageBase_dvd (k.pte k.currentProc a b)
  have hz : (k.answering p t source).pte p (va2pde (k.thr t).regs.cx)
      (va2pte (k.thr t).regs.cx) = 0 := by
    rw [hS.pte]
    exact hB.unmapped
  -- the page changes hands before it is mapped
  have hO : Owned (k.answering p t source).heap _ pool :=
    hS.heap ▸ h.owned.move (hs.frameOf h)
      (x := .pte p (va2pde (k.thr t).regs.cx) (va2pte (k.thr t).regs.cx))
      ((frameOf_pte hp hi (va2pte_lt _)).trans (by rw [hB.unmapped, entryFrame_zero]))
      fun _ => by simp
  have hA : Agree (Function.update (Function.update k.frameOf (.pte k.currentProc a b) none)
      (.pte p (va2pde (k.thr t).regs.cx) (va2pte (k.thr t).regs.cx))
      (some (frameAt (k.pte k.currentProc a b)))) (k.answering p t source) :=
    (hS.frameOf ▸ Agree.refl _ : Agree k.frameOf (k.answering p t source)).update_pte.update_pte
  rw [answering_cx]
  refine (openPhysicalMemory_one hL hO hA hp hi hz ?_).bind fun r hr => ?_
  · rw [Nat.or_zero]
    exact entry_or hx
  obtain ⟨r, k₂⟩ := r
  obtain ⟨-, hopen⟩ := hr
  rw [Nat.or_zero] at hopen
  refine (allocPhysicalPage_spec hopen.owned).bind fun r hr => ?_
  obtain ⟨g, h', rfl, hg⟩ := hr
  have hsp : k.currentProc ≠ p := hB.away.symm
  have hpde : k₂.pde k.currentProc a = k.pde k.currentProc a :=
    (hopen.pde _ hrun a fun hc => hsp hc.1).trans (hS.pde _ _)
  have hq₂ : ∀ q ∈ k.processTable, q ∈ k₂.processTable := by
    intro q hq
    rw [hopen.processTable]
    exact hq
  have hnone : Function.update (Function.update (Function.update k.frameOf
      (.pte k.currentProc a b) none) (.pte p (va2pde (k.thr t).regs.cx) (va2pte (k.thr t).regs.cx))
      (some (frameAt (k.pte k.currentProc a b)))) (.pageTable p (va2pde (k.thr t).regs.cx))
      (some (frameAt (k₂.pde p (va2pde (k.thr t).regs.cx)))) (.pte k.currentProc a b) = none := by
    rw [Function.update_of_ne (by simp), Function.update_of_ne (by simp [hsp]),
      Function.update_self]
  have hrep := Replaced.of_allocated hg hopen.layout hopen.owned (hq₂ _ hrun) hs.user hs.index
    (hpde ▸ hs.table) hnone
  rw [← hpde]
  set k₄ := ({ k₂ with heap := h' } : Kernel).setWord (frameAt (k₂.pde k.currentProc a)) b
    (va2pa g ||| 0b11111) with hk₄
  have hS₄ := sameMaps_threadAwake (k := k₄) (t := t)
  have hawake := threadAwake_proc hB.flag ((h.procOk hp).back t ht)
    (show k₄.proc = _ from hopen.proc) (show k₄.thr = _ from hopen.thr)
  -- the sender's entry has the fresh page, the receiver's one that was sent, the others are the same
  have hpte : ∀ q ∈ k.processTable, ∀ c < USER_PDES, ∀ d, (k₄.threadAwake t).pte q c d =
      if q = k.currentProc ∧ c = a ∧ d = b then va2pa g ||| 0b11111
      else if q = p ∧ c = va2pde (k.thr t).regs.cx ∧ d = va2pte (k.thr t).regs.cx then
        pageBase (k.pte k.currentProc a b) ||| 0b11111
      else k.pte q c d := by
    intro q hq c hc d
    rw [hS₄.pte, hrep.pte q (hq₂ q hq) c hc, hopen.pte q hq c hc, hS.pte]
  have hH : Handed k p t source (pageBase (k.pte k.currentProc a b)) (k₄.threadAwake t) := by
    refine ⟨hS₄.processTable.trans hopen.processTable,
      threadAwake_running.1.trans hopen.currentProc,
      threadAwake_running.2.trans hopen.currentThread, hawake.1, hawake.2, ?_, ?_, ?_⟩
    · rw [hpte p hp _ hi, if_neg fun hc => hsp hc.1.symm, if_pos ⟨rfl, rfl, rfl⟩]
    · intro c hc d hcd
      rw [hpte p hp c hc, if_neg fun hc => hsp hc.1.symm, if_neg fun hc => hcd hc.2]
    · intro q hq hqs hqp c hc d
      rw [hpte q hq c hc, if_neg fun hc => hqs hc.1, if_neg fun hc => hqp hc.1]
  have hInv : (k₄.threadAwake t).Inv phy pool := by
    refine ⟨?_, hS₄.layout hrep.layout, hH.threads h hp ht hf⟩
    have hown := hrep.owned
    rw [hS₄.heap, hS₄.frameOf, hrep.frames, hopen.frames_eq hx, hS.frameOf]
    rw [Function.update_comm (a := Owner.pte k.currentProc a b) (by simp [hsp]),
      Function.update_comm (a := Owner.pte k.currentProc a b) (by simp),
      Function.update_idem] at hown
    exact hown
  have hhalf : SameHalf pool k (k₄.threadAwake t) := by
    have h₂ : SameHalf pool k k₂ := hS.half.trans_of_eq hopen.half hS.processTable
    have h₄ : SameHalf pool k k₄ := h₂.trans_of_eq hrep.half hopen.processTable
    exact h₄.trans_of_eq hS₄.half hopen.processTable
  refine ⟨⟨(sameButRegs_setAx 1).inv hInv, hhalf.trans_of_eq (sameButRegs_setAx 1).half
    hH.processTable⟩, _, rfl, .handed ht hf hH ?_ ?_ hrep.physical fun c hc d hcd => ?_⟩
  · exact hg.free.trans (hopen.freeSet.trans (by rw [hS.heap]))
  · rw [hpte _ hrun _ hs.user, if_pos ⟨rfl, rfl, rfl⟩]
  · rw [hpte _ hrun c hc, if_neg fun h => hcd h.2, if_neg fun h => hsp h.1]

/-- The sender's page goes into the queue. -/
theorem sendQueue_spec (h : k.Inv phy pool) (hp : p ∈ k.processTable)
    (hr : (k.proc p).receiving = 0) (hc : (k.proc p).msgCount < MAX_MESSAGE_COUNT)
    (hs : k.Sendable a b) :
    Yields (do
      let (fresh, k₁) ← k.allocPhysicalPage
      let k₁ := k₁.setWord (frameAt (k.pde k.currentProc a)) b (fresh ||| 0b11111)
      let k₁ := k₁.enqueue p (message source (k.pte k.currentProc a b))
      .ok (k₁.setAx k₁.currentThread 1)) fun k' => Keeps k phy pool k' ∧
        ∃ k₁, k' = k₁.setAx k₁.currentThread 1 ∧ Accepted k p source a b k₁ := by
  have hP := h.procOk hp
  have hrun := h.threads.running
  -- the page changes hands before the entry gets the fresh one
  have hO : Owned k.heap _ pool := h.owned.move (hs.frameOf h)
    (x := .slot p (k.proc p).msgHead) (frameOf_slot_none (not_inQueue_head hP hc)) fun _ => by simp
  refine (allocPhysicalPage_spec hO).bind fun r hr' => ?_
  obtain ⟨g, h', rfl, hg⟩ := hr'
  have hrep := Replaced.of_allocated hg h.layout hO hrun hs.user hs.index hs.table (by
    rw [Function.update_of_ne (by simp), Function.update_self])
  set k₁ := ({ k with heap := h' } : Kernel).setWord (frameAt (k.pde k.currentProc a)) b
    (va2pa g ||| 0b11111) with hk₁
  set m := message source (k.pte k.currentProc a b) with hm
  have hpte : ∀ q c d, (k₁.enqueue p m).pte q c d = k₁.pte q c d :=
    fun q c d => pte_of_sameSpaces enqueue_sameSpaces rfl q c d
  have hother : ∀ q ∈ k.processTable, q ≠ k.currentProc → ∀ c < USER_PDES, ∀ d,
      k₁.pte q c d = k.pte q c d := by
    intro q hq hqs c hc d
    rw [hrep.pte q hq c hc, if_neg fun hc => hqs hc.1]
  have hQ : Queued k p m (k₁.enqueue p m) :=
    ⟨rfl, rfl, rfl, rfl, rfl, fun q hq hqs c hc d => (hpte q c d).trans (hother q hq hqs c hc d)⟩
  have hS₁ : SameRunning k k₁ := ⟨rfl, rfl, rfl, rfl, rfl, hother⟩
  have hT₁ : k₁.Threads := hS₁.threads h
  have hInv : (k₁.enqueue p m).Inv phy pool := by
    refine ⟨?_, hrep.layout.of_sameSpaces enqueue_sameSpaces rfl fun _ => rfl,
      hQ.threads h hp hc hr⟩
    have hown := hrep.owned
    rw [frameOf_enqueue (hT₁.proc p hp) hp hc, hrep.frames, message_mod, frameAt_mod]
    rw [Function.update_comm (a := Owner.pte k.currentProc a b) (by simp), Function.update_idem,
      Function.update_comm (by simp)] at hown
    exact hown
  have hhalf : SameHalf pool k (k₁.enqueue p m) :=
    hrep.half.trans_of_eq (SameHalf.of_eq rfl enqueue_sameSpaces.cr3) rfl
  refine ⟨⟨(sameButRegs_setAx 1).inv hInv, hhalf.trans_of_eq (sameButRegs_setAx 1).half rfl⟩, _, rfl,
    .queued hr hc hQ hg.free ?_ hrep.physical fun c hc d hcd => ?_⟩
  · rw [hpte, hrep.pte _ hrun _ hs.user, if_pos ⟨rfl, rfl, rfl⟩]
  · rw [hpte, hrep.pte _ hrun c hc, if_neg fun h => hcd h.2]

/-- A thread of `p` waits for a message, or its queue has room for one. -/
def HasRoom (k : Kernel) (p : Nat) : Prop :=
  (k.proc p).receiving ≠ 0 ∨ (k.proc p).msgCount < MAX_MESSAGE_COUNT

instance (k : Kernel) (p : Nat) : Decidable (k.HasRoom p) :=
  inferInstanceAs (Decidable ((k.proc p).receiving ≠ 0 ∨ (k.proc p).msgCount < MAX_MESSAGE_COUNT))

/-- **`SYSCALL_SEND`** to an existing process: the page is accepted, or the queue is full. -/
theorem sendTo_spec (h : k.Inv phy pool) (hp : p ∈ k.processTable) (hs : k.Sendable a b) :
    Yields (k.sendTo p source (frameAt (k.pde k.currentProc a)) b) fun k' => Keeps k phy pool k' ∧
      ((k.HasRoom p ∧ ∃ k₁, k' = k₁.setAx k₁.currentThread 1 ∧ Accepted k p source a b k₁) ∨
        (¬ k.HasRoom p ∧ k' = k.setAx k.currentThread 0)) := by
  unfold sendTo
  rw [← pte_of_pde hs.table]
  by_cases hr : (k.proc p).receiving ≠ 0
  · rw [if_pos hr]
    obtain ⟨t, ht, hok, hf⟩ := (h.procOk hp).findBlocked hr
    -- there is a blocked thread, so the scan finds one
    have hscan : Kernel.findBlocked k.thr none
        ((k.modProc p fun P => { P with receiving := sub32 P.receiving 1 }).proc p).thread =
          .ok t := by
      rw [modProc_proc_self]
      exact hok
    simp only [modProc_thr, hscan, ok_bind]
    exact (sendBlocked_spec h hp ht hf hs).mono fun _ hk => ⟨hk.1, Or.inl ⟨Or.inl hr, hk.2⟩⟩
  · rw [if_neg hr]
    have hr0 : (k.proc p).receiving = 0 := not_not.mp hr
    by_cases hc : (k.proc p).msgCount < MAX_MESSAGE_COUNT
    · rw [if_pos hc]
      exact (sendQueue_spec h hp hr0 hc hs).mono fun _ hk => ⟨hk.1, Or.inl ⟨Or.inr hc, hk.2⟩⟩
    · rw [if_neg hc]
      exact ⟨⟨(sameButRegs_setAx 0).inv h, (sameButRegs_setAx 0).half⟩,
        Or.inr ⟨fun hroom => hroom.elim hr hc, rfl⟩⟩

/-! ## The whole call -/

/-- The source the receiver is told. -/
def sendSource (k : Kernel) (ebx : Nat) : Nat :=
  if ebx = 0 then (k.proc k.currentProc).pid else ebx

/-- The call sends its page to `p`. -/
structure Sends (k : Kernel) (edx ecx p : Nat) : Prop where
  user : ecx < PAGE_OFFSET
  aligned : ecx % PAGE_SIZE = 0
  table : (k.pde k.currentProc (va2pde ecx)).testBit 0 = true
  present : (k.pte k.currentProc (va2pde ecx) (va2pte ecx)).testBit 0 = true
  owned : isPhy (k.pte k.currentProc (va2pde ecx) (va2pte ecx)) = false
  found : k.getProcessById edx = some p
  room : k.HasRoom p

inductive Sent (k : Kernel) (edx ecx ebx : Nat) (k' : Kernel) : Prop where
  | accepted {p : Nat} {k₁ : Kernel} (sends : k.Sends edx ecx p)
      (member : p ∈ k.processTable) (sendable : k.Sendable (va2pde ecx) (va2pte ecx))
      (accepted : Accepted k p (k.sendSource ebx) (va2pde ecx) (va2pte ecx) k₁)
      (eq : k' = k₁.setAx k₁.currentThread 1)
  | refused {v : Nat} (idle : ∀ p, ¬ k.Sends edx ecx p)
      (status : v = 0 ∨ v = 0xFFFFFFFF ∨ v = 0xFFFFFFFE)
      (eq : k' = k.setAx k.currentThread v)

theorem getProcessById_mem {id : Nat} (h : k.getProcessById id = some p) :
    p ∈ k.processTable :=
  List.mem_of_mem_tail (List.mem_of_find?_eq_some h)

/-- **`SYSCALL_SEND`** keeps the invariant and the kernel half. -/
theorem sysSend_spec {edx ecx ebx : Nat} (h : k.Inv phy pool) :
    Yields (k.sysSend edx ecx ebx) fun k' => Keeps k phy pool k' ∧ Sent k edx ecx ebx k' := by
  have hrefuse : ∀ v, (∀ p, ¬ k.Sends edx ecx p) → v = 0 ∨ v = 0xFFFFFFFF ∨ v = 0xFFFFFFFE →
      Keeps k phy pool (k.setAx k.currentThread v) ∧
        Sent k edx ecx ebx (k.setAx k.currentThread v) := fun v hno hv =>
    ⟨⟨(sameButRegs_setAx v).inv h, (sameButRegs_setAx v).half⟩, .refused hno hv rfl⟩
  unfold sysSend
  rw [frameAt_cr3 h.layout h.threads.running]
  show Yields (if _ then _ else _) _
  split
  · next hc =>
    obtain ⟨hlt, halign, hpde, hpte, hphy⟩ := hc
    have h0 : k.pde k.currentProc (va2pde ecx) ≠ 0 := ne_zero_of_testBit hpde
    -- the page can be sent
    have hs : k.Sendable (va2pde ecx) (va2pte ecx) :=
      ⟨va2pde_user hlt, va2pte_lt ecx, h0, by rw [pte_of_pde h0]; exact hpte,
        by rw [pte_of_pde h0]; exact hphy⟩
    cases hfound : k.getProcessById edx with
    | none =>
      refine hrefuse _ (fun p hp => ?_) (Or.inr (Or.inl rfl))
      exact nomatch hfound.symm.trans hp.found
    | some p =>
      have hp := getProcessById_mem hfound
      show Yields (k.sendTo p (k.sendSource ebx) _ _) _
      refine (sendTo_spec h hp hs).mono fun k' hk' => ?_
      rcases hk' with ⟨hkeep, ⟨hroom, k₁, hk₁, hacc⟩ | ⟨hfull, heq⟩⟩
      · exact ⟨hkeep, .accepted ⟨hlt, halign, hpde, hs.present, hs.owned, hfound, hroom⟩ hp hs
          hacc hk₁⟩
      · refine ⟨hkeep, .refused (fun q hq => hfull ?_) (Or.inl rfl) heq⟩
        rw [Option.some.inj (hfound.symm.trans hq.found)]
        exact hq.room
  · next hc =>
    refine hrefuse _ (fun p hp => hc ?_) (Or.inr (Or.inr rfl))
    have h0 : k.pde k.currentProc (va2pde ecx) ≠ 0 := ne_zero_of_testBit hp.table
    have hpte := pte_of_pde h0 (j := va2pte ecx)
    exact ⟨hp.user, hp.aligned, hp.table, hpte ▸ hp.present, hpte ▸ hp.owned⟩

end Kernel

end NorlitOS
