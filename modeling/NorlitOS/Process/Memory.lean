import NorlitOS.Process.Ownership
import NorlitOS.Process.Pages

/-!
# The memory of a process

Between two kernel entries the running process stores words through its page tables. `Moves` is the
machine with these steps: a kernel entry without physical mappings, or a store at an address of the
user half that is mapped. What a process has stored stays where it is until the process runs again,
and a store changes one word of one process.

All this is about the user half. The paging of NorlitOS maps the kernel half as `0x7`, writable for
programs, so a program that stores at or above `PAGE_OFFSET` reaches every frame, and the frames of
other processes with it. Programs that do this are left out: nothing here is true of them.
-/

namespace NorlitOS

open Dyadic Ledger

namespace Kernel

variable {k k' k₁ k₂ : Kernel} {phy : Prop} {pool : Set Nat}
  {p q t i j f x y v w ip kernelPDE : Nat} {regs : StackFrame} {ev : Event}

/-! ## Words

An address of the user half names a word through two levels of tables. Since no frame is mapped
twice, the word determines the process and, but for the two lowest bits, the address. -/

/-- The entry that maps the page of `x` in `p`. -/
def entryOf (k : Kernel) (p x : Nat) : Nat := k.pte p (va2pde x) (va2pte x)

/-- The word of its page that `x` lies in. -/
def wordIndex (x : Nat) : Nat := x % PAGE_SIZE / 4

/-- The address `x` of the user half is mapped in `p`. Addresses of the kernel half do not count,
though they are mapped for programs too. -/
def Mapped (k : Kernel) (p x : Nat) : Prop := x < PAGE_OFFSET ∧ k.entryOf p x ≠ 0

instance (k : Kernel) (p x : Nat) : Decidable (k.Mapped p x) :=
  inferInstanceAs (Decidable (x < PAGE_OFFSET ∧ k.entryOf p x ≠ 0))

/-- The word the process `p` finds at `x` in its user half, if any. -/
def wordAt (k : Kernel) (p x : Nat) : Option Nat :=
  if k.Mapped p x then some (k.table (frameAt (k.entryOf p x)) (wordIndex x)) else none

/-- A store instruction of the running process. -/
def store (k : Kernel) (x v : Nat) : Kernel :=
  k.setWord (frameAt (k.entryOf k.currentProc x)) (wordIndex x) v

/-- At a mapped address there is a word. -/
theorem wordAt_of_mapped (h : k.Mapped p x) :
    k.wordAt p x = some (k.table (frameAt (k.entryOf p x)) (wordIndex x)) := if_pos h

/-- At any other there is none. -/
theorem wordAt_eq_none : k.wordAt p x = none ↔ ¬ k.Mapped p x := by
  unfold wordAt
  split
  · next h => exact iff_of_false (by simp) (not_not.mpr h)
  · next h => exact iff_of_true rfl h

/-- A mapped page has an owner, and it is the entry that maps it. -/
theorem Inv.frameOf_entryOf (h : k.Inv False pool) (hp : p ∈ k.processTable) (hm : k.Mapped p x) :
    k.frameOf (.pte p (va2pde x) (va2pte x)) = some (frameAt (k.entryOf p x)) := by
  have hi := va2pde_user hm.1
  have hj := va2pte_lt x
  rw [frameOf_pte hp hi hj]
  refine entryFrame_of hm.2 ?_
  cases hphy : isPhy (k.pte p (va2pde x) (va2pte x)) with
  | true => exact ((h.layout.entry hp hi hj hm.2).normal hphy).elim
  | false => rfl

/-- The page behind a mapped address is in use, by the invariant of ownership. -/
theorem Inv.inUse_entryOf (h : k.Inv False pool) (hp : p ∈ k.processTable) (hm : k.Mapped p x) :
    k.InUse (frameAt (k.entryOf p x)) :=
  h.inUse (h.frameOf_entryOf hp hm) (fun _ => by simp) fun _ _ => by simp

/-- Two words of user halves that are one are a word of one process at one address. -/
theorem Inv.word_unique (h : k.Inv False pool) (hp : p ∈ k.processTable) (hq : q ∈ k.processTable)
    (hx : k.Mapped p x) (hy : k.Mapped q y)
    (hframe : frameAt (k.entryOf q y) = frameAt (k.entryOf p x))
    (hword : wordIndex y = wordIndex x) : q = p ∧ y / 4 = x / 4 := by
  have howner := h.owned.owner_unique (h.frameOf_entryOf hq hy)
    ((h.frameOf_entryOf hp hx).trans (congrArg some hframe.symm))
  obtain ⟨hqp, hpde, hpte⟩ := Owner.pte.inj howner
  refine ⟨hqp, ?_⟩
  have hx' := hx.1
  have hy' := hy.1
  unfold PAGE_OFFSET at hx' hy'
  unfold wordIndex PAGE_SIZE at hword
  unfold va2pde at hpde
  unfold va2pte at hpte
  omega

/-! ## Stores of a process

A store writes into a page of the running process. It cannot reach a page table, since these have
owners of their own, so the mappings stay and one word changes. -/

section Store

variable (h : k.Inv False pool) (hx : k.Mapped k.currentProc x)

include h hx

theorem Inv.pte_store (hq : q ∈ k.processTable) (ha : i < USER_PDES) (b : Nat) :
    (k.store x v).pte q i b = k.pte q i b :=
  (h.inUse_entryOf h.threads.running hx).toFresh.pte_setPage hq ha b

/-- No directory and no table is written, so the kernel goes on as before. -/
theorem Inv.store : (k.store x v).Inv False pool := by
  have hf := (h.inUse_entryOf h.threads.running hx).toFresh
  have hS : SameRunning k (k.store x v) :=
    ⟨rfl, rfl, rfl, rfl, rfl, fun q hq _ a ha b => h.pte_store hx hq ha b⟩
  refine ⟨?_, h.layout.setPage_fresh hf, hS.threads h⟩
  have hframes : (k.store x v).frameOf = k.frameOf := hf.frameOf_setPage
  rw [hframes]
  exact h.owned

/-- What is mapped stays mapped, and nothing else is. -/
theorem Inv.mapped_store (hq : q ∈ k.processTable) : (k.store x v).Mapped q y ↔ k.Mapped q y := by
  unfold Mapped entryOf
  refine and_congr_right fun hy => ?_
  rw [h.pte_store hx hq (va2pde_user hy)]

/-- **A store changes one word of one process.** -/
theorem Inv.wordAt_store (hq : q ∈ k.processTable) : (k.store x v).wordAt q y =
    if q = k.currentProc ∧ y / 4 = x / 4 then some v else k.wordAt q y := by
  have hrun := h.threads.running
  by_cases hy : k.Mapped q y
  · have hentry : (k.store x v).entryOf q y = k.entryOf q y :=
      h.pte_store hx hq (va2pde_user hy.1) _
    rw [wordAt_of_mapped ((h.mapped_store hx hq).mpr hy), hentry, wordAt_of_mapped hy]
    unfold Kernel.store
    rw [setWord_table]
    by_cases hsame : q = k.currentProc ∧ y / 4 = x / 4
    · obtain ⟨rfl, hword⟩ := hsame
      -- the same word of the same page
      have hpage : k.entryOf k.currentProc y = k.entryOf k.currentProc x := by
        unfold entryOf va2pde va2pte
        rw [show y % 2 ^ 32 / 2 ^ 22 = x % 2 ^ 32 / 2 ^ 22 by omega,
          show y % 2 ^ 22 / 2 ^ 12 = x % 2 ^ 22 / 2 ^ 12 by omega]
      have hindex : wordIndex y = wordIndex x := by
        unfold wordIndex PAGE_SIZE
        omega
      rw [if_pos ⟨by rw [hpage], hindex⟩, if_pos ⟨rfl, hword⟩]
    · rw [if_neg hsame, if_neg fun hc => hsame (h.word_unique hrun hq hx hy hc.1 hc.2)]
  · have hy' : ¬ (k.store x v).Mapped q y := fun hm => hy ((h.mapped_store hx hq).mp hm)
    rw [wordAt_eq_none.mpr hy, wordAt_eq_none.mpr hy', if_neg]
    rintro ⟨rfl, hword⟩
    refine hy ⟨?_, ?_⟩
    · have hlt := hx.1
      unfold PAGE_OFFSET at hlt ⊢
      omega
    · have hne := hx.2
      unfold entryOf va2pde va2pte at hne ⊢
      rwa [show y % 2 ^ 32 / 2 ^ 22 = x % 2 ^ 32 / 2 ^ 22 by omega,
        show y % 2 ^ 22 / 2 ^ 12 = x % 2 ^ 22 / 2 ^ 12 by omega]

end Store

/-! ## What a process undergoes while another one runs

Between two turns of a process the kernel may deliver messages to it and change its `flag` and
`ticks`. `Spares` excludes the entries that dispose the process or one of its threads, whoever
asks for them. -/

/-- While another process runs, `q` stays as it is, or a message is delivered to it. -/
def Undergoes (k : Kernel) (q : Nat) (k' : Kernel) : Prop :=
  Untouched k k' q ∨ (q ∈ k'.processTable ∧ Delivered k q k')

/-- The entry disposes neither `q` nor a thread of `q`. -/
def Spares (k : Kernel) (q : Nat) : Event → Prop
  | .disposeProcess p => p ≠ q
  | .systemCall regs => (regs.ax = 3 → k.disposeTarget regs.dx ∉ (k.proc q).thread) ∧
      (6 < regs.ax → k.currentProc ≠ q)
  | .pageFault _ cr2 => ¬ k.GrowsStack cr2 → k.currentProc ≠ q
  | .exception _ => k.currentProc ≠ q
  | .createProcess _ _ _ | .interrupt _ _ | .tick _ => True

/-- Without physical pages is a special case. -/
theorem Inv.permissive (h : k.Inv False pool) : k.Inv True pool where
  owned := h.owned
  layout := { h.layout with
    entry := fun hp hi hj h0 => ⟨(h.layout.entry hp hi hj h0).present, fun _ => trivial⟩ }
  threads := h.threads

/-- Any process but `q` may be disposed. -/
theorem Exited.untouched_of_ne (hE : Exited k pool p k') (hq : q ∈ k.processTable) (hqp : q ≠ p) :
    Untouched k k' q where
  live := by
    rw [hE.processTable]
    exact (List.mem_erase_of_ne hqp).mpr hq
  proc := hE.other q hqp
  thr u _ := by rw [hE.thr]
  pte a ha b := hE.pte q hq hqp a ha b

theorem Disposed.untouched_of_ne (hD : Disposed k pool p t k') (hq : q ∈ k.processTable)
    (hqp : q ≠ p) : Untouched k k' q where
  live := by
    rw [hD.processTable]
    split
    · exact (List.mem_erase_of_ne hqp).mpr hq
    · exact hq
  proc := hD.other q hqp
  thr u _ := by rw [hD.thr]
  pte a ha b := hD.pte q hq hqp a ha b

theorem Created.untouched (hC : Created k phy pool p k') (hq : q ∈ k.processTable) :
    Untouched k k' q where
  live := hC.ring.mem_iff.mpr (List.mem_cons_of_mem _ hq)
  proc := by rw [hC.other q fun hqp => hC.new (hqp ▸ hq)]
  thr u hu := hC.thr q hq u hu
  pte a ha b := hC.pte q hq a ha b

theorem SameButTicks.untouched (hT : SameButTicks k k') (hq : q ∈ k.processTable) :
    Untouched k k' q where
  live := hT.processTable ▸ hq
  proc := by rw [hT.proc]
  thr u _ := by rw [hT.thr]
  pte a _ b := hT.sameMaps.pte q a b

theorem SameButRegs.refl (k : Kernel) : SameButRegs k k :=
  ⟨rfl, rfl, rfl, rfl, rfl, rfl, fun t => ⟨(k.thr t).regs, rfl, fun _ => rfl⟩⟩

section Entry

variable (h : k.Inv False pool) (hq : q ∈ k.processTable) (hne : q ≠ k.currentProc)

include h hq hne

/-- A message of the hardware. -/
theorem Interrupted.undergoes (hI : Interrupted (k.save regs) p k') (hp : p ∈ k.processTable) :
    Undergoes k q k' := by
  have hsave := (sameButRegs_save regs).untouched h hq hne
  -- the message is for `q`, or for another process
  cases hI with
  | handed ht hf _ _ hH =>
    by_cases hqp : q = p
    · subst hqp
      refine Or.inr ⟨hH.processTable.symm ▸ hq, ?_⟩
      exact (hH.delivered ht hf).of_sameButRegs h hq hne (sameButRegs_save regs)
        (SameButRegs.refl k') hH.currentThread
    · exact Or.inl (hsave.trans (hH.untouched h.save hq hne hp ht hqp))
  | queued _ _ _ _ hQ =>
    by_cases hqp : q = p
    · subst hqp
      refine Or.inr ⟨hQ.processTable.symm ▸ hq, ?_⟩
      have hD : Delivered (k.save regs) q k' := hQ.delivered hq hne
      exact hD.of_sameButRegs h hq hne (sameButRegs_save regs) (SameButRegs.refl k')
        hQ.currentThread
    · exact Or.inl (hsave.trans (hQ.untouched hq hne hqp))
  | full _ _ heq =>
    rw [heq]
    exact Or.inl hsave

/-- **One kernel entry** that spares a process which does not run. -/
theorem step_undergoes (hs : k.EntersOwning ev k') (hspare : k.Spares q ev) : Undergoes k q k' := by
  obtain ⟨howning, hadm, hok⟩ := hs
  have hcare := careful_of_owning h hadm howning
  have hsave : ∀ regs, Untouched k (k.save regs) q := fun regs =>
    (sameButRegs_save regs).untouched h hq hne
  -- an entry of each kind, by the spec lemma of the code behind it
  cases ev with
  | createProcess ip privilege priority =>
    obtain ⟨r, hcreate, hlast⟩ := bind_eq_ok.mp hok
    obtain rfl := Except.ok.inj hlast
    exact Or.inl (((createProcess_spec h).elim hcreate).2.untouched hq)
  | disposeProcess p =>
    refine Or.inl (((disposeProcess_spec h hadm.mem hcare).elim hok).2.untouched_of_ne hq ?_)
    exact fun hqp => hspare hqp.symm
  | systemCall regs =>
    by_cases h3 : regs.ax = 3
    · obtain ⟨p, hp, ht, -⟩ := hadm.1 h3
      have hsys : (k.save regs).sysDisposeThread regs.dx = .ok k' := by
        change (k.save regs).systemCall regs.ax regs.dx regs.cx regs.bx = .ok k' at hok
        rw [h3] at hok
        exact hok
      have hwin := hcare.2.1 h3
      rw [(h.procOk hp).back _ ht] at hwin
      have hD := ((sysDisposeThread_spec (k := k.save regs) h.save hp ht
        (normalWindow_save.mpr hwin)).elim hsys).2
      exact Or.inl ((hsave regs).trans (hD.untouched_of_ne hq fun hqp => hspare.1 h3 (hqp ▸ ht)))
    · have hI := isolated_of_own h.permissive (fun _ => hcare) (fun hc => absurd hc h3) hok hq hne
      exact hI.imp_right fun hD => hD.2.2
  | interrupt regs p =>
    exact ((sendInterrupt_spec h.save hadm).elim hok).2.undergoes h hq hne hadm
  | tick regs =>
    obtain ⟨-, k₁, hT, hS⟩ := (timerTick_spec h.save).elim hok
    have h₁ := (hsave regs).trans (hT.untouched hq)
    exact Or.inl (h₁.trans (hS.untouched (hT.inv h.save) h₁.live))
  | pageFault regs cr2 =>
    change (if growsStack _ cr2 then _ else _) = _ at hok
    split at hok
    · next hg =>
      have hz : (k.save regs).pte k.currentProc (va2pde cr2) (va2pte cr2) = 0 := by
        rw [save_pte]
        refine hadm.1 ?_
        rw [growsStack_save] at hg
        exact hg
      obtain ⟨k₁, f, -, hT, hR⟩ := (growStack_replaced h.save hg hz).elim hok
      have hcur : q ≠ k₁.currentProc := hT.currentProc.symm ▸ hne
      refine Or.inl ((hsave regs).trans ⟨?_, ?_, fun u _ => ?_, fun a ha b => ?_⟩)
      · rw [hR.processTable, hT.processTable]
        exact hq
      · rw [hR.proc, hT.proc]
      · rw [hR.thr, hT.thr]
      · rw [hR.pte q (hT.processTable.symm ▸ hq) a ha b, if_neg fun hc => hcur hc.1,
          hT.pte q hq a ha b]
    · next hg =>
      rw [growsStack_save] at hg
      exact Or.inl ((hsave regs).trans (((exceptionHandler_spec h.save
        (normalWindows_save.mpr (hcare hg))).elim hok).2.untouched_of_ne hq hne))
  | exception regs =>
    exact Or.inl ((hsave regs).trans (((exceptionHandler_spec h.save
      (normalWindows_save.mpr hcare)).elim hok).2.untouched_of_ne hq hne))

end Entry

/-! ## Steps of the machine

`Unharmed` compares two moments between which a process did not run. It is transitive, so that a
run comes down to its steps. A page that was mapped keeps its contents, and a page that was not
mapped appears only where a thread waits for it. -/

/-- A kernel entry, or a store of the running process in its user half. -/
inductive Action where
  | enter (ev : Event)
  | store (x v : Nat)

/-- One step of the machine without physical mappings and without stores of programs in the kernel
half: there `Mapped` has no address. -/
inductive Moves (k : Kernel) : Action → Kernel → Prop where
  | enter {ev : Event} {k' : Kernel} (entered : k.EntersOwning ev k') : Moves k (.enter ev) k'
  | store {x v : Nat} (mapped : k.Mapped k.currentProc x) : Moves k (.store x v) (k.store x v)

/-- A step that disposes nothing of `q`. -/
def MovesSparing (q : Nat) (k : Kernel) (a : Action) (k' : Kernel) : Prop :=
  (∀ ev, a = .enter ev → k.Spares q ev) ∧ k.Moves a k'

/-- The same while another process runs. -/
def MovesAside (q : Nat) (k : Kernel) (a : Action) (k' : Kernel) : Prop :=
  q ≠ k.currentProc ∧ MovesSparing q k a k'

/-- A thread of `q` waits for a message at the page of `x`. -/
def Awaited (k : Kernel) (q x : Nat) : Prop :=
  ∃ t ∈ (k.proc q).thread, (k.thr t).flag = 2 ∧ x / PAGE_SIZE = (k.thr t).regs.cx / PAGE_SIZE

/-- The process `q` of `k` is there in `k'`, with its threads, its pages and what is in them. Where
a thread waited, a message may have come. -/
structure Unharmed (k : Kernel) (q : Nat) (k' : Kernel) : Prop where
  live : q ∈ k'.processTable
  thread : (k'.proc q).thread = (k.proc q).thread
  thr : ∀ t ∈ (k.proc q).thread, k'.thr t = k.thr t ∨
    ((k.thr t).flag = 2 ∧ ∃ source, k'.thr t = answered source (k.thr t))
  entry : ∀ x < PAGE_OFFSET, k'.entryOf q x = k.entryOf q x ∨ k.Awaited q x
  word : ∀ x v, k.wordAt q x = some v → k'.wordAt q x = some v

theorem Unharmed.refl (hq : q ∈ k.processTable) : Unharmed k q k :=
  ⟨hq, rfl, fun _ _ => Or.inl rfl, fun _ _ => Or.inl rfl, fun _ _ h => h⟩

/-- A thread that still waits is as it was. -/
theorem Unharmed.blocked (h : Unharmed k q k') (ht : t ∈ (k.proc q).thread)
    (hf : (k'.thr t).flag = 2) : k'.thr t = k.thr t := by
  cases h.thr t ht with
  | inl hsame => exact hsame
  | inr hwoken =>
    obtain ⟨-, source, heq⟩ := hwoken
    rw [heq] at hf
    exact absurd hf (by simp [answered])

/-- No thread begins to wait while its process does not run. -/
theorem Unharmed.awaited (h : Unharmed k q k') (ha : k'.Awaited q x) : k.Awaited q x := by
  obtain ⟨t, ht, hf, hx⟩ := ha
  rw [h.thread] at ht
  have hsame := h.blocked ht hf
  rw [hsame] at hf hx
  exact ⟨t, ht, hf, hx⟩

/-- From one moment to the next and on. -/
theorem Unharmed.trans (h₁ : Unharmed k q k₁) (h₂ : Unharmed k₁ q k₂) : Unharmed k q k₂ where
  live := h₂.live
  thread := h₂.thread.trans h₁.thread
  thr t ht := by
    rcases h₂.thr t (h₁.thread.symm ▸ ht) with hsame | ⟨hf, source, heq⟩
    · rw [hsame]
      exact h₁.thr t ht
    · have hsame := h₁.blocked ht hf
      rw [hsame] at hf heq
      exact Or.inr ⟨hf, source, heq⟩
  entry x hx := by
    rcases h₂.entry x hx with hsame | ha
    · rw [hsame]
      exact h₁.entry x hx
    · exact Or.inr (h₁.awaited ha)
  word x v hv := h₂.word x v (h₁.word x v hv)

/-- Two addresses of the user half with the same entry are in one page. -/
theorem same_page (hx : x < PAGE_OFFSET) (hy : y < PAGE_OFFSET) (hi : va2pde x = va2pde y)
    (hj : va2pte x = va2pte y) : x / PAGE_SIZE = y / PAGE_SIZE := by
  unfold PAGE_OFFSET at hx hy
  unfold va2pde at hi
  unfold va2pte at hj
  unfold PAGE_SIZE
  omega

theorem Undergoes.live (h : Undergoes k q k') : q ∈ k'.processTable :=
  h.elim (fun hU => hU.live) fun hD => hD.1

/-- The process keeps its threads. -/
theorem Undergoes.thread (h : Undergoes k q k') : (k'.proc q).thread = (k.proc q).thread := by
  rcases h with hU | ⟨-, hD⟩
  · exact hU.thread
  · cases hD with
    | queued proc _ _ =>
      rw [proc, enqueue, modProc_proc_self]
    | handed _ _ proc _ _ _ _ =>
      rw [proc]
      rfl

/-- They stay as they are, but for the answer to a `RECEIVE`. -/
theorem Undergoes.thr (h : Undergoes k q k') (ht : t ∈ (k.proc q).thread) : k'.thr t = k.thr t ∨
    ((k.thr t).flag = 2 ∧ ∃ source, k'.thr t = answered source (k.thr t)) := by
  rcases h with hU | ⟨-, hD⟩
  · exact Or.inl (hU.thr t ht)
  · cases hD with
    | queued _ thr _ => exact Or.inl (thr t ht)
    | @handed u source x _ blocked _ self thr _ _ =>
      by_cases htu : t = u
      · rw [htu]
        exact Or.inr ⟨blocked, source, self⟩
      · exact Or.inl (thr t ht htu)

/-- The mappings stay, but for the page of a thread that waited. -/
theorem Undergoes.entry (h : Undergoes k q k') (hinv : k.Inv phy pool) (hq : q ∈ k.processTable)
    (hx : x < PAGE_OFFSET) : k'.entryOf q x = k.entryOf q x ∨ k.Awaited q x := by
  have hi := va2pde_user hx
  rcases h with hU | ⟨-, hD⟩
  · exact Or.inl (hU.pte _ hi _)
  · cases hD with
    | queued _ _ pte => exact Or.inl (pte _ hi _)
    | @handed u _ _ member blocked _ _ _ _ pte =>
      by_cases hc : va2pde x = va2pde (k.thr u).regs.cx ∧ va2pte x = va2pte (k.thr u).regs.cx
      · have hB := (hinv.procOk hq).blocked u member blocked
        exact Or.inr ⟨u, member, blocked, same_page hx hB.user hc.1 hc.2⟩
      · exact Or.inl (pte _ hi _ hc)

/-- Nothing is mapped where a thread waits. -/
theorem Inv.entryOf_of_awaited (h : k.Inv phy pool) (hq : q ∈ k.processTable) (hx : x < PAGE_OFFSET)
    (ha : k.Awaited q x) : k.entryOf q x = 0 := by
  obtain ⟨t, ht, hf, hpage⟩ := ha
  have hB := (h.procOk hq).blocked t ht hf
  have hcx := hB.user
  have hz := hB.unmapped
  unfold PAGE_OFFSET at hx hcx
  unfold PAGE_SIZE at hpage
  unfold entryOf
  unfold va2pde va2pte at hz ⊢
  rw [show x % 2 ^ 32 / 2 ^ 22 = (k.thr t).regs.cx % 2 ^ 32 / 2 ^ 22 by omega,
    show x % 2 ^ 22 / 2 ^ 12 = (k.thr t).regs.cx % 2 ^ 22 / 2 ^ 12 by omega]
  exact hz

section Step

variable {a : Action} (h : k.Inv False pool)

include h

/-- **One step** keeps the invariant. -/
theorem Moves.inv (hm : k.Moves a k') : k'.Inv False pool := by
  cases hm with
  | enter hs => exact step_owning h hs
  | store hx => exact h.store hx

theorem MovesAside.undergoes (hm : MovesAside q k a k') (hq : q ∈ k.processTable) :
    Undergoes k q k' := by
  obtain ⟨hne, hspare, hm⟩ := hm
  cases hm with
  | enter hs => exact step_undergoes h hq hne hs (hspare _ rfl)
  | store hx => exact Or.inl ⟨hq, rfl, fun _ _ => rfl, fun a ha b => h.pte_store hx hq ha b⟩

/-- The page that `q` has mapped is not written. -/
theorem MovesAside.table (hm : MovesAside q k a k') (hq : q ∈ k.processTable) (hx : k.Mapped q x) :
    k'.table (frameAt (k.entryOf q x)) = k.table (frameAt (k.entryOf q x)) := by
  obtain ⟨hne, -, hm⟩ := hm
  have howner := h.frameOf_entryOf hq hx
  cases hm with
  | enter hs =>
    refine step_table h hs howner (fun p => by simp) (fun p i => by simp) fun regs _ _ hc => ?_
    exact hne (Owner.pte.inj hc).1
  | @store y v hy =>
    refine setWord_table_of_ne fun hc => hne ?_
    have hcur := h.frameOf_entryOf h.threads.running hy
    have hsame := h.owned.owner_unique howner (hcur.trans (congrArg some hc.symm))
    exact (Owner.pte.inj hsame).1

/-- **One step of another process.** -/
theorem MovesAside.unharmed (hm : MovesAside q k a k') (hq : q ∈ k.processTable) :
    Unharmed k q k' := by
  have hR := hm.undergoes h hq
  refine ⟨hR.live, hR.thread, fun t ht => hR.thr ht, fun x hx => hR.entry h hq hx, ?_⟩
  intro x v hv
  have hx : k.Mapped q x := by
    by_contra hc
    rw [wordAt_eq_none.mpr hc] at hv
    exact absurd hv (by simp)
  have hentry : k'.entryOf q x = k.entryOf q x :=
    (hR.entry h hq hx.1).resolve_right fun ha => hx.2 (h.entryOf_of_awaited hq hx.1 ha)
  have hx' : k'.Mapped q x := ⟨hx.1, by rw [hentry]; exact hx.2⟩
  rw [wordAt_of_mapped hx] at hv
  rw [wordAt_of_mapped hx', hentry, hm.table h hq hx]
  exact hv

end Step

/-! ## Runs of the machine

From the start of the system on, over kernel entries and stores in any order. -/

variable {as as' : List Action} {es : List Event}

/-- The invariants hold along every run of the machine. -/
theorem run_moves_inv (hrun : Run Moves k as k') (h : k.Inv False pool) : k'.Inv False pool :=
  hrun.invariant (I := fun k => k.Inv False pool) (fun _ _ _ h hm => hm.inv h) h

/-- A run of kernel entries is a run of the machine without stores. -/
theorem run_moves (hrun : Run EntersOwning k es k') : Run Moves k (es.map .enter) k' := by
  induction hrun with
  | nil s => exact .nil s
  | cons first _ ih => exact .cons (.enter first) ih

/-- **The memory of a process is its own**, as long as programs store in their user half. In every
state of the machine: while other processes run, and none of them disposes `q` or a thread of it, `q`
keeps its threads with their registers, the mapped pages of its user half and every word in them. All
that may change is that a thread that waits for a message gets one, with a page where it waits. -/
theorem run_unharmed (hB : k.Boot kernelPDE) (hinit : k.initProc kernelPDE ip = .ok k₁)
    (hreach : Run Moves k₁ as k₂) (hq : q ∈ k₂.processTable) (hrun : Run (MovesAside q) k₂ as' k') :
    Unharmed k₂ q k' := by
  have h₂ := run_moves_inv hreach ((initProc_spec hB).elim hinit)
  have hI : k'.Inv False k.heap.freeSet ∧ Unharmed k₂ q k' := by
    refine hrun.invariant (I := fun s => s.Inv False k.heap.freeSet ∧ Unharmed k₂ q s) ?_
      ⟨h₂, Unharmed.refl hq⟩
    rintro s a t ⟨hs, hsafe⟩ hm
    exact ⟨hm.2.2.inv hs, hsafe.trans (hm.unharmed hs hsafe.live)⟩
  exact hI.2

/-- Init and another process map a page at one address, and the other one stores there. -/
theorem run_unharmed_store : ∃ (k k₁ k₂ k' : Kernel) (as as' : List Action), k.Boot 0 ∧
    k.initProc 0 0 = .ok k₁ ∧ Run Moves k₁ as k₂ ∧ 0xC0401004 ∈ k₂.processTable ∧
      k₂.Mapped 0xC0401004 0x400000 ∧ Run (MovesAside 0xC0401004) k₂ as' k' ∧ as'.length = 2 ∧
        Unharmed k₂ 0xC0401004 k' := by
  obtain ⟨k, k₁, k₂, hB, -, hinit, hrun, hq, hx, hy, hne, hsome⟩ := run_of_booted_any
    (a := 0xC0400000) (n := 0x400000)
    (l := [.createProcess 0 0 100, call 5 0 0x400000 1, call 6 0 0 0, call 5 0 0x400000 1])
    (P := fun k => 0xC0401004 ∈ k.processTable ∧ k.Mapped 0xC0401004 0x400000 ∧
      k.Mapped k.currentProc 0x400000 ∧ 0xC0401004 ≠ k.currentProc ∧
        ((k.store 0x400000 7).replay [.tick noRegs]).isSome = true) (by decide +kernel)
  obtain ⟨k', hk'⟩ := Option.isSome_iff_exists.mp hsome
  have howning : Run EntersOwning k₁ _ k₂ := hrun.restrict (P := Owning) (by
    simp [Owning, call, noRegs, PAGE_SIZE, PAGE_OFFSET])
  -- a store of the other process, then a tick
  have haside : Run (MovesAside 0xC0401004) k₂ [.store 0x400000 7, .enter (.tick noRegs)] k' := by
    refine .cons ⟨hne, fun ev hev => Action.noConfusion hev, .store hy⟩ ?_
    cases run_of_replay hk' with
    | cons first rest =>
      cases rest
      refine .single ⟨hne, fun ev hev => ?_, .enter ⟨trivial, first⟩⟩
      rw [← Action.enter.inj hev]
      trivial
  have hreach := run_moves howning
  exact ⟨k, k₁, k₂, k', _, _, hB, hinit, hreach, hq, hx, haside, rfl,
    run_unharmed hB hinit hreach hq haside⟩

/-- **A store changes one word of one process**: a store in the user half, of all the words that
processes find in their user halves, in every state of the machine. -/
theorem run_wordAt_store (hB : k.Boot kernelPDE) (hinit : k.initProc kernelPDE ip = .ok k₁)
    (hreach : Run Moves k₁ as k₂) (hx : k₂.Mapped k₂.currentProc x) (hq : q ∈ k₂.processTable) :
    (k₂.store x v).wordAt q y =
      if q = k₂.currentProc ∧ y / 4 = x / 4 then some v else k₂.wordAt q y :=
  (run_moves_inv hreach ((initProc_spec hB).elim hinit)).wordAt_store hx hq

/-- The two processes again. -/
theorem run_wordAt_store_apart : ∃ (k k₁ k₂ : Kernel) (as : List Action), k.Boot 0 ∧
    k.initProc 0 0 = .ok k₁ ∧ Run Moves k₁ as k₂ ∧ 0xC0401004 ≠ k₂.currentProc ∧
      k₂.Mapped 0xC0401004 0x400000 ∧ k₂.Mapped k₂.currentProc 0x400000 ∧
        (k₂.store 0x400000 7).wordAt 0xC0401004 0x400000 = k₂.wordAt 0xC0401004 0x400000 := by
  obtain ⟨k, k₁, k₂, hB, -, hinit, hrun, hq, hx, hy, hne⟩ := run_of_booted_any
    (a := 0xC0400000) (n := 0x400000)
    (l := [.createProcess 0 0 100, call 5 0 0x400000 1, call 6 0 0 0, call 5 0 0x400000 1])
    (P := fun k => 0xC0401004 ∈ k.processTable ∧ k.Mapped 0xC0401004 0x400000 ∧
      k.Mapped k.currentProc 0x400000 ∧ 0xC0401004 ≠ k.currentProc) (by decide +kernel)
  have howning : Run EntersOwning k₁ _ k₂ := hrun.restrict (P := Owning) (by
    simp [Owning, call, noRegs, PAGE_SIZE, PAGE_OFFSET])
  have hreach := run_moves howning
  have hstore := run_wordAt_store (v := 7) (y := 0x400000) hB hinit hreach hy hq
  rw [if_neg fun hc => hne hc.1] at hstore
  exact ⟨k, k₁, k₂, _, hB, hinit, hreach, hne, hx, hy, hstore⟩

end Kernel

end NorlitOS
