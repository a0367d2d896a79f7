import NorlitOS.Process.Delivery
import NorlitOS.Process.Numbering

/-!
# The source of a message

`RECEIVE` returns the source of the message: `0xFFFFFFFF` for the hardware, otherwise the
identifier of the sender. `SEND` takes the source from `ebx`, so that `receive` can put a message
back into its own queue, and nothing keeps a process from naming another source to others.
-/

namespace NorlitOS

open Dyadic Ledger

namespace Kernel

variable {k k' k₀ k₁ k₂ : Kernel} {phy : Prop} {pool : Set Nat} {p q ip kernelPDE : Nat}
  {regs : StackFrame} {es es' : List Event} {ev : Event} {m : Posting}

/-- The source tells who has posted the message to `p`, unless `p` has posted it itself. -/
structure Authentic (k : Kernel) (p : Nat) (m : Posting) : Prop where
  hardware : m.source = 0xFFFFFFFF → m.origin = none ∨ m.origin = some p
  process : m.source ≠ 0xFFFFFFFF → ∃ q ∈ k.processTable, m.origin = some q ∧
    (q = p ∨ (k.proc q).pid = m.source)

/-- A `SEND` that sends a page to `p` comes from `p`, or names its sender as the source. -/
def Honest (p : Nat) (k : Kernel) : Event → Prop
  | .systemCall regs => regs.ax = 0 → k.Sends regs.dx regs.cx p →
      p = k.currentProc ∨ k.sendSource regs.bx = (k.proc k.currentProc).pid
  | _ => True

/-- With 0 in `ebx` the kernel fills in the sender. -/
theorem honest_of_zero (h : regs.bx = 0) : Honest p k (.systemCall regs) :=
  fun _ _ => Or.inr (if_pos h)

/-! ## One entry -/

theorem sends_save {edx ecx : Nat} : (k.save regs).Sends edx ecx p ↔ k.Sends edx ecx p := by
  constructor
  · intro h
    have hpresent := h.present
    have howned := h.owned
    rw [save_pte] at hpresent howned
    exact ⟨h.user, h.aligned, h.table, hpresent, howned, h.found, h.room⟩
  · intro h
    refine ⟨h.user, h.aligned, h.table, ?_, ?_, h.found, h.room⟩
    · rw [save_pte]
      exact h.present
    · rw [save_pte]
      exact h.owned

/-- What the running process posts is authentic exactly if it names itself. -/
theorem authentic_running {source frame : Nat} (hsmall : k₀.SmallIds)
    (hrun : k.currentProc ∈ k₀.processTable) (hpid : (k.proc k.currentProc).pid =
      (k₀.proc k.currentProc).pid) :
    Authentic k₀ p { origin := some k.currentProc, source := source, frame := frame } ↔
      p = k.currentProc ∨ source = (k.proc k.currentProc).pid := by
  constructor
  · intro h
    by_cases hsource : source = 0xFFFFFFFF
    · cases h.hardware hsource with
      | inl hnone => exact nomatch hnone
      | inr hself => exact Or.inl (Option.some.inj hself).symm
    · obtain ⟨q, -, horigin, hq⟩ := h.process hsource
      have hcur : k.currentProc = q := Option.some.inj horigin
      rw [hcur] at hpid ⊢
      cases hq with
      | inl hqp => exact Or.inl hqp.symm
      | inr hid => exact Or.inr (hid.symm.trans hpid.symm)
  · intro h
    refine ⟨fun hsource => ?_, fun _ => ⟨k.currentProc, hrun, rfl, ?_⟩⟩
    · cases h with
      | inl hself => exact Or.inr (congrArg some hself.symm)
      | inr hid =>
        -- no process has the identifier of the hardware
        have hle : (k₀.proc k.currentProc).pid ≤ 0x30000001 := hsmall _ hrun
        rw [← hpid, ← hid, show source = 0xFFFFFFFF from hsource] at hle
        exact absurd hle (by decide)
    · cases h with
      | inl hself => exact Or.inl hself.symm
      | inr hid => exact Or.inr (hpid.symm.trans hid.symm)

/-- `SEND`. -/
theorem Sent.authentic_iff (hS : Sent (k.save regs) regs.dx regs.cx regs.bx k') (hax : regs.ax = 0)
    (h : k.Inv phy pool) (hsmall : k₀.SmallIds) (hids : SameIds k₀ k) :
    (∀ m ∈ Kernel.accepted p k (.systemCall regs) k', Authentic k₀ p m) ↔
      Honest p k (.systemCall regs) := by
  have hrun := h.threads.running
  cases hS with
  | @accepted q k₁ hsends hq _ hacc heq =>
    have hcur : k₁.currentThread = k.currentThread := by
      cases hacc with
      | handed _ _ hH => exact hH.currentThread
      | queued _ _ hQ => exact hQ.currentThread
    have hstatus : (k'.thr k.currentThread).regs.ax = 1 := by
      rw [heq, hcur]
      exact setAx_ax 1
    have hfound : k.getProcessById regs.dx = some q := hsends.found
    by_cases hpq : p = q
    · -- the message to `p` carries the source that the sender asked for
      have haccepted : Kernel.accepted p k (.systemCall regs) k' = [_] :=
        if_pos ⟨hax, hpq ▸ hfound, hstatus⟩
      rw [haccepted, List.forall_mem_singleton,
        authentic_running hsmall (hids.mem _ hrun) (hids.pid _ hrun)]
      exact ⟨fun hor _ _ => hor, fun hhonest => hhonest hax (sends_save.mp (hpq ▸ hsends))⟩
    · -- nothing is posted to `p`
      have hother : ∀ {r}, k.getProcessById regs.dx = some r → r ≠ p := fun hr hrp =>
        hpq (hrp ▸ (Option.some.inj (hfound.symm.trans hr)).symm)
      have haccepted : Kernel.accepted p k (.systemCall regs) k' = [] :=
        if_neg fun hc => hother hc.2.1 rfl
      rw [haccepted]
      exact ⟨fun _ _ hs => absurd rfl (hother hs.found), fun _ _ hm => absurd hm List.not_mem_nil⟩
  -- a refused message is accepted for no one
  | @refused v hidle hv heq =>
    have hstatus : (k'.thr k.currentThread).regs.ax = v := by
      rw [heq]
      exact setAx_ax v
    have haccepted : Kernel.accepted p k (.systemCall regs) k' = [] := by
      refine if_neg fun hc => ?_
      rw [hc.2.2] at hstatus
      omega
    rw [haccepted]
    exact ⟨fun _ _ hs => absurd (sends_save.mpr hs) (hidle p),
      fun _ _ hm => absurd hm List.not_mem_nil⟩

/-- The other calls post nothing. -/
theorem authentic_iff_of_other (hax : regs.ax ≠ 0) :
    (∀ m ∈ accepted p k (.systemCall regs) k', Authentic k₀ p m) ↔ Honest p k (.systemCall regs) := by
  rw [accepted_receive hax]
  exact ⟨fun _ h0 => absurd h0 hax, fun _ _ hm => absurd hm List.not_mem_nil⟩

/-- **One entry** posts authentic messages to `p` exactly if it is honest. -/
theorem EntersIpc.authentic_iff (hs : k.EntersIpc ev k') (h : k.Inv phy pool)
    (hsmall : k₀.SmallIds) (hids : SameIds k₀ k) :
    (∀ m ∈ accepted p k ev k', Authentic k₀ p m) ↔ Honest p k ev := by
  cases hs.ipcStep h with
  | send hax hS => exact hS.authentic_iff hax h hsmall hids
  | receive hax _ => exact authentic_iff_of_other (by rw [hax]; decide)
  | nice hax _ => exact authentic_iff_of_other (by rw [hax]; decide)
  | interrupt hr _ =>
    refine ⟨fun _ => trivial, fun _ m hm => ?_⟩
    -- the hardware has a source of its own
    have horigin : m.origin = none ∧ m.source = 0xFFFFFFFF := by
      unfold accepted at hm
      dsimp only at hm
      split at hm
      · split at hm
        · rw [List.mem_singleton.mp hm]
          exact ⟨rfl, rfl⟩
        · exact absurd hm List.not_mem_nil
      · exact absurd hm List.not_mem_nil
    exact ⟨fun _ => Or.inl horigin.1, fun hne => absurd horigin.2 hne⟩
  | tick _ _ => exact ⟨fun _ => trivial, fun _ _ hm => absurd hm List.not_mem_nil⟩

theorem EntersIpc.sameIds (hs : k.EntersIpc ev k') (h : k.Inv True pool) : SameIds k k' := by
  refine hs.careful.sameIds h fun ip privilege priority hev => ?_
  have hipc := hs.1
  rw [hev] at hipc
  exact hipc

/-! ## Runs -/

/-- An entry of a run of messages that posts no message to `p` under a false name. -/
def EntersHonestly (p : Nat) (k : Kernel) (ev : Event) (k' : Kernel) : Prop :=
  Honest p k ev ∧ k.EntersIpc ev k'

/-- **Sources.** From every state that careful entries reach, over every run of `SEND`, `RECEIVE`
and interrupts: what a process receives is what has been queued or posted to it, and every message
posted to it has an authentic source exactly if every entry of the run is honest. -/
theorem run_authentic_iff (hB : k.Boot kernelPDE) (hinit : k.initProc kernelPDE ip = .ok k₁)
    (hreach : Run EntersCarefully k₁ es k') (hrun : Run EntersIpc k' es' k₂)
    (hp : p ∈ k'.processTable) :
    obtainedIn p k' es' ++ k₂.mail p =
      k'.mail p ++ (acceptedIn p k' es').map Posting.letter ∧
    ((∀ m ∈ acceptedIn p k' es', Authentic k' p m) ↔ Run (EntersHonestly p) k' es' k₂) := by
  obtain ⟨pool, -, h⟩ := hB.run_inv hinit hreach
  have hsmall := (hB.run_numbered hinit hreach).small
  refine ⟨(run_conserves h hrun hp).symm, ?_⟩
  refine hrun.forall_total_iff (I := fun s => (∃ pool, s.Inv True pool) ∧ SameIds k' s)
    (fun _ _ _ hs => hs.next) ?_ ?_ ⟨⟨pool, h⟩, .of_proc rfl rfl⟩
  · intro s e t hI hs
    obtain ⟨⟨pool, hinv⟩, hids⟩ := hI
    obtain ⟨hcare, hadm, hok⟩ := hs.careful
    obtain ⟨⟨pool', -, hinv'⟩, -⟩ := (step_spec hinv hadm hcare fun _ _ _ => trivial).elim hok
    exact ⟨⟨pool', hinv'⟩, hids.trans (hs.sameIds hinv)⟩
  · intro s e t hI hs
    obtain ⟨⟨pool, hinv⟩, hids⟩ := hI
    exact hs.authentic_iff hinv hsmall hids

/-- A process waits and another one sends it a page, with 0 in `ebx`. -/
theorem run_authentic_iff_send : ∃ (k k₁ k' k₂ : Kernel) (es' : List Event), k.Boot 0 ∧
    k.initProc 0 0 = .ok k₁ ∧ Run EntersCarefully k₁
      [.createProcess 0 0 100, .createProcess 0 0 50, call 6 0 0 0] k' ∧
    Run (EntersHonestly 0xC0406004) k' es' k₂ ∧ (acceptedIn 0xC0406004 k' es').length = 1 ∧
      ∀ m ∈ acceptedIn 0xC0406004 k' es', Authentic k' 0xC0406004 m := by
  obtain ⟨k, k₁, k', hB, -, hinit, hrun, hsome, hp, hone⟩ := run_of_booted_any (a := 0xC0400000)
    (n := 0x400000) (l := [.createProcess 0 0 100, .createProcess 0 0 50, call 6 0 0 0])
    (P := fun k => (k.replay [call 1 0 0x400000 0, call 0 1 0xBFFFF000 0]).isSome = true ∧
      0xC0406004 ∈ k.processTable ∧
        (acceptedIn 0xC0406004 k [call 1 0 0x400000 0, call 0 1 0xBFFFF000 0]).length = 1)
    (by decide +kernel)
  obtain ⟨k₂, hk₂⟩ := Option.isSome_iff_exists.mp hsome
  have hreach := run_of_plain (by simp [Plain, call, noRegs]) hrun
  have hipc := run_ipc (by simp [Ipc, call, noRegs]) (run_of_replay hk₂)
  -- both calls leave the source to the kernel
  have hzero : ∀ e ∈ [call 1 0 0x400000 0, call 0 1 0xBFFFF000 0], ∀ k, Honest 0xC0406004 k e := by
    intro e he k
    cases he with
    | head => exact honest_of_zero rfl
    | tail _ he =>
      rw [List.mem_singleton.mp he]
      exact honest_of_zero rfl
  have hhonest : Run (EntersHonestly 0xC0406004) k' _ k₂ :=
    (hipc.restrict hzero).mono fun s _ _ hs => ⟨hs.1 s, hs.2⟩
  exact ⟨k, k₁, k', k₂, _, hB, hinit, hreach, hhonest, hone,
    (run_authentic_iff hB hinit hreach hipc hp).2.mpr hhonest⟩

/-- A process sends another one a message that seems to come from the hardware. -/
theorem not_run_authentic : ¬ ∀ (k k₁ k' k₂ : Kernel) (kernelPDE ip p : Nat) (es es' : List Event),
    k.Boot kernelPDE → k.initProc kernelPDE ip = .ok k₁ → Run Enters k₁ es k' →
      Run EntersIpc k' es' k₂ → p ∈ k'.processTable → ∀ m ∈ acceptedIn p k' es',
        m.letter ∈ obtainedIn p k' es' → Authentic k' p m := by
  intro hall
  obtain ⟨k, k₁, k', hB, -, hinit, hrun, hsome, hp, m, hm, hgot, hsource, q, -, horigin, hqp⟩ :=
    run_of_booted_any (a := 0xC0400000)
    (n := 0x400000) (l := [.createProcess 0 0 100, .createProcess 0 0 50, call 6 0 0 0])
    (P := fun k => (k.replay [call 1 0 0x400000 0, call 0 1 0xBFFFF000 0xFFFFFFFF]).isSome = true ∧
      0xC0406004 ∈ k.processTable ∧
        ∃ m ∈ acceptedIn 0xC0406004 k [call 1 0 0x400000 0, call 0 1 0xBFFFF000 0xFFFFFFFF],
          m.letter ∈ obtainedIn 0xC0406004 k
            [call 1 0 0x400000 0, call 0 1 0xBFFFF000 0xFFFFFFFF] ∧
          m.source = 0xFFFFFFFF ∧ ∃ q ∈ k.processTable, m.origin = some q ∧ q ≠ 0xC0406004)
    (by decide +kernel)
  obtain ⟨k₂, hk₂⟩ := Option.isSome_iff_exists.mp hsome
  have hipc := run_ipc (by simp [Ipc, call, noRegs]) (run_of_replay hk₂)
  have hauth := hall k k₁ k' k₂ 0 0 _ _ _ hB hinit hrun hipc hp m hm hgot
  -- the source is that of the hardware, and a process has sent it
  cases hauth.hardware hsource with
  | inl hnone => cases horigin.symm.trans hnone
  | inr hself => exact hqp (Option.some.inj (horigin.symm.trans hself))

end Kernel

end NorlitOS
