import NorlitOS.Process.Mapping

/-!
# What the scheduler changes

`schedule` gives the running process a flag, picks a ready process and makes it the running one.
Nothing else changes besides ticks and the directory entry of the processor's own page. A
process that is not ready is never picked, so a blocked process stays as it is.
-/

namespace NorlitOS

open Ledger

namespace Kernel

variable {k k' : Kernel} {phy : Prop} {pool : Set Nat} {p q flag : Nat}

/-! ## The search

`mostTicks` goes through the ring of processes and keeps the ready one with the most ticks. Where
it finds none, the ticks are filled up from the priorities and the search is made again. All it
changes is ticks. -/

/-- What is found is a ready process of the ring, or the one found before. -/
theorem mostTicks_spec {proc : Nat → Process} {ring : List Nat} {greatest : Int}
    {ready : Option Nat} (h : mostTicks proc ring greatest ready = some p) :
    (p ∈ ring ∧ (proc p).flag = 0) ∨ ready = some p := by
  induction ring generalizing greatest ready with
  | nil => exact Or.inr h
  | cons q ring ih =>
    rw [mostTicks] at h
    split at h
    -- the head is ready and has more ticks than the best so far
    · next hq =>
      rcases ih h with ⟨hmem, hflag⟩ | heq
      · exact Or.inl ⟨List.mem_cons_of_mem q hmem, hflag⟩
      · obtain rfl := Option.some.inj heq
        exact Or.inl ⟨List.mem_cons_self, hq.1⟩
    · rcases ih h with ⟨hmem, hflag⟩ | heq
      · exact Or.inl ⟨List.mem_cons_of_mem q hmem, hflag⟩
      · exact Or.inr heq

/-- Two states that differ in ticks only. -/
structure SameButTicks (k k' : Kernel) : Prop where
  heap : k'.heap = k.heap
  table : k'.table = k.table
  thr : k'.thr = k.thr
  processTable : k'.processTable = k.processTable
  currentProc : k'.currentProc = k.currentProc
  currentThread : k'.currentThread = k.currentThread
  proc : ∀ q, k'.proc q = { k.proc q with ticks := (k'.proc q).ticks }

theorem SameButTicks.refl (k : Kernel) : SameButTicks k k :=
  ⟨rfl, rfl, rfl, rfl, rfl, rfl, fun _ => rfl⟩

theorem SameButTicks.trans {k₁ k₂ k₃ : Kernel} (h₁ : SameButTicks k₁ k₂)
    (h₂ : SameButTicks k₂ k₃) : SameButTicks k₁ k₃ := by
  refine ⟨h₂.heap.trans h₁.heap, h₂.table.trans h₁.table, h₂.thr.trans h₁.thr,
    h₂.processTable.trans h₁.processTable, h₂.currentProc.trans h₁.currentProc,
    h₂.currentThread.trans h₁.currentThread, fun q => ?_⟩
  rw [h₂.proc q, h₁.proc q]

/-- One process gets other ticks. -/
theorem sameButTicks_modProc {f : Process → Int} :
    SameButTicks k (k.modProc p fun P => { P with ticks := f P }) := by
  refine ⟨rfl, rfl, rfl, rfl, rfl, rfl, fun q => ?_⟩
  rw [modProc_proc]
  split
  · next h => rw [h]
  · rfl

/-- The loop that fills up the ticks. -/
theorem refill_sameButTicks (ring : List Nat) : SameButTicks k (k.refill ring) := by
  induction ring generalizing k with
  | nil => exact SameButTicks.refl k
  | cons p ring ih =>
    rw [refill]
    split
    · exact sameButTicks_modProc.trans ih
    · exact ih

/-- The process picked is in the ring and ready. -/
theorem pickReady_spec : Yields k.pickReady fun r =>
    SameButTicks k r.2 ∧ r.1 ∈ k.processTable ∧ (k.proc r.1).flag = 0 := by
  unfold pickReady
  cases h : mostTicks k.proc k.processTable 0 none with
  | some p =>
    rcases mostTicks_spec h with hp | hp
    · exact ⟨SameButTicks.refl k, hp⟩
    · exact nomatch hp
  | none =>
    -- nobody has ticks left, and the search after the refill finds one of the same processes
    have hfill : SameButTicks k (k.refill k.processTable) := refill_sameButTicks k.processTable
    simp only
    cases h' : mostTicks (k.refill k.processTable).proc (k.refill k.processTable).processTable 0 none with
    | some p =>
      rcases mostTicks_spec h' with ⟨hp, hflag⟩ | hp
      · rw [hfill.processTable] at hp
        rw [hfill.proc] at hflag
        exact ⟨hfill, hp, hflag⟩
      · exact nomatch hp
    | none => exact nofun

/-! ## `schedule`

`Scheduled` is all that `schedule` changes: two flags, ticks, and the entry 768 of the directory
of the process picked. The lemmas after it say what this means for the other parts of the state.
-/

/-- The result of `schedule(flag)`. -/
structure Scheduled (k : Kernel) (flag : Nat) (k' : Kernel) : Prop where
  heap : k'.heap = k.heap
  thr : k'.thr = k.thr
  processTable : k'.processTable = k.processTable
  next : k'.currentProc ∈ k.processTable
  currentThread : k'.currentThread = (k.proc k'.currentProc).current
  table : k'.table = (k.setWord (k.pd k'.currentProc) USER_PDES (k.pde k.currentProc USER_PDES)).table
  proc : ∀ q, k'.proc q = { k.proc q with
    flag := if q = k'.currentProc then 2 else if q = k.currentProc then flag else (k.proc q).flag
    ticks := (k'.proc q).ticks }
  ready : (if k'.currentProc = k.currentProc then flag else (k.proc k'.currentProc).flag) = 0

/-- The kernel half begins at entry 768. -/
theorem va2pde_PAGE_OFFSET : va2pde PAGE_OFFSET = USER_PDES := by decide

/-- If `schedule` returns at all, it has picked a ready process, which runs now. -/
theorem schedule_spec : Yields (k.schedule flag) (Scheduled k flag) := by
  unfold schedule
  simp only [va2pde_PAGE_OFFSET]
  refine pickReady_spec.bind fun r hr => ?_
  obtain ⟨ready, k₁⟩ := r
  obtain ⟨hsame, hmem, hflag⟩ := hr
  -- the directory and the current thread of the process picked are those it had
  have hcr3 : (k₁.proc ready).cr3 = (k.proc ready).cr3 := by
    rw [hsame.proc, modProc_proc]
    split
    · next h => rw [h]
    · rfl
  have hcur : (k₁.proc ready).current = (k.proc ready).current := by
    rw [hsame.proc, modProc_proc]
    split
    · next h => rw [h]
    · rfl
  refine ⟨hsame.heap, hsame.thr, hsame.processTable, hmem, ?_, ?_, fun q => ?_, ?_⟩
  · simp [hcur]
  · have htab : k₁.table = k.table := hsame.table
    simp only [modProc_proc_self, modProc_currentProc, setWord, modProc_table, hcr3, htab, pd, pde]
  · simp only [setWord_proc, modProc_proc, setWord_currentProc, modProc_currentProc]
    by_cases hq : q = ready
    · subst hq
      rw [if_pos rfl, if_pos rfl, hsame.proc, modProc_proc]
      split
      · next h => rw [h]
      · rfl
    · rw [if_neg hq, if_neg hq, hsame.proc, modProc_proc]
      split
      · next h => rw [h]
      · rfl
  · rw [modProc_proc] at hflag
    show (if ready = k.currentProc then flag else (k.proc ready).flag) = 0
    split at hflag
    · next h => rwa [if_pos h]
    · next h => rwa [if_neg h]

namespace Scheduled

variable (h : Scheduled k flag k')

include h

/-- The queues and the lists of threads stay. -/
theorem sameLists : SameLists k k' := by
  refine ⟨⟨h.processTable, ?_, ?_⟩, ?_, ?_, ?_⟩ <;> intro p <;> rw [h.proc]

/-- One entry of one directory is copied from the process that ran before. -/
theorem pde_eq (q a : Nat) : k'.pde q a =
    (k.setWord (k.pd k'.currentProc) USER_PDES (k.pde k.currentProc USER_PDES)).pde q a := by
  rw [pde, h.sameLists.pd, h.table]
  rfl

theorem pte_eq (q a b : Nat) : k'.pte q a b =
    (k.setWord (k.pd k'.currentProc) USER_PDES (k.pde k.currentProc USER_PDES)).pte q a b := by
  unfold pte
  rw [h.pde_eq, h.table]

theorem pde_user {a : Nat} (ha : a < USER_PDES) : k'.pde q a = k.pde q a :=
  (h.pde_eq q a).trans (pde_setKernelEntry (le_refl _) ha)

theorem pte_user (hL : k.Layout phy pool) (hq : q ∈ k.processTable) {a : Nat} (ha : a < USER_PDES)
    (b : Nat) : k'.pte q a b = k.pte q a b :=
  (h.pte_eq q a b).trans (pte_setKernelEntry hL h.next (le_refl _) hq ha b)

theorem frameOf (hL : k.Layout phy pool) : k'.frameOf = k.frameOf :=
  frameOf_congr h.sameLists (fun _ _ _ ha => h.pde_user ha) fun _ hq _ ha b _ => h.pte_user hL hq ha b

/-- The copied entry is one of the kernel half, which the layout allows in any directory. -/
theorem layout (hL : k.Layout phy pool) (hcur : k.currentProc ∈ k.processTable) : k'.Layout phy pool := by
  -- with this entry alone written the layout stays, and `schedule` writes no other
  have hL' : (k.setWord (k.pd k'.currentProc) USER_PDES
      (k.pde k.currentProc USER_PDES)).Layout phy pool :=
    hL.setKernelEntry h.next (le_refl _) fun h0 => hL.kernelHalf hcur (le_refl _) (by decide) h0
  refine hL'.of_entries ⟨h.processTable, h.sameLists.cr3, h.sameLists.thread⟩ (fun t => ?_) (fun q _ a _ => h.pde_eq q a)
    fun q hq a ha b hb h0 => ?_
  · rw [h.thr]
    rfl
  · rw [h.pte_eq] at h0 ⊢
    exact hL'.entry hq ha hb h0

/-- The kernel half that all processes share is as it was. -/
theorem sameHalf (hL : k.Layout phy pool) (hcur : k.currentProc ∈ k.processTable) :
    SameHalf pool k k' := by
  refine ⟨fun f hf => ?_, fun q hq _ i hi => ?_, fun q hq _ => ?_⟩
  · rw [h.table]
    funext a
    have hne : f ≠ k.pd k'.currentProc := fun hc => hf (hc ▸ hL.dirIn h.next)
    rw [setWord_table, if_neg fun hc => hne hc.1]
  · rw [h.pde_eq, pde_setWord, if_neg fun hc => hi.ne' hc.2]
  · rw [h.pde_eq, pde_setWord]
    split
    · exact ⟨k.currentProc, hcur, rfl⟩
    · exact ⟨q, hq, rfl⟩

end Scheduled

end Kernel

end NorlitOS
