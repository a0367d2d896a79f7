import Mathlib.Order.Bounds.Defs
import NorlitOS.Process.Numbering

/-!
# Unique identifiers

Creating and disposing keep the ring ascending behind Init, which has the identifier 0, and every
thread list ascending. The search for an identifier stops at the first gap of an ascending list,
so what it finds is the smallest identifier not in use, and `getProcessById` finds a process
exactly under its own.
-/

namespace NorlitOS

namespace Kernel

variable {k k' k₁ k₂ : Kernel} {phy : Prop} {pool : Set Nat} {p q t n flag ip kernelPDE : Nat}
  {regs : StackFrame} {ev : Event} {es : List Event}

/-! ## The first gap

The list is ascending, so the loop that stops at the first gap has seen every smaller identifier
in use. -/

/-- Identifiers from `n` on that no record of the list has. -/
def unused (id : Nat → Nat) (n : Nat) (l : List Nat) : Set Nat := {m | n ≤ m ∧ ∀ e ∈ l, id e ≠ m}

/-- What is found is the smallest one not in use. -/
theorem insertById_isLeast {id : Nat → Nat} {new : Nat} {l : List Nat}
    (hl : l.Pairwise fun d e => id d < id e) (hn : ∀ e ∈ l, n ≤ id e) :
    IsLeast (unused id n l) (insertById id new n l).1 := by
  induction l generalizing n with
  | nil => exact ⟨⟨le_rfl, fun e he => absurd he List.not_mem_nil⟩, fun m hm => hm.1⟩
  | cons a l ih =>
    obtain ⟨hhead, hrest⟩ := List.pairwise_cons.mp hl
    obtain ⟨hna, hnl⟩ := List.forall_mem_cons.mp hn
    rw [insertById]
    by_cases ha : id a ≠ n
    · -- everything in the list is above `n`
      rw [if_pos ha]
      have hlow : n < id a := lt_of_le_of_ne hna ha.symm
      refine ⟨⟨le_rfl, List.forall_mem_cons.mpr ⟨ha, fun e he => ?_⟩⟩, fun m hm => hm.1⟩
      exact (hlow.trans (hhead e he)).ne'
    · -- `n` is taken by `a`
      rw [if_neg ha]
      have hid : id a = n := not_not.mp ha
      obtain ⟨⟨hge, hfresh⟩, hleast⟩ := ih hrest fun e he => hid ▸ hhead e he
      refine ⟨⟨(Nat.le_succ n).trans hge, List.forall_mem_cons.mpr ⟨?_, hfresh⟩⟩, fun m hm => ?_⟩
      · rw [hid]
        exact (Nat.lt_of_succ_le hge).ne
      · obtain ⟨hma, hml⟩ := List.forall_mem_cons.mp hm.2
        have hlt : n < m := lt_of_le_of_ne hm.1 fun h => hma (hid.trans h)
        exact hleast ⟨hlt, hml⟩

/-! ## The order of the lists

`Identified` is the order of all lists at once. A step that takes members out, or leaves the
numbers alone, keeps it. -/

/-- The threads of `p` are in the order of their identifiers. -/
def ThreadsAscending (k : Kernel) (p : Nat) : Prop :=
  (k.proc p).thread.Pairwise fun t u => (k.thr t).threadID < (k.thr u).threadID

structure Identified (k : Kernel) : Prop where
  init : ∃ init ring, k.processTable = init :: ring ∧ (k.proc init).pid = 0
  ascending : k.Ascending
  threads : ∀ p ∈ k.processTable, k.ThreadsAscending p

/-- Init stays, the other processes and their threads are there already, with the same
identifiers. -/
structure SameNumbers (k k' : Kernel) : Prop extends SameIds k k' where
  init : k'.processTable.head? = k.processTable.head?
  thread : ∀ q ∈ k'.processTable, (k'.proc q).thread.Sublist (k.proc q).thread
  threadID : ∀ t, (k'.thr t).threadID = (k.thr t).threadID

namespace SameNumbers

theorem trans (h₁ : SameNumbers k k₁) (h₂ : SameNumbers k₁ k₂) : SameNumbers k k₂ where
  toSameIds := h₁.toSameIds.trans h₂.toSameIds
  init := h₂.init.trans h₁.init
  thread q hq := (h₂.thread q hq).trans (h₁.thread q (h₂.mem q hq))
  threadID t := (h₂.threadID t).trans (h₁.threadID t)

/-- Nobody comes or goes. -/
theorem of_eq (hring : k'.processTable = k.processTable)
    (hpid : ∀ q, (k'.proc q).pid = (k.proc q).pid)
    (hthread : ∀ q, (k'.proc q).thread = (k.proc q).thread)
    (hid : ∀ t, (k'.thr t).threadID = (k.thr t).threadID) : SameNumbers k k' where
  toSameIds := .of_eq hring hpid
  init := by rw [hring]
  thread q _ := by rw [hthread]
  threadID := hid

/-- Leaving the numbers alone keeps the order. -/
theorem identified (hS : SameNumbers k k') (h : k.Identified) : k'.Identified := by
  obtain ⟨init, ring, hring, hpid⟩ := h.init
  refine ⟨?_, hS.ascending h.ascending, fun p hp => ?_⟩
  · have hhead := hS.init
    rw [hring, List.head?_cons] at hhead
    obtain ⟨ring', hring'⟩ := List.head?_eq_some_iff.mp hhead
    refine ⟨init, ring', hring', ?_⟩
    rw [hS.pid init (hring' ▸ List.mem_cons_self)]
    exact hpid
  · have hsorted := (h.threads p (hS.mem p hp)).sublist (hS.thread p hp)
    refine hsorted.imp fun hlt => ?_
    rw [hS.threadID, hS.threadID]
    exact hlt

end SameNumbers

theorem SameButRegs.sameNumbers (hS : SameButRegs k k') : SameNumbers k k' := by
  refine .of_eq hS.processTable (fun q => by rw [hS.proc]) (fun q => by rw [hS.proc]) fun t => ?_
  obtain ⟨r, hr, -⟩ := hS.thr t
  rw [hr]

theorem Scheduled.sameNumbers (hS : Scheduled k flag k') : SameNumbers k k' :=
  .of_eq hS.processTable (fun q => by rw [hS.proc]) (fun q => by rw [hS.proc]) fun t => by rw [hS.thr]

/-- A process that may be disposed is not the first. -/
theorem head?_erase {l : List Nat} (hnd : l.Nodup) (hp : p ∈ l.tail) :
    (l.erase p).head? = l.head? := by
  cases l with
  | nil => exact absurd hp List.not_mem_nil
  | cons a l =>
    have hne : a ≠ p := fun h => (List.nodup_cons.mp hnd).1 (h ▸ hp)
    rw [List.erase_cons_tail (by simpa using hne)]
    rfl

/-- Disposing takes members out. -/
theorem Disposed.sameNumbers (hD : Disposed k pool p t k') (hnd : k.processTable.Nodup)
    (hmortal : (k.proc p).thread = [t] → k.Mortal p) : SameNumbers k k' where
  toSameIds := hD.sameIds
  init := by
    rw [hD.processTable]
    split
    · next hlast => exact head?_erase hnd (hmortal hlast)
    · rfl
  thread q _ := by
    by_cases hq : q = p
    · rw [hq, hD.thread]
      exact List.erase_sublist
    · rw [hD.other q hq]
  threadID u := by rw [hD.thr]

/-- Disposing the running process does too. -/
theorem Exited.sameNumbers (hE : Exited k pool p k') (hnd : k.processTable.Nodup)
    (hmortal : k.Mortal p) : SameNumbers k k' where
  toSameIds := hE.sameIds hnd
  init := by
    rw [hE.processTable]
    exact head?_erase hnd hmortal
  thread q hq := by
    rw [hE.processTable, hnd.mem_erase_iff] at hq
    rw [hE.other q hq.1]
  threadID u := by rw [hE.thr]

/-! ## New threads and processes

A new member gets the smallest number, at its place in the list. -/

/-- The new thread gets the first identifier that no other thread of its process has. -/
theorem Spawned.identified (hS : Spawned k k.frameOf phy pool p t k') (hO : Owned k.heap k.frameOf pool)
    (hp : p ∈ k.processTable) (h : k.Identified) : k'.Identified ∧
      IsLeast (unused (fun u => (k.thr u).threadID) 0 (k.proc p).thread) (k'.thr t).threadID := by
  have hnew : ∀ q ∈ k.processTable, t ∉ (k.proc q).thread :=
    fun q hq => hS.not_mem hO (fun _ => rfl) hq
  have hold : ∀ q ∈ k.processTable, ∀ u ∈ (k.proc q).thread, (k'.thr u).threadID = (k.thr u).threadID :=
    fun q hq u hu => by rw [hS.thr u fun hut => hnew q hq (hut ▸ hu)]
  have hids : (insertById (fun u => (k.thr u).threadID) t 0 (k.proc p).thread).1 =
    (k'.thr t).threadID := congrArg Prod.fst hS.numbered
  have hlist : (insertById (fun u => (k.thr u).threadID) t 0 (k.proc p).thread).2 =
    (k'.proc p).thread := congrArg Prod.snd hS.numbered
  constructor
  · obtain ⟨init, ring, hring, hpid⟩ := h.init
    have hI := hS.sameIds
    refine ⟨⟨init, ring, hS.processTable.trans hring, ?_⟩, hI.ascending h.ascending, fun q hq => ?_⟩
    · rw [hI.pid init (hS.processTable ▸ hring ▸ List.mem_cons_self)]
      exact hpid
    -- the other lists are as they were
    · rw [hS.processTable] at hq
      by_cases hqp : q = p
      · subst hqp
        unfold ThreadsAscending
        rw [← hlist]
        exact (insertById_ascending (g := fun u => (k'.thr u).threadID) hids.symm (hold q hq)
          (h.threads q hq) fun _ _ => Nat.zero_le _).1
      · unfold ThreadsAscending
        rw [hS.other hqp]
        refine (h.threads q hq).imp_of_mem fun hu hw hlt => ?_
        rw [hold q hq _ hu, hold q hq _ hw]
        exact hlt
  · rw [← hids]
    exact insertById_isLeast (h.threads p hp) fun _ _ => Nat.zero_le _

/-- The new process gets the first identifier that no other process has, and its thread gets 0. -/
theorem Created.identified (hC : Created k phy pool p k') (hinv : k.Inv phy pool)
    (h : k.Identified) : k'.Identified ∧
      IsLeast (unused (fun q => (k.proc q).pid) 1 k.processTable) (k'.proc p).pid := by
  obtain ⟨init, ring, hring, hpid⟩ := h.init
  obtain ⟨id, hid, hins⟩ := hC.numbered
  obtain ⟨t, hthread, -⟩ := hC.first
  have hinit : init ∈ k.processTable := hring ▸ List.mem_cons_self
  have hne : ∀ q ∈ k.processTable, q ≠ p := fun q hq hqp => hC.new (hqp ▸ hq)
  have hmem : ∀ q ∈ ring, q ∈ k.processTable := fun q hq => hring ▸ List.mem_cons_of_mem init hq
  have hasc := h.ascending
  obtain ⟨hpos, hsorted⟩ := hasc
  rw [hring] at hins hpos hsorted
  have hnum : (insertById id p 1 ring).1 = (k'.proc p).pid := congrArg Prod.fst hins
  have hlist : init :: (insertById id p 1 ring).2 = k'.processTable := congrArg Prod.snd hins
  constructor
  · refine ⟨⟨init, _, hlist.symm, ?_⟩, hC.ascending hinv h.ascending, fun q hq => ?_⟩
    · rw [hC.other init (hne init hinit)]
      exact hpid
    · by_cases hqp : q = p
      · unfold ThreadsAscending
        rw [hqp, hthread]
        exact List.pairwise_singleton _ _
      · have hq₀ := (List.mem_cons.mp (hC.ring.mem_iff.mp hq)).resolve_left hqp
        unfold ThreadsAscending
        rw [hC.other q hqp]
        refine (h.threads q hq₀).imp_of_mem fun hu hw hlt => ?_
        rw [hC.thr q hq₀ _ hu, hC.thr q hq₀ _ hw]
        exact hlt
  · have hleast : IsLeast (unused id 1 ring) (insertById id p 1 ring).1 := by
      refine insertById_isLeast (hsorted.imp_of_mem fun hq hr hlt => ?_) fun q hq => ?_
      · rw [hid _ (hmem _ hq), hid _ (hmem _ hr)]
        exact hlt
      · rw [hid q (hmem q hq)]
        exact hpos q hq
    -- Init has the identifier 0, so it is in nobody's way
    have hsame : unused (fun q => (k.proc q).pid) 1 k.processTable = unused id 1 ring := by
      ext m
      unfold unused
      rw [Set.mem_ofPred_eq, Set.mem_ofPred_eq, hring, List.forall_mem_cons]
      refine and_congr_right fun hm => ⟨fun hall q hq => ?_, fun hall => ⟨?_, fun q hq => ?_⟩⟩
      · rw [hid q (hmem q hq)]
        exact hall.2 q hq
      · show (k.proc init).pid ≠ m
        omega
      · show (k.proc q).pid ≠ m
        rw [← hid q (hmem q hq)]
        exact hall q hq
    rw [hsame, ← hnum]
    exact hleast

/-! ## Runs

Along the runs of all these entries the order holds, and with it what it says about identifiers.
-/

/-- Processes and threads are created and disposed, and the processor is given up. -/
def Lifecycle : Event → Prop
  | .createProcess _ _ _ | .disposeProcess _ | .tick _ | .exception _ => True
  | .systemCall regs => regs.ax = 2 ∨ regs.ax = 3 ∨ 6 ≤ regs.ax
  | .interrupt _ _ | .pageFault _ _ => False

def EntersLifecycle (k : Kernel) (ev : Event) (k' : Kernel) : Prop := Lifecycle ev ∧ k.Enters ev k'

/-- None of these entries allocates memory at an address. -/
theorem owning_of_lifecycle (h : Lifecycle ev) : Owning ev := by
  cases ev with
  | systemCall regs =>
    have h' : regs.ax = 2 ∨ regs.ax = 3 ∨ 6 ≤ regs.ax := h
    refine ⟨?_, fun h5 => ?_⟩ <;> omega
  | _ => trivial

/-- The system call that creates a thread. -/
theorem sysCreateThread_identified {edx : Nat} (hinv : k.Inv phy pool) (h : k.Identified) :
    Yields (k.sysCreateThread edx) Identified := by
  refine (sysCreateThread_spec hinv).mono fun k' hk' => ?_
  obtain ⟨-, k₁, v, rfl, hor⟩ := hk'
  apply (sameButRegs_setAx v).sameNumbers.identified
  rcases hor with rfl | ⟨t, hS⟩
  · exact h
  · exact (hS.identified hinv.owned hinv.threads.running h).1

/-- **One entry.** -/
theorem step_identified (hinv : k.Inv False pool) (h : k.Identified)
    (hs : k.EntersLifecycle ev k') : k'.Identified := by
  obtain ⟨hlife, hadm, hok⟩ := hs
  have hcare := careful_of_owning hinv hadm (owning_of_lifecycle hlife)
  have hnd := hinv.threads.nodup
  cases ev with
  | createProcess ip privilege priority =>
    have hC : Yields (k.step (.createProcess ip privilege priority)) Identified :=
      (createProcess_spec hinv).bind fun r hr => (hr.2.identified hinv h).1
    exact hC.elim hok
  | disposeProcess p =>
    have hE := ((disposeProcess_spec hinv hadm.mem hcare).elim hok).2
    exact (hE.sameNumbers hnd hadm).identified h
  | systemCall regs =>
    have hsave : (k.save regs).Identified := (sameButRegs_save regs).sameNumbers.identified h
    have hax : regs.ax = 2 ∨ regs.ax = 3 ∨ 6 ≤ regs.ax := hlife
    have hcall : Yields ((k.save regs).systemCall regs.ax regs.dx regs.cx regs.bx) Identified := by
      match hc : regs.ax with
      | 2 => exact sysCreateThread_identified hinv.save hsave
      | 3 =>
        obtain ⟨p, hp, ht, hmortal⟩ := hadm.1 hc
        refine (sysDisposeThread_spec hinv.save hp ht (hinv.save.normalWindow hp ht)).mono
          fun k' hk' => ?_
        exact (hk'.2.sameNumbers hnd hmortal).identified hsave
      | 6 =>
        refine (sysNice_spec hinv.save).mono fun k' hk' => ?_
        obtain ⟨-, k₁, hS, rfl⟩ := hk'
        have hflag : SameNumbers k₁ (k₁.modProc k.currentProc fun P => { P with flag := 0 }) := by
          refine .of_eq rfl (modProc_pid fun _ => rfl) (fun q => ?_) fun _ => rfl
          rw [modProc_proc]
          split
          · next hq => rw [hq]
          · rfl
        exact (hS.sameNumbers.trans hflag).identified hsave
      | n + 7 =>
        have hkill : k.Mortal k.currentProc := hadm.2 (by omega)
        refine (exceptionHandler_spec hinv.save (hinv.save.normalWindows hkill.mem)).mono
          fun k' hk' => ?_
        exact (hk'.2.sameNumbers hnd hkill).identified hsave
      | 0 | 1 | 4 | 5 => omega
    exact hcall.elim hok
  | interrupt regs p => exact hlife.elim
  | tick regs =>
    obtain ⟨-, k₁, hT, hS⟩ := (timerTick_spec hinv.save).elim hok
    -- neither the tick nor `schedule` gives a number
    have hticks : SameNumbers (k.save regs) k₁ :=
      .of_eq hT.processTable (fun q => by rw [hT.proc]) (fun q => by rw [hT.proc]) fun t => by rw [hT.thr]
    have hall := ((sameButRegs_save regs).sameNumbers.trans hticks).trans hS.sameNumbers
    exact hall.identified h
  | pageFault regs cr2 => exact hlife.elim
  | exception regs =>
    have hkill : k.Mortal k.currentProc := hadm
    have hE := ((exceptionHandler_spec hinv.save (hinv.save.normalWindows hkill.mem)).elim hok).2
    exact ((sameButRegs_save regs).sameNumbers.trans (hE.sameNumbers hnd hkill)).identified h

/-- Init is alone, with one thread. -/
theorem initProc_identified (hB : k.Boot kernelPDE) (hok : k.initProc kernelPDE ip = .ok k₁) :
    k₁.Identified := by
  obtain ⟨k₂, k₃, p, -, hC, rfl⟩ := (initProc_created False hB).elim hok
  obtain ⟨t, hthread, -⟩ := hC.first
  refine ⟨⟨p, [], rfl, ?_⟩, ⟨fun q hq => absurd hq List.not_mem_nil, List.Pairwise.nil⟩,
    fun q hq => ?_⟩
  · unfold turnedOver
    simp
  · have hlist : ((k₃.turnedOver p).proc p).thread = [t] := by
      unfold turnedOver
      simpa using hthread
    unfold ThreadsAscending
    rw [List.mem_singleton.mp hq, hlist]
    exact List.pairwise_singleton _ _

/-- Every identifier but 0 leads to the one process that has it. -/
theorem Identified.getProcessById_iff (h : k.Identified) {id : Nat} (hid : 1 ≤ id) :
    k.getProcessById id = some p ↔ p ∈ k.processTable ∧ (k.proc p).pid = id := by
  obtain ⟨init, ring, hring, hpid⟩ := h.init
  constructor
  · intro hfind
    have hpid := List.find?_some hfind
    exact ⟨List.mem_of_mem_tail (List.mem_of_find?_eq_some hfind), of_decide_eq_true hpid⟩
  · rintro ⟨hp, heq⟩
    have htail : p ∈ k.processTable.tail := by
      rw [hring] at hp ⊢
      refine (List.mem_cons.mp hp).resolve_left fun hpi => ?_
      rw [hpi, hpid] at heq
      omega
    rw [← heq]
    exact h.ascending.getProcessById htail

/-- What is asked of the identifiers. -/
structure UniqueIds (k : Kernel) : Prop where
  ring : ∃ init ring, k.processTable = init :: ring ∧ (k.proc init).pid = 0 ∧
    (∀ q ∈ ring, 1 ≤ (k.proc q).pid) ∧ ring.Pairwise fun q r => (k.proc q).pid < (k.proc r).pid
  threads : ∀ p ∈ k.processTable,
    (k.proc p).thread.Pairwise fun t u => (k.thr t).threadID < (k.thr u).threadID
  newProcess : ∀ ip privilege priority p k', k.createProcess ip privilege priority = .ok (p, k') →
    p ∉ k.processTable ∧ k'.processTable.Perm (p :: k.processTable) ∧
      IsLeast {n | 1 ≤ n ∧ ∀ q ∈ k.processTable, (k.proc q).pid ≠ n} (k'.proc p).pid ∧
      ∃ t, (k'.proc p).thread = [t] ∧ (k'.thr t).threadID = 0
  newThread : ∀ p ∈ k.processTable, ∀ ip t k', k.createThread p ip = .ok (t, k') → t ≠ 0 →
    t ∉ (k.proc p).thread ∧ (k'.proc p).thread.Perm (t :: (k.proc p).thread) ∧
      IsLeast {n | ∀ u ∈ (k.proc p).thread, (k.thr u).threadID ≠ n} (k'.thr t).threadID
  getProcessById : ∀ id, 1 ≤ id → ∀ p,
    k.getProcessById id = some p ↔ p ∈ k.processTable ∧ (k.proc p).pid = id

/-- What an ascending order means for finding. -/
theorem Identified.uniqueIds (h : k.Identified) (hinv : k.Inv phy pool) : k.UniqueIds := by
  refine ⟨?_, h.threads, fun ip privilege priority p k' hok => ?_, fun p hp ip t k' hok ht => ?_,
    fun id hid p => h.getProcessById_iff hid⟩
  · obtain ⟨init, ring, hring, hpid⟩ := h.init
    have hpos := h.ascending.positive
    have hsorted := h.ascending.sorted
    rw [hring] at hpos hsorted
    exact ⟨init, ring, hring, hpid, hpos, hsorted⟩
  -- a new process has one thread, with the number 0
  · have hC := ((createProcess_spec hinv).elim hok).2
    obtain ⟨t, hthread, hid, -⟩ := hC.first
    exact ⟨hC.new, hC.ring, (hC.identified hinv h).2, t, hthread, hid⟩
  · have hN : ∀ i j, k.pde p i = 0 → k.frameOf (.pte p i j) = none := by
      intro i j h0
      simp only [frameOf, pte_of_no_pde h0, entryFrame_zero, ite_self]
    rcases (createThread_spec hinv.layout hinv.owned (Agree.refl k) hp hN fun _ => rfl).elim hok with
      ⟨heq, -⟩ | hS
    · exact absurd (congrArg Prod.fst heq) ht
    · obtain ⟨l, hl, hproc⟩ := hS.proc
      have hleast := (hS.identified hinv.owned hp h).2
      refine ⟨hS.not_mem hinv.owned (fun _ => rfl) hp, ?_, ?_⟩
      · rw [hproc, modProc_proc_self]
        exact hl
      · unfold unused at hleast
        simpa using hleast

/-- **Unique identifiers.** In every state that creations and disposals reach, in any order, the
lists are ascending, new processes and threads get the smallest identifiers not in use, and
`getProcessById` finds the process with an identifier. -/
theorem run_uniqueIds (hB : k.Boot kernelPDE) (hinit : k.initProc kernelPDE ip = .ok k₁)
    (hrun : Run EntersLifecycle k₁ es k') : k'.UniqueIds := by
  have hI : (∃ pool, k'.Inv False pool) ∧ k'.Identified := by
    refine Run.invariant (I := fun k' => (∃ pool, k'.Inv False pool) ∧ k'.Identified) ?_ hrun
      ⟨⟨_, (initProc_spec hB).elim hinit⟩, initProc_identified hB hinit⟩
    intro s e t hst hs
    obtain ⟨⟨pool, hinv⟩, hid⟩ := hst
    exact ⟨⟨pool, step_owning hinv ⟨owning_of_lifecycle hs.1, hs.2⟩⟩, step_identified hinv hid hs⟩
  obtain ⟨⟨pool, hinv⟩, hid⟩ := hI
  exact hid.uniqueIds hinv

/-- The second of three processes is disposed, and its identifier is used again. -/
theorem run_uniqueIds_reused : ∃ (k k₁ k' : Kernel) (es : List Event), k.Boot 0 ∧
    k.initProc 0 0 = .ok k₁ ∧ Run EntersLifecycle k₁ es k' ∧ es.length = 7 ∧
      k'.processTable.map (fun p => (k'.proc p).pid) = [0, 1, 2, 3] ∧ k'.UniqueIds := by
  obtain ⟨k, k₁, k', hB, -, hinit, hrun, hpids⟩ := run_of_booted_any (a := 0xC0400000)
    (n := 0x400000) (P := fun k => k.processTable.map (fun p => (k.proc p).pid) = [0, 1, 2, 3])
    (l := [.createProcess 0 0 5, .createProcess 0 0 5, .createProcess 0 0 5,
      .disposeProcess 0xC040B004, call 2 0 0 0, .tick noRegs, .createProcess 0 0 5])
    (by decide +kernel)
  have hlife : Run EntersLifecycle k₁ _ k' := hrun.restrict (P := Lifecycle) (by
    simp [Lifecycle, call, noRegs])
  exact ⟨k, k₁, k', _, hB, hinit, hlife, rfl, hpids, run_uniqueIds hB hinit hlife⟩

end Kernel

end NorlitOS
