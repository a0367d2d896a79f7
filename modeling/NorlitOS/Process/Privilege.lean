import NorlitOS.Process.Memory

/-!
# The privileges of user programs

Every process, those of the drivers included, runs at level 3; a process of privilege 0 may also
use the I/O ports. What a thread runs with is in its frame. The kernel makes frames of level 3
only, and never changes the code segment and the flags of one.
-/

namespace NorlitOS

open Dyadic Ledger

namespace StackFrame

/-- A frame of a user program: level 3, and not virtual-8086 mode, which is bit 17. -/
structure User (f : StackFrame) : Prop where
  level : f.cs % 4 = 3
  protectedMode : f.flags.testBit 17 = false

/-- A frame of a process with the given privilege. The I/O privilege level is in bits 12 and 13. -/
structure Guarded (privilege : Nat) (f : StackFrame) : Prop extends User f where
  iopl : privilege ≠ 0 → f.flags / 2 ^ 12 % 4 = 0

/-- What a program that was started with the frame `f` cannot change by itself: its level, the
mode of the processor and its I/O privilege level. -/
structure Confined (f g : StackFrame) : Prop where
  level : g.cs % 4 = f.cs % 4
  mode : g.flags.testBit 17 = f.flags.testBit 17
  iopl : g.flags / 2 ^ 12 % 4 = f.flags / 2 ^ 12 % 4

instance (f g : StackFrame) : Decidable (Confined f g) :=
  decidable_of_iff (g.cs % 4 = f.cs % 4 ∧ g.flags.testBit 17 = f.flags.testBit 17 ∧
    g.flags / 2 ^ 12 % 4 = f.flags / 2 ^ 12 % 4)
    ⟨fun h => ⟨h.1, h.2.1, h.2.2⟩, fun h => ⟨h.level, h.mode, h.iopl⟩⟩

/-- A program can do its guarded frame no harm with what it may change. -/
theorem Guarded.confined {privilege : Nat} {f g : StackFrame} (h : Guarded privilege f)
    (hc : Confined f g) : Guarded privilege g := by
  constructor
  · constructor
    · rw [hc.level, h.level]
    · rw [hc.mode, h.protectedMode]
  · intro hp
    rw [hc.iopl, h.iopl hp]

end StackFrame

namespace Kernel

variable {k k' k₁ k₂ : Kernel} {phy : Prop} {pool : Set Nat} {p q t u v ip flag source : Nat}
  {privilege priority kernelPDE edx ecx ebx x msg : Nat} {regs : StackFrame} {es : List Event}
  {ev : Event}

/-- The frames of all threads are guarded. -/
def Guarded (k : Kernel) : Prop :=
  ∀ q ∈ k.processTable, ∀ t ∈ (k.proc q).thread,
    StackFrame.Guarded (k.proc q).privilege (k.thr t).regs

/-- The thread `t` of `q` has kept its code segment, its flags and its privilege. -/
structure Stays (k : Kernel) (q t : Nat) (k' : Kernel) : Prop where
  live : q ∈ k.processTable
  member : t ∈ (k.proc q).thread
  privilege : (k'.proc q).privilege = (k.proc q).privilege
  cs : (k'.thr t).regs.cs = (k.thr t).regs.cs
  flags : (k'.thr t).regs.flags = (k.thr t).regs.flags

/-- Every thread has stayed what it was, or is a new one with a guarded frame. -/
def Inherits (k k' : Kernel) : Prop :=
  ∀ q ∈ k'.processTable, ∀ t ∈ (k'.proc q).thread,
    StackFrame.Guarded (k'.proc q).privilege (k'.thr t).regs ∨ k.Stays q t k'

/-- A thread that has kept what matters is guarded as before. -/
theorem Stays.guarded (hS : k.Stays q t k') (h : k.Guarded) :
    StackFrame.Guarded (k'.proc q).privilege (k'.thr t).regs := by
  have hg := h q hS.live t hS.member
  constructor
  · constructor
    · rw [hS.cs]
      exact hg.level
    · rw [hS.flags]
      exact hg.protectedMode
  · rw [hS.privilege, hS.flags]
    exact hg.iopl

/-- So all frames are guarded afterwards if they were before. -/
theorem Inherits.guarded (hI : Inherits k k') (h : k.Guarded) : k'.Guarded := by
  intro q hq t ht
  rcases hI q hq t ht with hg | hS
  · exact hg
  · exact hS.guarded h

/-- Over two steps a thread has stayed what it was, or has come in one of them. -/
theorem Inherits.trans (h₁ : Inherits k k₁) (h₂ : Inherits k₁ k') : Inherits k k' := by
  intro q hq t ht
  rcases h₂ q hq t ht with hg | hS
  · exact Or.inl hg
  rcases h₁ q hS.live t hS.member with hg | hS'
  · refine Or.inl ⟨⟨?_, ?_⟩, ?_⟩
    · rw [hS.cs]
      exact hg.level
    · rw [hS.flags]
      exact hg.protectedMode
    · rw [hS.privilege, hS.flags]
      exact hg.iopl
  · exact Or.inr ⟨hS'.live, hS'.member, hS.privilege.trans hS'.privilege, hS.cs.trans hS'.cs,
      hS.flags.trans hS'.flags⟩

/-- A step without new threads. -/
theorem Inherits.of_old
    (hproc : ∀ q ∈ k'.processTable, q ∈ k.processTable ∧ (k'.proc q).thread ⊆ (k.proc q).thread ∧
      (k'.proc q).privilege = (k.proc q).privilege)
    (hthr : ∀ t, (k'.thr t).regs.cs = (k.thr t).regs.cs ∧
      (k'.thr t).regs.flags = (k.thr t).regs.flags) : Inherits k k' := by
  intro q hq t ht
  obtain ⟨hlive, hsub, hpriv⟩ := hproc q hq
  exact Or.inr ⟨hlive, hsub ht, hpriv, (hthr t).1, (hthr t).2⟩

/-- Processes and threads are the same but for what does not matter here. -/
theorem Inherits.of_same (hring : k'.processTable = k.processTable)
    (hproc : ∀ q, (k'.proc q).thread = (k.proc q).thread ∧
      (k'.proc q).privilege = (k.proc q).privilege)
    (hthr : ∀ t, (k'.thr t).regs.cs = (k.thr t).regs.cs ∧
      (k'.thr t).regs.flags = (k.thr t).regs.flags) : Inherits k k' := by
  refine .of_old (fun q hq => ⟨hring ▸ hq, ?_, (hproc q).2⟩) hthr
  rw [(hproc q).1]
  exact fun _ h => h

theorem inherits_refl : Inherits k k := .of_same rfl (fun _ => ⟨rfl, rfl⟩) fun _ => ⟨rfl, rfl⟩

/-! ## What the kernel does to frames

The kernel writes results into `ax` and the source of a message into `bx`, and the scheduler moves
flags and ticks. Neither code segment nor flags of a frame are among that. -/

/-- A result is in `ax`. -/
theorem setAx_frame (u : Nat) : ((k.setAx t v).thr u).regs.cs = (k.thr u).regs.cs ∧
    ((k.setAx t v).thr u).regs.flags = (k.thr u).regs.flags := by
  rw [setAx, modThr_thr]
  split
  · next h => rw [h]; exact ⟨rfl, rfl⟩
  · exact ⟨rfl, rfl⟩

/-- So a result changes nothing that matters. -/
theorem inherits_setAx : Inherits k (k.setAx t v) :=
  .of_same rfl (fun _ => ⟨rfl, rfl⟩) setAx_frame

/-- Where frames and lists of threads are the same, all have stayed. -/
theorem SameRunning.inherits (hS : SameRunning k k') : Inherits k k' :=
  .of_same hS.processTable (fun q => by rw [hS.proc]; exact ⟨rfl, rfl⟩)
    fun t => by rw [hS.thr]; exact ⟨rfl, rfl⟩

theorem SameButTicks.inherits (hS : SameButTicks k k') : Inherits k k' :=
  .of_same hS.processTable (fun q => by rw [hS.proc]; exact ⟨rfl, rfl⟩)
    fun t => by rw [hS.thr]; exact ⟨rfl, rfl⟩

theorem Scheduled.inherits (hS : Scheduled k flag k') : Inherits k k' :=
  .of_same hS.processTable (fun q => by rw [hS.proc]; exact ⟨rfl, rfl⟩)
    fun t => by rw [hS.thr]; exact ⟨rfl, rfl⟩

/-- A message that is queued changes no thread. -/
theorem Queued.inherits (hQ : Queued k p msg k') : Inherits k k' := by
  refine .of_same hQ.processTable (fun q => ?_) fun t => by rw [hQ.thr]; exact ⟨rfl, rfl⟩
  rw [hQ.proc, enqueue, modProc_proc]
  split
  · next hq => rw [hq]; exact ⟨rfl, rfl⟩
  · exact ⟨rfl, rfl⟩

/-- A thread that takes a message from the queue gets a result and a source. -/
theorem Taken.inherits (hT : Taken k ecx k') : Inherits k k' := by
  refine .of_same hT.processTable (fun q => ?_) fun t => by rw [hT.thr]; exact ⟨rfl, rfl⟩
  rw [hT.proc, dequeue, modProc_proc]
  split
  · next hq => rw [hq]; exact ⟨rfl, rfl⟩
  · exact ⟨rfl, rfl⟩

/-- So does one that a message is handed to. -/
theorem Handed.inherits (hH : Handed k p t source x k') : Inherits k k' := by
  refine .of_same hH.processTable (fun q => ?_) fun u => ?_
  · rw [hH.proc, modProc_proc]
    split
    · next hq => rw [hq]; exact ⟨rfl, rfl⟩
    · exact ⟨rfl, rfl⟩
  · rw [hH.thr, modThr_thr]
    split
    · next hu => rw [hu]; exact ⟨rfl, rfl⟩
    · exact ⟨rfl, rfl⟩

/-- A thread that begins to wait keeps its frame. -/
theorem Waiting.inherits (hW : Waiting k k') : Inherits k k' := by
  refine .of_same hW.processTable (fun q => ?_) fun u => ?_
  · by_cases hq : q = k.currentProc
    · rw [hq, hW.self]
      exact ⟨rfl, rfl⟩
    · rw [hW.other q hq]
      exact ⟨rfl, rfl⟩
  · rw [hW.thr, modThr_thr]
    split
    · next hu => rw [hu]; exact ⟨rfl, rfl⟩
    · exact ⟨rfl, rfl⟩

/-! ## Threads that go

The threads that are left keep their frames, and the process keeps its privilege if it is still
there. -/

/-- The page of a record goes back without a change of any record. -/
theorem freePage_same (hok : k.freePage t = .ok k') : k'.proc = k.proc := by
  obtain ⟨h', -, hlast⟩ := bind_eq_ok.mp hok
  rw [← Except.ok.inj hlast]

/-- The process of a thread that goes keeps its privilege. -/
theorem disposeThread_privilege (h : k.Inv phy pool) (hp : p ∈ k.processTable)
    (ht : t ∈ (k.proc p).thread) (hw : k.NormalWindow p t) (hok : k.disposeThread t = .ok k')
    (hlive : p ∈ k'.processTable) : (k'.proc p).privilege = (k.proc p).privilege := by
  have hdisposed := ((disposeThread_spec h hp ht hw).elim hok).2
  obtain ⟨k₁, heq, hD, -⟩ := depart_spec h hp ht hw
  have hself : (k₁.proc p).privilege = (k.proc p).privilege := by
    rw [hD.proc, modProc_proc_self]
    rfl
  rw [heq] at hok
  obtain ⟨k₂, hrest, hfree⟩ := bind_eq_ok.mp hok
  rw [freePage_same hfree, ← hself]
  unfold disposeRest at hrest
  split at hrest
  · next hnil =>
    -- it was the last thread, so the process has gone
    rw [hD.thread_self, erase_eq_nil ht] at hnil
    rw [hdisposed.processTable, if_pos hnil] at hlive
    exact absurd hlive h.threads.nodup.not_mem_erase
  · split at hrest
    · have hS := schedule_spec.elim hrest
      rw [hS.proc, modProc_proc_self]
    · rw [← Except.ok.inj hrest]

/-- One thread has gone, perhaps with its process. -/
theorem Disposed.inherits (hD : Disposed k pool p t k')
    (hpriv : p ∈ k'.processTable → (k'.proc p).privilege = (k.proc p).privilege) :
    Inherits k k' := by
  refine .of_old (fun q hq => ⟨?_, ?_, ?_⟩) fun u => by rw [hD.thr]; exact ⟨rfl, rfl⟩
  · rw [hD.processTable] at hq
    split at hq
    · exact List.mem_of_mem_erase hq
    · exact hq
  · by_cases hqp : q = p
    · rw [hqp, hD.thread]
      exact List.erase_subset
    · rw [hD.other q hqp]
      exact fun _ h => h
  · by_cases hqp : q = p
    · exact hqp ▸ hpriv (hqp ▸ hq)
    · rw [hD.other q hqp]

/-- A process has gone with all its threads. -/
theorem Exited.inherits (hE : Exited k pool p k') (h : k.Inv phy pool) : Inherits k k' := by
  refine .of_old (fun q hq => ?_) fun u => by rw [hE.thr]; exact ⟨rfl, rfl⟩
  rw [hE.processTable] at hq
  have hqp : q ≠ p := fun hc => h.threads.nodup.not_mem_erase (hc ▸ hq)
  rw [hE.other q hqp]
  exact ⟨List.mem_of_mem_erase hq, fun _ h => h, rfl⟩

/-! ## Threads that come

`createThread` writes the whole frame of the new thread. Its code segment has level 3, and its
flags have the I/O privilege level of the process. -/

/-- A page that is taken changes no record of a process. -/
theorem allocPage_proc {r : Nat × Kernel} (hok : k.allocPage = .ok r) : r.2.proc = k.proc := by
  obtain ⟨b, -, hlast⟩ := bind_eq_ok.mp hok
  rw [← Except.ok.inj hlast]

/-- Nor does a new stack. -/
theorem allocThreadStack_proc {r : Nat × Kernel} (hok : k.allocThreadStack p = .ok r) :
    r.2.proc = k.proc := by
  unfold allocThreadStack at hok
  dsimp only at hok
  split at hok
  · obtain ⟨⟨s, k₁⟩, halloc, hrest⟩ := bind_eq_ok.mp hok
    obtain ⟨⟨b, k₂⟩, halloc', hlast⟩ := bind_eq_ok.mp hrest
    obtain ⟨⟨a, k₃⟩, hpage, hphysical⟩ := bind_eq_ok.mp halloc'
    obtain ⟨-, rfl⟩ := Prod.mk.inj (Except.ok.inj hphysical)
    have h₁ : k₁.proc = k.proc := allocPage_proc halloc
    have h₃ : k₃.proc = k₁.proc := allocPage_proc hpage
    rw [← Except.ok.inj hlast]
    exact h₃.trans h₁
  · rw [← Except.ok.inj hok]

/-- The selectors and the flags of a new thread. -/
theorem createThread_guarded {r : Nat × Kernel} (hok : k.createThread p ip = .ok r) :
    (r.2.proc p).privilege = (k.proc p).privilege ∧
      (r.1 ≠ 0 → StackFrame.Guarded (k.proc p).privilege (r.2.thr r.1).regs) := by
  obtain ⟨⟨sp, k₁⟩, hstack, hrest⟩ := bind_eq_ok.mp hok
  change (if sp = 0 then _ else _) = Except.ok r at hrest
  have hproc : k₁.proc = k.proc := allocThreadStack_proc hstack
  split at hrest
  · rw [← Except.ok.inj hrest]
    exact ⟨by rw [hproc], fun h0 => absurd rfl h0⟩
  · obtain ⟨⟨t, k₂⟩, halloc, hlast⟩ := bind_eq_ok.mp hrest
    have hproc₂ : k₂.proc = k.proc := (allocPage_proc halloc).trans hproc
    rw [← Except.ok.inj hlast]
    -- no thread starts in virtual-8086 mode, and none but the kernel's with an I/O privilege
    have hflags : ∀ n : Nat, (if n = 0 then 0x3202 else 0x202 : Nat).testBit 17 = false ∧
        (n ≠ 0 → (if n = 0 then 0x3202 else 0x202 : Nat) / 2 ^ 12 % 4 = 0) := by
      intro n
      split
      · next hn => exact ⟨by decide, fun h => absurd hn h⟩
      · exact ⟨by decide, fun _ => by decide⟩
    simp only [modThr_thr, modProc_thr, if_true, modThr_proc, modProc_proc_self]
    rw [hproc₂]
    exact ⟨rfl, fun _ => ⟨⟨(by decide : SEL_FLAT_C_USR % 4 = 3), (hflags _).1⟩, (hflags _).2⟩⟩

/-- One thread is new and guarded, and the others have stayed. -/
theorem Spawned.inherits {r : Nat × Kernel} {own : Owner → Option Nat}
    (hS : Spawned k own phy pool p r.1 r.2) (hok : k.createThread p ip = .ok r) (h0 : r.1 ≠ 0)
    (hfresh : ∀ q ∈ k.processTable, r.1 ∉ (k.proc q).thread) : Inherits k r.2 := by
  obtain ⟨l, hperm, hproc⟩ := hS.proc
  intro q hq u hu
  have hq₀ : q ∈ k.processTable := hS.processTable ▸ hq
  rw [hproc, modProc_proc] at hu
  -- the new thread, or one from before
  by_cases hnew : q = p ∧ u = r.1
  · obtain ⟨rfl, rfl⟩ := hnew
    have hpriv : (r.2.proc q).privilege = (k.proc q).privilege := by
      rw [hproc, modProc_proc_self]
      rfl
    rw [hpriv]
    exact Or.inl ((createThread_guarded hok).2 h0)
  · have hold : u ∈ (k.proc q).thread ∧ u ≠ r.1 := by
      split at hu
      · next hqp =>
        subst hqp
        have hne : u ≠ r.1 := fun hc => hnew ⟨rfl, hc⟩
        exact ⟨(List.mem_cons.mp (hperm.mem_iff.mp hu)).resolve_left hne, hne⟩
      · exact ⟨hu, fun hc => hfresh q hq₀ (hc ▸ hu)⟩
    refine Or.inr ⟨hq₀, hold.1, ?_, ?_, ?_⟩
    · rw [hproc, modProc_proc]
      split
      · next hqp => rw [hqp]; rfl
      · rfl
    · rw [hS.thr u hold.2]
    · rw [hS.thr u hold.2]

/-- The first thread of a new process is guarded by the privilege the process was created with. -/
theorem newProcess_guarded {r : Nat × Kernel}
    (hok : k.newProcess q ip privilege priority = .ok r) (h0 : (r.2.proc r.1).current ≠ 0) :
    StackFrame.Guarded (r.2.proc r.1).privilege (r.2.thr (r.2.proc r.1).current).regs := by
  obtain ⟨⟨p, h⟩, -, hrest⟩ := bind_eq_ok.mp hok
  obtain ⟨⟨t, k₁⟩, hthread, hlast⟩ := bind_eq_ok.mp hrest
  obtain ⟨hpriv, hguard⟩ := createThread_guarded hthread
  rw [modProc_proc_self] at hpriv hguard
  obtain rfl := Except.ok.inj hlast
  simp only [modProc_proc_self, modProc_thr] at h0 ⊢
  rw [hpriv]
  exact hguard h0

/-- A new process comes with one thread. -/
theorem Created.inherits (hC : Created k phy pool p k')
    (hguard : (k'.proc p).current ≠ 0 →
      StackFrame.Guarded (k'.proc p).privilege (k'.thr (k'.proc p).current).regs) :
    Inherits k k' := by
  obtain ⟨t, hthread, -⟩ := hC.first
  intro q hq u hu
  by_cases hqp : q = p
  · subst hqp
    have hcur : u = (k'.proc q).current := by
      have hmem := hC.procOk.current
      rw [hthread] at hmem hu
      rw [List.mem_singleton.mp hmem, List.mem_singleton.mp hu]
    -- a thread has a page, and page 0 is none
    have hne : (k'.proc q).current ≠ 0 := by
      rw [← hcur]
      rintro rfl
      have hin := hC.owned.mem_managed (frameOf_threadPage hq hu)
      exact absurd hin.1 (by decide)
    rw [hcur]
    exact Or.inl (hguard hne)
  · have hold : q ∈ k.processTable :=
      (List.mem_cons.mp (hC.ring.mem_iff.mp hq)).resolve_left hqp
    rw [hC.other q hqp] at hu
    refine Or.inr ⟨hold, hu, by rw [hC.other q hqp], ?_, ?_⟩
    · rw [hC.thr q hold u hu]
    · rw [hC.thr q hold u hu]

/-! ## System calls

Each call is one of the cases above. For those that map memory the callers are followed through
the allocator, since frames are handed over before the entry is written. -/

/-- `SYSCALL_SEND`, whatever it returns. -/
theorem Sent.inherits (hS : Sent k edx ecx ebx k') : Inherits k k' := by
  cases hS with
  | accepted _ _ _ hacc heq =>
    rw [heq]
    refine Inherits.trans ?_ inherits_setAx
    cases hacc with
    | handed _ _ hH _ _ _ => exact hH.inherits
    | queued _ _ hQ _ _ _ => exact hQ.inherits
  | refused _ _ heq =>
    rw [heq]
    exact inherits_setAx

/-- An interrupt, which is a message from no process. -/
theorem Interrupted.inherits (hI : Interrupted k p k') : Inherits k k' := by
  cases hI with
  | handed _ _ _ _ hH => exact hH.inherits
  | queued _ _ _ _ hQ => exact hQ.inherits
  | full _ _ heq =>
    rw [heq]
    exact inherits_refl

/-- `SYSCALL_RECEIVE`: a message is there, or the thread waits. -/
theorem Received.inherits (hR : Received k ecx k') : Inherits k k' := by
  cases hR with
  | took _ hU _ hT heq =>
    rw [heq]
    exact hU.toSameRunning.inherits.trans (hT.inherits.trans inherits_setAx)
  | waits _ hU _ hW => exact hU.toSameRunning.inherits.trans hW.inherits
  | refused _ heq =>
    rw [heq]
    exact inherits_setAx

/-- The two calls that map memory write entries, and their result. -/
theorem MapCall.inherits {g : Heap} {r : Nat × Kernel} {own : Owner → Option Nat}
    (hM : MapCall k regs g x flag r k') (h : k.Inv True pool) (hO : Owned g own pool)
    (hA : Agree own k) : Inherits (k.save regs) k' := by
  obtain ⟨⟨own', pool', hE⟩, -⟩ := hM.extended h hO hA
  refine .of_same ?_ (fun q => ?_) fun u => ?_
  · rw [hM.processTable, hE.processTable]
    rfl
  · rw [hM.proc, hE.proc]
    exact ⟨rfl, rfl⟩
  · rw [hM.thr]
    have hax := setAx_frame (k := r.2) (t := r.2.currentThread) (v := r.1) u
    rw [hE.thr] at hax
    exact hax

/-- `SYSCALL_CREATE_THREAD`. -/
theorem sysCreateThread_inherits (h : k.Inv phy pool) (hok : k.sysCreateThread edx = .ok k') :
    Inherits k k' := by
  obtain ⟨r, hcreate, hlast⟩ := bind_eq_ok.mp hok
  rw [← Except.ok.inj hlast]
  have hN : ∀ i j, k.pde k.currentProc i = 0 → k.frameOf (.pte k.currentProc i j) = none := by
    intro i j h0
    simp only [frameOf, pte_of_no_pde h0, entryFrame_zero, ite_self]
  rcases (createThread_spec h.layout h.owned (Agree.refl k) h.threads.running hN fun _ => rfl).elim
    hcreate with ⟨rfl, -⟩ | hS
  · exact inherits_setAx
  · refine Inherits.trans ?_ inherits_setAx
    have hfresh : ∀ q ∈ k.processTable, r.1 ∉ (k.proc q).thread := fun q hq ht =>
      h.owned.ne_of_free (frameOf_threadPage hq ht) hS.free rfl
    refine hS.inherits hcreate ?_ hfresh
    intro h0
    have hpage := h.owned.accounts.free_subset (hS.free (self_mem_page r.1))
    have hin := h.owned.inside hpage
    rw [h0] at hin
    exact absurd hin.1 (by decide)

/-- **A system call** that maps nothing. -/
theorem systemCall_inherits {eax : Nat} (h : k.Inv phy pool)
    (hcx : (k.thr k.currentThread).regs.cx = ecx) (hmap : eax ≠ 4 ∧ eax ≠ 5)
    (hdis : eax = 3 → k.Disposable (k.disposeTarget edx))
    (hwin : eax = 3 → k.NormalWindow (k.thr (k.disposeTarget edx)).process (k.disposeTarget edx))
    (hwins : 6 < eax → k.NormalWindows k.currentProc)
    (hok : k.systemCall eax edx ecx ebx = .ok k') : Inherits k k' := by
  match eax with
  | 0 => exact ((sysSend_spec h).elim hok).2.inherits
  | 1 => exact ((sysReceive_spec h hcx).elim hok).2.inherits
  | 2 => exact sysCreateThread_inherits h hok
  -- threads that are left keep their registers
  | 3 =>
    obtain ⟨p, hp, ht, -⟩ := hdis rfl
    have hw := hwin rfl
    rw [(h.procOk hp).back _ ht] at hw
    exact ((sysDisposeThread_spec h hp ht hw).elim hok).2.inherits
      fun hlive => disposeThread_privilege h hp ht hw hok hlive
  | 4 => exact absurd rfl hmap.1
  | 5 => exact absurd rfl hmap.2
  | 6 =>
    obtain ⟨-, k₁, hS, rfl⟩ := (sysNice_spec h).elim hok
    refine hS.inherits.trans (.of_same rfl (fun q => ?_) fun _ => ⟨rfl, rfl⟩)
    rw [modProc_proc]
    split
    · next hq => rw [hq]; exact ⟨rfl, rfl⟩
    · exact ⟨rfl, rfl⟩
  | n + 7 => exact ((exceptionHandler_spec h (hwins (by omega))).elim hok).2.inherits h

/-! ## Kernel entries

An entry stores the registers of the interrupted program in its frame first. That a program has
not raised its own level by then is what the processor sees to, and `Confined` says it. -/

/-- The state behind `save`. -/
def saved (k : Kernel) : Event → Kernel
  | .createProcess _ _ _ | .disposeProcess _ => k
  | .systemCall regs | .interrupt regs _ | .tick regs | .pageFault regs _ | .exception regs =>
    k.save regs

/-- **One kernel entry** makes guarded frames only. -/
theorem step_inherits (h : k.Inv True pool) (hs : k.EntersCarefully ev k') :
    Inherits (k.saved ev) k' := by
  obtain ⟨hcare, hadm, hok⟩ := hs
  cases ev with
  | createProcess ip privilege priority =>
    obtain ⟨r, hcreate, hlast⟩ := bind_eq_ok.mp hok
    obtain rfl := Except.ok.inj hlast
    have hC := ((createProcess_spec h).elim hcreate).2
    obtain ⟨⟨cr3, k₁⟩, -, hnew⟩ := bind_eq_ok.mp hcreate
    exact hC.inherits fun h0 => newProcess_guarded hnew h0
  | disposeProcess p => exact ((disposeProcess_spec h hadm.mem hcare).elim hok).2.inherits h
  | systemCall regs =>
    by_cases h4 : regs.ax = 4
    · obtain ⟨r, hM, -⟩ := step_openPhysicalMemory h4 hok
      exact hM.inherits h h.owned (Agree.refl k)
    by_cases h5 : regs.ax = 5
    · obtain ⟨f, g, r, hf, hM, -⟩ := step_allocMemory h h5 hok
      obtain ⟨hO, hA⟩ := inHand_owned hf
      exact hM.inherits h hO hA
    show Inherits (k.save regs) k'
    -- every other call
    refine systemCall_inherits h.save save_cx ⟨h4, h5⟩ hadm.1 (fun h3 => ?_)
      (fun h6 => normalWindows_save.mpr (hcare.2.2 h6)) hok
    have htarget : (k.save regs).disposeTarget regs.dx = k.disposeTarget regs.dx := rfl
    rw [htarget, (sameButRegs_save regs).thr_process]
    exact normalWindow_save.mpr (hcare.2.1 h3)
  | interrupt regs p => exact ((sendInterrupt_spec h.save hadm).elim hok).2.inherits
  | tick regs =>
    obtain ⟨-, k₁, hT, hS⟩ := (timerTick_spec h.save).elim hok
    exact hT.inherits.trans hS.inherits
  | pageFault regs cr2 =>
    change (if growsStack _ cr2 then _ else _) = _ at hok
    split at hok
    · next hg =>
      have hz : (k.save regs).pte k.currentProc (va2pde cr2) (va2pte cr2) = 0 := by
        rw [save_pte]
        refine hadm.1 ?_
        rw [growsStack_save] at hg
        exact hg
      obtain ⟨k₁, f, -, hT, hR⟩ := (growStack_replaced h.save hg hz).elim hok
      refine .of_same (hR.processTable.trans hT.processTable) (fun q => ?_) fun u => ?_
      · rw [hR.proc, hT.proc]
        exact ⟨rfl, rfl⟩
      · rw [hR.thr, hT.thr]
        exact ⟨rfl, rfl⟩
    · next hg =>
      rw [growsStack_save] at hg
      exact ((exceptionHandler_spec h.save (normalWindows_save.mpr (hcare hg))).elim hok).2.inherits
        h.save
  | exception regs =>
    exact ((exceptionHandler_spec h.save (normalWindows_save.mpr hcare)).elim hok).2.inherits h.save

/-- The interrupted program has changed nothing that it cannot change. -/
def Confined (k : Kernel) : Event → Prop
  | .createProcess _ _ _ | .disposeProcess _ => True
  | .systemCall regs | .interrupt regs _ | .tick regs | .pageFault regs _ | .exception regs =>
    StackFrame.Confined (k.thr k.currentThread).regs regs

/-- The saved registers are guarded if the program could not change what matters. -/
theorem guarded_save (h : k.Inv phy pool) (hg : k.Guarded)
    (hregs : StackFrame.Guarded (k.proc k.currentProc).privilege regs) :
    (k.save regs).Guarded := by
  intro q hq t ht
  show StackFrame.Guarded (k.proc q).privilege ((k.save regs).thr t).regs
  rw [save, modThr_thr]
  split
  · next htc =>
    -- the current thread belongs to the running process
    have hqc : q = k.currentProc := by
      rw [← (h.procOk hq).back t ht, htc]
      exact (h.procOk h.threads.running).back _ h.current_mem
    rw [hqc]
    exact hregs
  · exact hg q hq t ht

/-- A careful kernel entry from a program of level 3. -/
def EntersConfined (k : Kernel) (ev : Event) (k' : Kernel) : Prop :=
  k.Confined ev ∧ k.EntersCarefully ev k'

/-- One entry keeps all frames guarded. -/
theorem step_guarded (h : k.Inv True pool) (hg : k.Guarded) (hs : k.EntersConfined ev k') :
    k'.Guarded := by
  obtain ⟨hconf, hs⟩ := hs
  have hcur := hg k.currentProc h.threads.running k.currentThread h.current_mem
  refine (step_inherits h hs).guarded ?_
  cases ev with
  | createProcess ip privilege priority => exact hg
  | disposeProcess p => exact hg
  | _ => exact guarded_save h hg (hcur.confined hconf)

/-- Init is the process that `new_process` has made. -/
theorem newProcess_of_initProc (hok : k.initProc kernelPDE ip = .ok k') :
    ∃ (k₂ : Kernel) (d : Nat) (r : Nat × Kernel), k₂.newProcess d ip 0 1 = .ok r ∧
      k' = r.2.turnedOver r.1 := by
  obtain ⟨⟨d, k₂⟩, -, hrest⟩ := bind_eq_ok.mp hok
  obtain ⟨r, hnew, hlast⟩ := bind_eq_ok.mp hrest
  exact ⟨_, _, r, hnew, (Except.ok.inj hlast).symm⟩

/-- Init starts with a guarded frame. -/
theorem initProc_guarded (hB : k.Boot kernelPDE) (hok : k.initProc kernelPDE ip = .ok k₁) :
    k₁.Guarded := by
  obtain ⟨_, _, r, hnew, hr⟩ := newProcess_of_initProc hok
  have hguard := newProcess_guarded hnew
  have hinv : k₁.Inv False k.heap.freeSet := (initProc_spec hB).elim hok
  obtain ⟨k₂, k₃, p, -, hC, heq⟩ := (initProc_created False hB).elim hok
  -- both name the process that runs
  have hp : r.1 = p := congrArg currentProc (hr.symm.trans heq)
  obtain ⟨t, hthread, -⟩ := hC.first
  intro q hq u hu
  have hqp : q = p := by
    rw [heq] at hq
    exact List.mem_singleton.mp hq
  have hcur : u = (k₁.proc p).current := by
    have hmem := hC.procOk.current
    rw [hthread, List.mem_singleton] at hmem
    rw [hqp, heq] at hu
    have hu' : u ∈ (k₃.proc p).thread := by simpa [turnedOver] using hu
    rw [hthread, List.mem_singleton] at hu'
    rw [hu', ← hmem, heq]
    simp [turnedOver]
  have hne : u ≠ 0 := by
    rintro rfl
    have hin := hinv.owned.mem_managed (frameOf_threadPage hq hu)
    exact absurd hin.1 (by decide)
  rw [hcur] at hne ⊢
  rw [hqp, ← hp, hr] at *
  simpa [turnedOver] using hguard (by simpa [turnedOver] using hne)

/-- From the start of Init on, over every run of such entries, both invariants hold. -/
theorem Boot.run_inv_guarded (hB : k.Boot kernelPDE) (hinit : k.initProc kernelPDE ip = .ok k₁)
    (hrun : Run EntersConfined k₁ es k') : (∃ pool, k'.Inv True pool) ∧ k'.Guarded := by
  refine hrun.invariant (I := fun s => (∃ pool, s.Inv True pool) ∧ s.Guarded) ?_
    ⟨⟨_, (initProc_spec hB).elim hinit⟩, initProc_guarded hB hinit⟩
  rintro s e t ⟨⟨pool, hs⟩, hg⟩ he
  obtain ⟨pool', -, ht⟩ := Kernel.run_inv (.single he.2) hs
  exact ⟨⟨pool', ht⟩, step_guarded hs hg he⟩

/-- The kernel makes a process by itself, with no program interrupted. -/
theorem run_create_confined (hrun : Run Enters k [.createProcess ip privilege priority] k') :
    Run EntersConfined k [.createProcess ip privilege priority] k' := by
  cases hrun with
  | cons first rest =>
    cases rest
    exact .single ⟨trivial, careful_of_plain trivial, first⟩

/-- Init at a tick, with other arithmetic flags than those it started with. -/
def initRegs : StackFrame := { noRegs with cs := SEL_FLAT_C_USR, flags := 0x3246 }

end Kernel

end NorlitOS
