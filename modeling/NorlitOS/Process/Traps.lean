import NorlitOS.Process.Stubs

/-!
# Traps

The records of the kernel are words in the memory of the processor. A trap out of a user program
leads to its handler with the state behind `save` in the memory, which is where a kernel entry of
the model begins, and the return of the handler leads to the user program that the model resumes.
-/

namespace NorlitOS

open Ia32 Dyadic Ledger

/-- `tss.esp0`: `current_thread + sizeof(Thread)`. -/
def threadTop (t : Nat) : Word := BitVec.ofNat 32 (t + PAGE_SIZE)

/-- `&t->regs`. -/
def frameAddr (t : Nat) : Word := BitVec.ofNat 32 (t + (PAGE_SIZE - 72))

/-- The words of a thread behind its list node. -/
def Thread.words (T : Thread) : List Word :=
  [T.process, T.threadID, T.flag, T.stacktop].map (BitVec.ofNat 32)

namespace Kernel

/-- The memory shows the state of the kernel: the page of the processor, and the records of
processes and threads. -/
structure Shows (k : Kernel) (m : Mem) : Prop where
  current : m.Holds kernel_str [BitVec.ofNat 32 k.currentProc, BitVec.ofNat 32 k.currentThread]
  process : ∀ p ∈ k.processTable, m.Holds (BitVec.ofNat 32 p)
    [BitVec.ofNat 32 (k.proc p).cr3, BitVec.ofNat 32 (k.proc p).current]
  thread : ∀ p ∈ k.processTable, ∀ t ∈ (k.proc p).thread,
    m.Holds (BitVec.ofNat 32 (t + 8)) (k.thr t).words
  regs : ∀ p ∈ k.processTable, ∀ t ∈ (k.proc p).thread,
    m.Holds (frameAddr t) (k.thr t).regs.words

instance (k : Kernel) (m : Mem) : Decidable (k.Shows m) :=
  decidable_of_iff (m.Holds kernel_str [BitVec.ofNat 32 k.currentProc,
      BitVec.ofNat 32 k.currentThread] ∧
    (∀ p ∈ k.processTable, m.Holds (BitVec.ofNat 32 p)
      [BitVec.ofNat 32 (k.proc p).cr3, BitVec.ofNat 32 (k.proc p).current]) ∧
    (∀ p ∈ k.processTable, ∀ t ∈ (k.proc p).thread,
      m.Holds (BitVec.ofNat 32 (t + 8)) (k.thr t).words) ∧
    ∀ p ∈ k.processTable, ∀ t ∈ (k.proc p).thread, m.Holds (frameAddr t) (k.thr t).regs.words)
    ⟨fun h => ⟨h.1, h.2.1, h.2.2.1, h.2.2.2⟩, fun h => ⟨h.current, h.process, h.thread, h.regs⟩⟩

end Kernel

/-! ## What a stub does not touch -/

section Frame

variable {m m' : Mem} {ws : List Word} {a f p t v : Nat} {h : Heap} {own : Owner → Option Nat}
  {pool : Set Nat} {o o' : Owner} {x : Word}

/-- A store outside `n` bytes changes no words there. -/
theorem holds_outside {x : Word} {n : Nat} (h : m.Holds (BitVec.ofNat 32 a) ws)
    (hm : ∀ b, ¬ Within x n b → m' b = m b) (ha : a + 4 * ws.length ≤ 2 ^ 32)
    (hx : x.toNat + n ≤ 2 ^ 32) (hd : a + 4 * ws.length ≤ x.toNat ∨ x.toNat + n ≤ a) :
    m'.Holds (BitVec.ofNat 32 a) ws := by
  refine h.congr fun b hb => hm b ?_
  unfold Within at hb ⊢
  bv_omega

/-- The part of the stack that a stub writes. -/
def stubArea (t : Nat) : Word := threadTop t - BitVec.ofNat 32 (4 * stubDepth)

theorem toNat_stubArea (ht : t + PAGE_SIZE ≤ 2 ^ 32) :
    (stubArea t).toNat = t + (PAGE_SIZE - 4 * stubDepth) := by
  unfold stubArea threadTop
  unfold PAGE_SIZE stubDepth at *
  bv_omega

/-- Owned frames lie between `PAGE_OFFSET` and the end of what the kernel maps. -/
theorem owned_bounds (hO : Owned h own pool) (ho : own o = some f) :
    f % PAGE_SIZE = 0 ∧ 0xC0000000 ≤ f ∧ f + PAGE_SIZE ≤ 0xF0000000 := by
  have hal : PAGE_SIZE ∣ f := hO.aligned o f ho
  obtain ⟨hlow, hhigh⟩ := hO.mem_managed ho
  refine ⟨Nat.mod_eq_zero_of_dvd hal, hlow, ?_⟩
  unfold PAGE_SIZE at *
  unfold PAGE_OFFSET MAX_MAPPING at *
  omega

/-- Words in a page that is not the page of the thread `t`. -/
theorem holds_page (hO : Owned h own pool) (ho : own o = some t) (ho' : own o' = some f)
    (hne : o ≠ o') (hm : ∀ b, ¬ Within (stubArea t) (4 * stubDepth) b → m' b = m b)
    (hlow : f ≤ a) (hhigh : a + 4 * ws.length ≤ f + PAGE_SIZE)
    (hw : m.Holds (BitVec.ofNat 32 a) ws) : m'.Holds (BitVec.ofNat 32 a) ws := by
  obtain ⟨hal, hlo, hhi⟩ := owned_bounds hO ho
  obtain ⟨hal', hlo', hhi'⟩ := owned_bounds hO ho'
  have hneq : t ≠ f := by
    rintro rfl
    exact hne (hO.owner_unique ho ho')
  have harea := toNat_stubArea (t := t) (by omega)
  unfold PAGE_SIZE stubDepth at *
  exact holds_outside hw hm (by omega) (by omega) (by omega)

theorem handlerSlot_mem {w : Word} (hw : w.toNat < 256 ∨ w = -1) :
    kernel_str.toNat ≤ (handlerSlot w).toNat ∧
      (handlerSlot w).toNat + 4 ≤ kernel_str.toNat + PAGE_SIZE := by
  unfold handlerSlot kernel_str GDT_LENGTH PAGE_SIZE
  rcases hw with hw | rfl
  · bv_omega
  · decide

/-- The slots of the handler table that the stubs call through are in the page of the processor. -/
theorem slot_mem (hv : v < 256) (hx : (idt v).slot = some x) :
    kernel_str.toNat ≤ x.toNat ∧ x.toNat + 4 ≤ kernel_str.toNat + PAGE_SIZE := by
  have hvec : (BitVec.ofNat 32 v).toNat < 256 := by
    rw [BitVec.toNat_ofNat]
    omega
  unfold idt at hx
  split at hx
  · exact absurd hx (by simp [Stub.slot])
  split at hx
  · rw [← Option.some.inj hx]
    exact handlerSlot_mem (Or.inl hvec)
  split at hx
  · rw [← Option.some.inj hx]
    exact handlerSlot_mem (Or.inl hvec)
  split at hx
  · next hirq =>
    -- `kernel_str.handlerTable2`
    have hslot : handlerSlot 0x20 + BitVec.ofNat 32 (v - 0x20) * 4 =
        handlerSlot (BitVec.ofNat 32 v) := by
      unfold handlerSlot
      bv_omega
    rw [← Option.some.inj hx, hslot]
    exact handlerSlot_mem (Or.inl hvec)
  split at hx
  · rw [← Option.some.inj hx]
    exact handlerSlot_mem (Or.inl (by decide))
  · rw [← Option.some.inj hx]
    exact handlerSlot_mem (Or.inr rfl)

end Frame

/-! ## The code, assembled -/

/-- A row of `assembled` for each stub. -/
def Stub.row : Stub → Nat
  | .nocode v => if v = -1 then 0xFF else v.toNat
  | .coded v => v.toNat
  | .break_point => 3
  | .hwint irq => irq.toNat + 0x20
  | .sys_call => 0x30

def assembledLabels : Labels where
  stub s := BitVec.ofNat 32 (16 * s.row)
  save := BitVec.ofNat 32 (16 * 256)
  restart := BitVec.ofNat 32 (16 * 257)
  nochg := BitVec.ofNat 32 (16 * 257) + 8 + 1
  chgcr3 := BitVec.ofNat 32 (16 * 258)
  breakpoint_disp := BitVec.ofNat 32 (16 * 259)

def Stub.instrs (L : Labels) (s : Stub) : List Instr :=
  s.before.map .op ++ .jump (.call L.save) :: (s.arguments.map .op ++ .jump (s.handler L) ::
    (s.after.map .op ++ .jump .ret :: []))

/-- The code of the stubs, `save` and `restart`. -/
def assembledRows (i : Nat) : List Instr :=
  let L := assembledLabels
  if i < 256 then (idt i).instrs L
  else if i = 256 then (save L).map .op ++ .jump (.jmpMem ⟨some .esp, (4 + 8 + 1) * 4⟩) :: []
  else if i = 257 then restart.map .op ++ .jump (.jne L.chgcr3) ::
    (([] : List Op).map .op ++ .jump (.jmp L.chgcr3) :: (nochg.map .op ++ .jump .iretd :: []))
  else if i = 258 then ([.movToCr3 .edx] : List Op).map .op ++ .jump (.jmp L.nochg) :: []
  else []

def assembled : Code := assemble assembledRows

theorem assembled_ok : Assembled assembled assembledLabels := by
  -- many vectors share a stub, so there are fewer rows than vectors
  have hrow : ∀ v < 256, (idt v).row < 256 ∧ idt (idt v).row = idt v := by decide +kernel
  have hlen : ∀ (L : Labels) (s : Stub), (s.instrs L).length ≤ 16 := by
    intro L s
    cases s <;> simp [Stub.instrs, Stub.before, Stub.arguments, Stub.after]
  constructor
  · intro v hv
    obtain ⟨hlt, hidt⟩ := hrow v hv
    have hrows : assembledRows (idt v).row = (idt v).instrs assembledLabels := by
      rw [assembledRows, if_pos hlt, hidt]
    have hplaced := placed_assemble assembledRows (i := (idt v).row) (by omega)
      (by rw [hrows]; exact hlen _ _)
    rw [hrows] at hplaced
    obtain ⟨hfirst, hrest⟩ := hplaced.block
    obtain ⟨hsecond, hrest⟩ := hrest.block
    exact ⟨_, _, _, hfirst, hsecond, hrest.block.1⟩
  · exact ⟨_, (placed_assemble assembledRows (i := 256) (by decide) (by decide)).block.1⟩
  · obtain ⟨hfirst, hrest⟩ :=
      (placed_assemble assembledRows (i := 257) (by decide) (by decide)).block
    exact ⟨_, hfirst, hrest.block.1⟩
  · obtain ⟨-, hrest⟩ :=
      (placed_assemble assembledRows (i := 257) (by decide) (by decide)).block
    exact hrest.block.2.block.1
  · exact ⟨_, (placed_assemble assembledRows (i := 258) (by decide) (by decide)).block.1⟩

/-- A processor that pushes selectors with zeros above them. -/
def plainProcessor : Processor where
  flags := fun _ _ fl => fl
  slot := fun _ s => s.setWidth 32
  low := fun _ s => by simp
  outer := id

namespace Kernel

/-- A memory with the records of the kernel. -/
def memory (k : Kernel) : Mem :=
  let m : Mem := Mem.storeWords (fun _ => 0) kernel_str
    [BitVec.ofNat 32 k.currentProc, BitVec.ofNat 32 k.currentThread]
  let m := k.processTable.foldl (fun m p => m.storeWords (BitVec.ofNat 32 p)
    [BitVec.ofNat 32 (k.proc p).cr3, BitVec.ofNat 32 (k.proc p).current]) m
  (k.processTable.flatMap fun p => (k.proc p).thread).foldl (fun m t =>
    (m.storeWords (BitVec.ofNat 32 (t + 8)) (k.thr t).words).storeWords (frameAddr t)
      (k.thr t).regs.words) m

variable {k k' k₁ k₂ : Kernel} {phy : Prop} {pool : Set Nat} {m m' : Mem} {f : StackFrame}
  {p t v kernelPDE ip : Nat} {es : List Event} {P : Processor} {code : Code} {L : Labels}
  {err : Option Word} {u c : Cpu} {x : Word}

/-- The thread that runs is not in the page of the processor. -/
theorem currentThread_ne (h : k.Inv phy pool) (hpage : kernel_str.toNat ∉ pool) :
    k.currentThread ≠ kernel_str.toNat := by
  intro hc
  have ho := frameOf_threadPage h.threads.running h.current_mem
  rw [hc] at ho
  exact hpage (h.owned.accounts.cell_subset ho (self_mem_page _))

/-- **`save`.** When nothing but the stack of the current thread has changed, and its frame is
there. -/
theorem Shows.save (hS : k.Shows m) (h : k.Inv phy pool) (hpage : kernel_str.toNat ∉ pool)
    (hm : ∀ b, ¬ Within (stubArea k.currentThread) (4 * stubDepth) b → m' b = m b)
    (hf : m'.Holds (frameAddr k.currentThread) f.words) : (k.save f).Shows m' := by
  have ho := frameOf_threadPage h.threads.running h.current_mem
  obtain ⟨hal, hlo, hhi⟩ := owned_bounds h.owned ho
  have hne := currentThread_ne h hpage
  have harea := toNat_stubArea (t := k.currentThread) (by omega)
  -- no other thread is in the page of the running one
  have hother : ∀ t, t ≠ k.currentThread → (k.save f).thr t = k.thr t := by
    intro t ht
    rw [Kernel.save, modThr_thr, if_neg ht]
  constructor
  · have hstr : kernel_str.toNat = 0xC0007000 := rfl
    rw [hstr] at hne
    unfold PAGE_SIZE stubDepth at *
    exact holds_outside (a := 0xC0007000) hS.current hm (by simp) (by omega)
      (by simp only [List.length_cons, List.length_nil]; omega)
  · intro p hp
    have hrec : k.frameOf (.record p) = some (p - 4) := if_pos hp
    obtain ⟨-, hlo', -⟩ := owned_bounds h.owned hrec
    exact holds_page h.owned ho hrec (by simp) hm (by omega)
      (by simp only [List.length_cons, List.length_nil, PAGE_SIZE]; omega) (hS.process p hp)
  · intro p hp t ht
    have hold : m.Holds (BitVec.ofNat 32 (t + 8)) (k.thr t).words := hS.thread p hp t ht
    by_cases htc : t = k.currentThread
    · subst htc
      have hwords : ((k.save f).thr k.currentThread).words = (k.thr k.currentThread).words := by
        rw [Kernel.save, modThr_thr_self]
        rfl
      rw [hwords]
      unfold PAGE_SIZE stubDepth at *
      exact holds_outside hold hm (by simp [Thread.words]; omega) (by omega)
        (by simp only [Thread.words, List.map_cons, List.map_nil, List.length_cons,
          List.length_nil]; omega)
    · rw [hother t htc]
      exact holds_page h.owned ho (frameOf_threadPage hp ht) (by simp [Ne.symm htc]) hm (by omega)
        (by simp [Thread.words, PAGE_SIZE]) hold
  · intro p hp t ht
    by_cases htc : t = k.currentThread
    · subst htc
      rw [Kernel.save, modThr_thr_self]
      exact hf
    · rw [hother t htc]
      exact holds_page h.owned ho (frameOf_threadPage hp ht) (by simp [Ne.symm htc]) hm
        (by omega) (by simp [StackFrame.words, PAGE_SIZE]) (hS.regs p hp t ht)

/-- The handler table is not on a stack. -/
theorem offStack_slot (h : k.Inv phy pool) (hpage : kernel_str.toNat ∉ pool) (hv : v < 256)
    (hx : (idt v).slot = some x) : OffStack (threadTop k.currentThread) x := by
  obtain ⟨hal, hlo, hhi⟩ :=
    owned_bounds h.owned (frameOf_threadPage h.threads.running h.current_mem)
  have hne := currentThread_ne h hpage
  obtain ⟨hxlo, hxhi⟩ := slot_mem hv hx
  have hstr : kernel_str.toNat = 0xC0007000 := rfl
  rw [hstr] at hne hxlo hxhi
  intro b hb hin
  unfold Within threadTop at *
  unfold PAGE_SIZE stubDepth at *
  bv_omega

/-! ## In -/

/-- The start of the handler of the vector `v`, for a program interrupted with the registers `u`.
The stack holds the return address, the arguments and `restart`. -/
structure AtHandler (code : Code) (L : Labels) (t v : Nat) (err : Option Word) (u d : Cpu) :
    Prop where
  eip : d.eip = (idt v).target L u.mem
  level : d.cpl = 0
  cr2 : d.cr2 = u.cr2
  esp : d.reg .esp = threadTop t - BitVec.ofNat 32 (4 * ((idt v).argc + 20))
  stack : ∃ b n, Block code b (idt v).after .ret n ∧
    d.mem.Holds (d.reg .esp) (b :: (idt v).passed u err ++ [L.restart])

/-- A trap that finds the state `k` in the memory. -/
theorem trap_spec (h : k.Inv phy pool) (hpage : kernel_str.toNat ∉ pool) (hA : Assembled code L)
    (hv : v < 256) (hcode : (idt v).HasCode ↔ err.isSome) (hS : k.Shows u.mem) :
    ∃ d f, Reaches P code
        (interrupt P SS0 SEL_FLAT_C (threadTop k.currentThread) (L.stub (idt v)) err u) d ∧
      AtHandler code L k.currentThread v err u d ∧ f.Saves u ∧ (k.save f).Shows d.mem := by
  obtain ⟨d, b, n, f, hreach, hH, hB⟩ := entry_spec (P := P) u (threadTop k.currentThread) hA hv
    hcode fun x hx => offStack_slot h hpage hv hx
  set vs : List Word := b :: (idt v).passed u err ++ [L.restart] with hvs
  have hstack : Pushed u.mem (threadTop k.currentThread) stubDepth (vs ++ f.words) d := by
    have hH' := hH.stacked
    rw [hvs, List.append_assoc]
    exact hH'
  have hlen : vs.length = (idt v).argc + 2 := by
    rw [hvs, List.length_append, List.length_cons, length_passed]
    rfl
  have hwords : f.words.length = 18 := rfl
  -- the frame is at the top of the page of the running thread
  have hframe : d.mem.Holds (frameAddr k.currentThread) f.words := by
    have hdrop := hstack.drop vs rfl
    have haddr : threadTop k.currentThread - BitVec.ofNat 32 (4 * f.words.length) =
        frameAddr k.currentThread := by
      rw [hwords]
      unfold threadTop frameAddr PAGE_SIZE
      bv_omega
    rw [← haddr, ← hdrop.esp]
    exact hdrop.holds
  refine ⟨d, f, hreach, ⟨hH.eip, ?_, hH.cr2, ?_, b, n, hB, ?_⟩, hH.saves,
    hS.save h hpage hH.stacked.outside hframe⟩
  · rw [Cpu.cpl, hH.level]
    rfl
  · rw [hstack.esp, List.length_append, hlen, hwords]
  · exact (Mem.holds_append.mp hstack.holds).1

/-- **Traps over runs.** -/
theorem run_traps (hB : k.Boot kernelPDE) (hinit : k.initProc kernelPDE ip = .ok k₁)
    (hpage : kernel_str.toNat ∉ k.heap.freeSet) (hrun : Run EntersCarefully k₁ es k')
    (hA : Assembled code L) (hv : v < 256) (hcode : (idt v).HasCode ↔ err.isSome)
    (hS : k'.Shows u.mem) :
    ∃ d f, Reaches P code
        (interrupt P SS0 SEL_FLAT_C (threadTop k'.currentThread) (L.stub (idt v)) err u) d ∧
      AtHandler code L k'.currentThread v err u d ∧ f.Saves u ∧ (k'.save f).Shows d.mem := by
  obtain ⟨pool, hsub, h⟩ := hB.run_inv hinit hrun
  exact trap_spec h (fun hp => hpage (hsub hp)) hA hv hcode hS

/-- A user program over the records of the kernel. -/
def userCpu (k : Kernel) : Cpu where
  reg := fun r => if r = .esp then 0xBFFFF000 else 0
  seg := fun s => if s = .cs then BitVec.ofNat 16 SEL_FLAT_C_USR else BitVec.ofNat 16 SEL_FLAT_D_USR
  eip := 0x400000
  eflags := 0x202
  cr2 := 0xBFFFEFFC
  cr3 := BitVec.ofNat 32 (k.proc k.currentProc).cr3
  mem := k.memory

/-- A page fault with its error code. -/
theorem run_traps_pageFault : ∃ (k k₁ k' : Kernel) (u d : Cpu) (f : StackFrame),
    k.Boot 0 ∧ k.initProc 0 0 = .ok k₁ ∧
    Run EntersCarefully k₁ [.createProcess 0 1 100, call 6 0 0 0] k' ∧ k'.Shows u.mem ∧
    Reaches plainProcessor assembled (interrupt plainProcessor SS0 SEL_FLAT_C
      (threadTop k'.currentThread) (assembledLabels.stub (idt 14)) (some 6) u) d ∧
    AtHandler assembled assembledLabels k'.currentThread 14 (some 6) u d ∧ f.Saves u ∧
    (k'.save f).Shows d.mem := by
  obtain ⟨k, k₁, k', hB, hfree, hinit, hrun, hS⟩ := run_of_booted_any (a := 0xC0400000)
    (n := 0x400000) (l := [.createProcess 0 1 100, call 6 0 0 0])
    (P := fun k => k.Shows (userCpu k).mem) (by decide +kernel)
  have hrun' := run_of_plain (by simp [Plain, call, noRegs]) hrun
  have hpage : kernel_str.toNat ∉ k.heap.freeSet := by
    rw [hfree]
    exact fun hc => absurd hc.1 (by decide)
  have hcode : (idt 14).HasCode ↔ (some 6 : Option Word).isSome := ⟨fun _ => rfl, fun _ => trivial⟩
  obtain ⟨d, f, hreach, hH, hf, hS'⟩ := run_traps (P := plainProcessor) hB hinit hpage hrun'
    assembled_ok (by decide) hcode hS
  exact ⟨k, k₁, k', _, d, f, hB, hinit, hrun', hS, hreach, hH, hf, hS'⟩

/-! ## Out -/

/-- The handler of the vector `v` has returned; it was called on the stack of the thread `t`. -/
structure Returned (code : Code) (L : Labels) (t v : Nat) (c : Cpu) : Prop where
  eip : ∃ n, Block code c.eip (idt v).after .ret n
  level : c.cpl = 0
  esp : c.reg .esp = threadTop t - BitVec.ofNat 32 (4 * ((idt v).argc + 19))
  back : c.mem.load (threadTop t - BitVec.ofNat 32 (4 * 19)) = L.restart

/-- The records of the kernel are not where the registers of the APIC are. -/
theorem Shows.of_eoi (hS : k.Shows m) (h : k.Inv phy pool)
    (hm : ∀ b, ¬ Within APIC_EOI 4 b → m' b = m b) : k.Shows m' := by
  have heoi : APIC_EOI.toNat = 0xFEE000B0 := rfl
  -- the pages of the kernel end below the registers of the APIC
  have hbelow : ∀ {o f a ws}, k.frameOf o = some f → a + 4 * ws.length ≤ f + PAGE_SIZE →
      m.Holds (BitVec.ofNat 32 a) ws → m'.Holds (BitVec.ofNat 32 a) ws := by
    intro o f a ws ho ha hw
    obtain ⟨-, -, hhi⟩ := owned_bounds h.owned ho
    exact holds_outside hw hm (by omega) (by omega) (by omega)
  constructor
  · exact holds_outside (a := 0xC0007000) hS.current hm (by simp) (by omega) (by simp; omega)
  · intro p hp
    have hrec : k.frameOf (.record p) = some (p - 4) := if_pos hp
    obtain ⟨-, hlo, -⟩ := owned_bounds h.owned hrec
    exact hbelow hrec (by simp [PAGE_SIZE]; omega) (hS.process p hp)
  · intro p hp t ht
    exact hbelow (frameOf_threadPage hp ht) (by simp [Thread.words, PAGE_SIZE])
      (hS.thread p hp t ht)
  · intro p hp t ht
    exact hbelow (frameOf_threadPage hp ht) (by simp [StackFrame.words, PAGE_SIZE])
      (hS.regs p hp t ht)

/-- `restart` with the state `k` in the memory. -/
theorem resume_spec (h : k.Inv phy pool) (hg : k.Guarded) (hA : Assembled code L)
    (he : c.eip = L.restart) (hcpl : c.cpl = 0) (hS : k.Shows c.mem) :
    ∃ d, Reaches P code c d ∧ (k.thr k.currentThread).regs.Resumed P d ∧ d.cpl = 3 ∧
      d.mem = c.mem ∧ d.cr3 = BitVec.ofNat 32 (k.proc k.currentProc).cr3 ||| 0b11000 := by
  have hu := (hg k.currentProc h.threads.running k.currentThread h.current_mem).toUser
  obtain ⟨hproc, hthr, -⟩ := hS.current
  obtain ⟨hcr3, -⟩ := hS.process k.currentProc h.threads.running
  -- where `restart` lets `esp` point
  have hframe : c.mem.Holds (BitVec.ofNat 32 k.currentThread + (0x1000 - (4 + 8 + 1 + 5) * 4))
      (k.thr k.currentThread).regs.words := by
    have haddr : BitVec.ofNat 32 k.currentThread + (0x1000 - (4 + 8 + 1 + 5) * 4) =
        frameAddr k.currentThread := by
      unfold frameAddr PAGE_SIZE
      bv_omega
    rw [haddr]
    exact hS.regs k.currentProc h.threads.running k.currentThread h.current_mem
  obtain ⟨d, hreach, hR, hmem, hdcr3⟩ := restart_spec (P := P) hA he hcpl hproc hcr3 hthr hframe hu
  refine ⟨d, hreach, hR, ?_, hmem, hdcr3⟩
  have hlevel := hu.level
  rw [Cpu.cpl, hR.code, BitVec.toNat_ofNat]
  omega

/-- **Returns over runs.** -/
theorem run_returns {ev : Event} (hB : k.Boot kernelPDE)
    (hinit : k.initProc kernelPDE ip = .ok k₁) (hrun : Run EntersConfined k₁ es k₂)
    (hs : k₂.EntersConfined ev k') (hA : Assembled code L)
    (hR : Returned code L k₂.currentThread v c) (hS : k'.Shows c.mem) :
    ∃ d, Reaches P code c d ∧ (k'.thr k'.currentThread).regs.Resumed P d ∧ d.cpl = 3 ∧
      k'.Shows d.mem ∧ d.cr3 = BitVec.ofNat 32 (k'.proc k'.currentProc).cr3 ||| 0b11000 := by
  obtain ⟨⟨pool, h⟩, hg⟩ := hB.run_inv_guarded hinit hrun
  obtain ⟨⟨pool', h'⟩, hg'⟩ := hB.run_inv_guarded hinit (hrun.append (.single hs))
  obtain ⟨-, -, hhi⟩ := owned_bounds h.owned (frameOf_threadPage h.threads.running h.current_mem)
  obtain ⟨n, hblock⟩ := hR.eip
  have hesp : c.reg .esp + BitVec.ofNat 32 (4 * (idt v).argc) =
      threadTop k₂.currentThread - BitVec.ofNat 32 (4 * 19) := by
    rw [hR.esp]
    bv_omega
  have hback : c.mem.load (c.reg .esp + BitVec.ofNat 32 (4 * (idt v).argc)) = L.restart := by
    rw [hesp]
    exact hR.back
  -- the return address is not in the way of the end of interrupt
  have hapart : ∀ x, Within (c.reg .esp + BitVec.ofNat 32 (4 * (idt v).argc)) 4 x →
      ¬ Within APIC_EOI 4 x := by
    intro x hx hin
    rw [hesp] at hx
    unfold Within threadTop APIC_EOI at *
    unfold PAGE_SIZE at *
    bv_omega
  obtain ⟨e, hexit, heip, hseg, hmem⟩ := exit_spec (P := P) hblock rfl hback hapart
  have hcpl : e.cpl = 0 := by
    rw [Cpu.cpl, hseg]
    exact hR.level
  have hS' : k'.Shows e.mem := hS.of_eoi h' hmem
  obtain ⟨d, hreach, hres, hlevel, hdmem, hcr3⟩ := resume_spec (P := P) h' hg' hA heip hcpl hS'
  exact ⟨d, hexit.trans hreach, hres, hlevel, by rw [hdmem]; exact hS', hcr3⟩

/-- A tick in which Init goes on. -/
theorem run_returns_tick : ∃ (k k₁ k₂ k' : Kernel) (c d : Cpu), k.Boot 0 ∧
    k.initProc 0 0 = .ok k₁ ∧ Run EntersConfined k₁ [.createProcess 0 1 100] k₂ ∧
    k₂.EntersConfined (.tick initRegs) k' ∧
    Returned assembled assembledLabels k₂.currentThread 0x20 c ∧ k'.Shows c.mem ∧
    Reaches plainProcessor assembled c d ∧
    (k'.thr k'.currentThread).regs.Resumed plainProcessor d ∧ d.cpl = 3 ∧ k'.Shows d.mem ∧
    d.cr3 = BitVec.ofNat 32 (k'.proc k'.currentProc).cr3 ||| 0b11000 := by
  obtain ⟨k, k₁, k₂, k', hB, hinit, hrun, hs, hconf, hS⟩ := run_of_booted_step (a := 0xC0400000)
    (n := 0x400000) (l := [.createProcess 0 1 100]) (e := .tick initRegs)
    (P := fun k k' => StackFrame.Confined (k.thr k.currentThread).regs initRegs ∧
      k'.Shows (k'.memory.store (threadTop k.currentThread - BitVec.ofNat 32 (4 * 19))
        assembledLabels.restart)) (by decide +kernel)
  have hrun' := run_create_confined hrun
  have hs' : k₂.EntersConfined (.tick initRegs) k' := ⟨hconf, careful_of_plain trivial, hs⟩
  obtain ⟨_, b, n, -, -, hblock⟩ := assembled_ok.stub 0x20 (by decide)
  set c : Cpu := {
    reg := fun _ => threadTop k₂.currentThread - BitVec.ofNat 32 (4 * ((idt 0x20).argc + 19))
    seg := fun _ => SEL_FLAT_C
    eip := b
    eflags := 2
    cr2 := 0
    cr3 := 0
    mem := k'.memory.store (threadTop k₂.currentThread - BitVec.ofNat 32 (4 * 19))
      assembledLabels.restart } with hc
  -- the handler runs at level 0
  have hcpl : c.cpl = 0 := by
    show SEL_FLAT_C.toNat % 4 = 0
    decide
  have hR : Returned assembled assembledLabels k₂.currentThread 0x20 c :=
    ⟨⟨n, hblock⟩, hcpl, rfl, load_store_self⟩
  obtain ⟨d, hreach, hres, hlevel, hS', hcr3⟩ := run_returns (P := plainProcessor) hB hinit hrun'
    hs' assembled_ok hR hS
  exact ⟨k, k₁, k₂, k', c, d, hB, hinit, hrun', hs', hR, hS, hreach, hres, hlevel, hS', hcr3⟩

end Kernel

end NorlitOS
