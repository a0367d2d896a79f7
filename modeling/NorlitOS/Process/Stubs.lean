import NorlitOS.Lib.Ia32
import NorlitOS.Process.Privilege

/-!
# The stubs of the kernel entries (`kernel/interrupt.asm`, `kernel/process/proc.asm`)

Every gate of the IDT leads to a stub: it saves the registers of the interrupted thread in the
frame at the end of the thread's page (`save`), calls a handler with its arguments, and returns to
`restart`, which loads the frame of what is then the current thread. Where the assembler puts the
code is a parameter.
-/

namespace NorlitOS

open Ia32

/-! ## The page of the processor (`const.inc`, `KernelPage`) -/

def kernel_str : Word := 0xC0007000

/-- `&current_thread`; `current_proc` is in front of it. -/
def currentThreadSlot : Word := kernel_str + 4

def GDT_LENGTH : Nat := 6

/-- `&handlerTable[v]`, behind four words and the GDT. -/
def handlerSlot (v : Word) : Word := kernel_str + BitVec.ofNat 32 (GDT_LENGTH * 8 + 16) + v * 4

/-- The end-of-interrupt register of the local APIC. -/
def APIC_EOI : Word := 0xFEE000B0

def SEL_FLAT_C : Selector := 8

/-- `tss.ss0`. -/
def SS0 : Selector := 16

/-! ## The stubs -/

/-- The macros `NOCODE_EXCEPTION`, `CODED_EXCEPTION` and `HWINTHandler` with their arguments, and
the two stubs written out. -/
inductive Stub where
  | nocode (v : Word)
  | coded (v : Word)
  | break_point
  | hwint (irq : Word)
  | sys_call
  deriving DecidableEq

/-- `IDTTable`. The reserved vectors share a stub with the argument -1. -/
def idt (v : Nat) : Stub :=
  if v = 3 then .break_point
  else if v ∈ [8, 10, 11, 12, 13, 14, 17] then .coded (BitVec.ofNat 32 v)
  else if v ≤ 20 ∧ v ≠ 15 then .nocode (BitVec.ofNat 32 v)
  else if 0x20 ≤ v ∧ v < 0x30 then .hwint (BitVec.ofNat 32 (v - 0x20))
  else if v = 0x30 then .sys_call
  else .nocode (-1)

/-- Where the code is. -/
structure Labels where
  stub : Stub → Word
  save : Word
  restart : Word
  nochg : Word
  chgcr3 : Word
  breakpoint_disp : Word

namespace Stub

/-- What stands in front of `call save`. -/
def before : Stub → List Op
  | .coded _ => [.popMem ⟨some .esp, -((4 + 8 + 1 + 1 + 1) * 4)⟩]
  | _ => []

/-- The arguments of the handler. -/
def arguments : Stub → List Op
  | .nocode v => [.pushImm (-1), .pushImm v]
  | .coded v => [.sub .esp 4, .pushImm v]
  | .break_point => []
  | .hwint irq => [.pushImm irq]
  | .sys_call => [.push .ebx, .push .ecx, .push .edx, .push .eax]

/-- The entry of the handler table a stub calls through. -/
def slot : Stub → Option Word
  | .nocode v => some (handlerSlot v)
  | .coded v => some (handlerSlot v)
  | .break_point => none
  | .hwint irq => some (handlerSlot 0x20 + irq * 4)
  | .sys_call => some (handlerSlot 0x30)

def handler (L : Labels) (s : Stub) : Control :=
  match s.slot with
  | some a => .callMem ⟨none, a⟩
  | none => .call L.breakpoint_disp

/-- The arguments go, and an interrupt of the hardware is acknowledged. -/
def after : Stub → List Op
  | .nocode _ => [.add .esp (4 * 2)]
  | .coded _ => [.add .esp (4 * 2)]
  | .break_point => []
  | .hwint _ => [.add .esp 4, .mov .eax APIC_EOI, .store ⟨some .eax, 0⟩ 0]
  | .sys_call => [.add .esp 16]

end Stub

def save (L : Labels) : List Op :=
  [.pushad, .pushSeg .ds, .pushSeg .es, .pushSeg .fs, .pushSeg .gs, .movFromSeg .esi .ss,
    .movToSeg .ds .esi, .movToSeg .es .esi, .pushImm L.restart]

def restart : List Op :=
  [.load .edx ⟨none, kernel_str⟩, .load .edx ⟨some .edx, 0⟩, .or .edx 0b11000,
    .load .ebp ⟨none, currentThreadSlot⟩, .lea .esp ⟨some .ebp, 0x1000 - (4 + 8 + 1 + 5) * 4⟩,
    .movFromCr3 .eax, .cmp .edx .eax]

def nochg : List Op :=
  [.popSeg .gs, .popSeg .fs, .popSeg .es, .popSeg .ds, .popad, .add .esp 4]

/-- The code stands at its labels. -/
structure Assembled (code : Code) (L : Labels) : Prop where
  stub : ∀ v < 256, ∃ a b n, Block code (L.stub (idt v)) (idt v).before (.call L.save) a ∧
    Block code a (idt v).arguments ((idt v).handler L) b ∧ Block code b (idt v).after .ret n
  save : ∃ n, Block code L.save (save L) (.jmpMem ⟨some .esp, (4 + 8 + 1) * 4⟩) n
  restart : ∃ n, Block code L.restart restart (.jne L.chgcr3) n ∧
    Block code n [] (.jmp L.chgcr3) L.nochg
  nochg : Block code L.nochg nochg .iretd L.chgcr3
  chgcr3 : ∃ n, Block code L.chgcr3 [.movToCr3 .edx] (.jmp L.nochg) n

/-! ## The frame -/

namespace StackFrame

/-- The words of a frame, upwards. -/
def words (f : StackFrame) : List Word :=
  [f.gs, f.fs, f.es, f.ds, f.di, f.si, f.bp, f.ignored, f.bx, f.dx, f.cx, f.ax, f.returnAddress,
    f.ip, f.cs, f.flags, f.sp, f.ss].map (BitVec.ofNat 32)

def reg (f : StackFrame) : Reg → Nat
  | .eax => f.ax
  | .ecx => f.cx
  | .edx => f.dx
  | .ebx => f.bx
  | .esp => f.sp
  | .ebp => f.bp
  | .esi => f.si
  | .edi => f.di

def seg (f : StackFrame) : Seg → Nat
  | .es => f.es
  | .cs => f.cs
  | .ss => f.ss
  | .ds => f.ds
  | .fs => f.fs
  | .gs => f.gs

/-- The frame holds the registers of `u`. -/
structure Saves (f : StackFrame) (u : Cpu) : Prop where
  reg : ∀ r, f.reg r = (u.reg r).toNat
  seg : ∀ s, BitVec.ofNat 16 (f.seg s) = u.seg s
  ip : f.ip = u.eip.toNat
  flags : f.flags = u.eflags.toNat

/-- `u` runs on with the registers in the frame. -/
structure Resumed (P : Processor) (f : StackFrame) (u : Cpu) : Prop where
  reg : ∀ r, u.reg r = BitVec.ofNat 32 (f.reg r)
  code : u.seg .cs = BitVec.ofNat 16 f.cs
  stack : u.seg .ss = BitVec.ofNat 16 f.ss
  data : ∀ s : Seg, s.Data → u.seg s = P.outer (BitVec.ofNat 16 (f.seg s))
  ip : u.eip = BitVec.ofNat 32 f.ip
  flags : u.eflags = flagsOf (BitVec.ofNat 32 f.flags)

end StackFrame

/-! ## Entries -/

/-- Words a stub writes on the stack of a thread, at most. -/
def stubDepth : Nat := 32

section Entry

variable {P : Processor} {code : Code} {L : Labels} {m : Mem} {top a e n : Word}
  {ws : List Word} {c : Cpu} {s : Stub} {v : Nat}

/-- What `save` leaves behind: the registers on the stack, and `restart` as return address. -/
structure Saved (L : Labels) (m : Mem) (top a : Word) (ws : List Word) (c d : Cpu) : Prop where
  stacked : ∃ gs fs es ds ignored, BitVec.setWidth 16 gs = c.seg .gs ∧
    BitVec.setWidth 16 fs = c.seg .fs ∧ BitVec.setWidth 16 es = c.seg .es ∧
    BitVec.setWidth 16 ds = c.seg .ds ∧ Pushed m top stubDepth
      (L.restart :: gs :: fs :: es :: ds :: c.reg .edi :: c.reg .esi :: c.reg .ebp :: ignored ::
        c.reg .ebx :: c.reg .edx :: c.reg .ecx :: c.reg .eax :: a :: ws) d
  beneath : ∀ k, ws.length + 14 < k → k ≤ stubDepth →
    d.mem.load (top - BitVec.ofNat 32 (4 * k)) = c.mem.load (top - BitVec.ofNat 32 (4 * k))
  reg : ∀ r, r ≠ .esp → r ≠ .esi → d.reg r = c.reg r
  seg : ∀ s, s ≠ .ds → s ≠ .es → d.seg s = c.seg s
  cr2 : d.cr2 = c.cr2
  eip : d.eip = a

/-- A pushed segment register is on the stack, and words further down are as before. -/
theorem pushSeg_spec {x : Seg} {d : Cpu} (h : Pushed m top stubDepth ws d)
    (hlen : ws.length < stubDepth) : ∃ w, BitVec.setWidth 16 w = d.seg x ∧
      Pushed m top stubDepth (w :: ws) (exec P d (.pushSeg x)) ∧
      ∀ k, ws.length + 1 < k → k ≤ stubDepth →
        (exec P d (.pushSeg x)).mem.load (top - BitVec.ofNat 32 (4 * k)) =
          d.mem.load (top - BitVec.ofNat 32 (4 * k)) := by
  obtain ⟨w, hw, hS⟩ := h.pushSelector (P := P) (d.seg x) hlen (by decide)
  refine ⟨w, hw, hS, fun k hk hkd => h.beneath_push hk ?_⟩
  unfold stubDepth at hkd
  omega

/-- The operations of `save`. -/
theorem save_spec (hS : Pushed m top stubDepth (a :: ws) c) (hlen : ws.length ≤ 5) :
    ∃ d, transfer P n (run P c (save L)) (.jmpMem ⟨some .esp, (4 + 8 + 1) * 4⟩) = some d ∧
      Saved L m top a ws c d := by
  have hdepth : 4 * stubDepth ≤ 2 ^ 31 := by decide
  have h32 : stubDepth = 32 := rfl
  set vs : List Word := [c.reg .eax, c.reg .ecx, c.reg .edx, c.reg .ebx, c.reg .esp, c.reg .ebp,
    c.reg .esi, c.reg .edi] with hvs
  have hseg : (c.pushes vs).seg = c.seg := Cpu.pushes_seg
  have h₀ : Pushed m top stubDepth (vs.reverse ++ a :: ws) (c.pushes vs) :=
    hS.pushes vs (by simp [hvs]; omega) hdepth
  have b₀ := fun k hk hkd => hS.beneath_pushes vs (k := k) hk hkd hdepth
  have hreg : ∀ r, r ≠ .esp → (c.pushes vs).reg r = c.reg r := fun r hr => Cpu.pushes_reg hr
  have hcr2 : (c.pushes vs).cr2 = c.cr2 := Cpu.pushes_cr2
  rw [← exec_pushad (P := P)] at h₀ b₀ hseg hreg hcr2
  obtain ⟨ds, hds, h₁, b₁⟩ := pushSeg_spec (P := P) (x := .ds) h₀ (by simp [hvs]; omega)
  obtain ⟨es, hes, h₂, b₂⟩ := pushSeg_spec (P := P) (x := .es) h₁ (by simp [hvs]; omega)
  obtain ⟨fs, hfs, h₃, b₃⟩ := pushSeg_spec (P := P) (x := .fs) h₂ (by simp [hvs]; omega)
  obtain ⟨gs, hgs, h₄, b₄⟩ := pushSeg_spec (P := P) (x := .gs) h₃ (by simp [hvs]; omega)
  set c₅ := run P c [.pushad, .pushSeg .ds, .pushSeg .es, .pushSeg .fs, .pushSeg .gs] with hc₅
  set c₆ := run P c₅ [.movFromSeg .esi .ss, .movToSeg .ds .esi, .movToSeg .es .esi] with hc₆
  have h₆ : Pushed m top stubDepth (gs :: fs :: es :: ds :: vs.reverse ++ a :: ws) c₆ :=
    h₄.congr rfl rfl
  -- the return address for the handler
  have h₇ := h₆.push (v := L.restart) (by simp [hvs]; omega) hdepth
  have hret : (c₆.push L.restart).mem.load ((c₆.push L.restart).reg .esp + 52) = a :=
    h₇.get (L.restart :: gs :: fs :: es :: ds :: vs.reverse) rfl
  refine ⟨(c₆.push L.restart).goto a, ?_, ⟨gs, fs, es, ds, c.reg .esp, ?_, ?_, ?_, ?_, ?_⟩, ?_, ?_,
    ?_, ?_, rfl⟩
  · exact congrArg (fun x => some ((c₆.push L.restart).goto x)) hret
  · exact hgs.trans (congrFun hseg .gs)
  · exact hfs.trans (congrFun hseg .fs)
  · exact hes.trans (congrFun hseg .es)
  · exact hds.trans (congrFun hseg .ds)
  · exact h₇.congr rfl rfl
  · intro k hk hkd
    have hlast := h₆.beneath_push (v := L.restart) (k := k) (by simp [hvs]; omega) (by omega)
    have h₀' := b₀ k (by simp [hvs]; omega) hkd
    have h₁' := b₁ k (by simp [hvs]; omega) hkd
    have h₂' := b₂ k (by simp [hvs]; omega) hkd
    have h₃' := b₃ k (by simp [hvs]; omega) hkd
    have h₄' := b₄ k (by simp [hvs]; omega) hkd
    exact hlast.trans (h₄'.trans (h₃'.trans (h₂'.trans (h₁'.trans h₀'))))
  · intro r hr hr'
    rw [goto_reg, Cpu.push_reg, if_neg hr]
    have h₆' : c₆.reg r = c₅.reg r := if_neg hr'
    have h₅' : c₅.reg r = (exec P c .pushad).reg r := by
      simp only [hc₅, run_cons, run_nil, exec_pushSeg, Cpu.pushSelector_reg, if_neg hr]
    exact h₆'.trans (h₅'.trans (hreg r hr))
  · intro s hs hs'
    have h₆' : c₆.seg s = c₅.seg s := (if_neg hs').trans (if_neg hs)
    exact h₆'.trans (congrFun hseg s)
  · have h₅' : c₅.cr2 = (exec P c .pushad).cr2 := by
      simp only [hc₅, run_cons, run_nil, exec_pushSeg, Cpu.pushSelector_cr2]
    have h₆' : c₆.cr2 = c₅.cr2 := by
      simp only [hc₆, run_cons, run_nil, exec, Cpu.setReg_cr2, Cpu.setSeg_cr2]
    rw [goto_cr2, Cpu.push_cr2, h₆', h₅', hcr2]

namespace Stub

/-- Exceptions for which the processor pushes an error code. -/
def HasCode : Stub → Prop
  | .coded _ => True
  | _ => False

/-- The arguments on the stack, for the interrupted registers and the error code. -/
def passed (u : Cpu) (err : Option Word) : Stub → List Word
  | .nocode v => [v, -1]
  | .coded v => [v, err.getD 0]
  | .break_point => []
  | .hwint irq => [irq]
  | .sys_call => [u.reg .eax, u.reg .edx, u.reg .ecx, u.reg .ebx]

end Stub

/-- The interrupted context has reached the stack and `save` is called. -/
structure Called (L : Labels) (m : Mem) (top a : Word) (err : Option Word) (s : Stub)
    (ws : List Word) (u d : Cpu) : Prop where
  stacked : Pushed m top stubDepth (a :: ws) d
  code : s.HasCode → d.mem.load (top - BitVec.ofNat 32 (4 * (ws.length + 15))) = err.getD 0
  reg : ∀ r, r ≠ .esp → d.reg r = u.reg r
  seg : ∀ s, d.seg s = u.seg s
  cr2 : d.cr2 = u.cr2
  eip : d.eip = L.save

/-- The first part of a stub: the error code goes where `save` does not write. -/
theorem before_spec {err : Option Word} (hS : Pushed m top stubDepth (err.toList ++ ws) c)
    (hlen : ws.length = 5) (hcode : s.HasCode ↔ err.isSome) :
    ∃ d, transfer P a (run P c s.before) (.call L.save) = some d ∧
      Called L m top a err s ws c d := by
  have hdepth : 4 * stubDepth ≤ 2 ^ 31 := by decide
  have hlt : ws.length < stubDepth := by
    rw [hlen]
    decide
  by_cases hs : s.HasCode
  · obtain ⟨e, rfl⟩ := Option.isSome_iff_exists.mp (hcode.mp hs)
    change Pushed m top stubDepth (e :: ws) c at hS
    obtain ⟨v, rfl⟩ : ∃ v, s = .coded v := by
      cases s with
      | coded v => exact ⟨v, rfl⟩
      | _ => exact hs.elim
    -- the pop computes its address with `esp` above the error code
    have hea : (c.drop 4).ea ⟨some .esp, -((4 + 8 + 1 + 1 + 1) * 4)⟩ =
        top - BitVec.ofNat 32 (4 * (ws.length + 15)) := by
      have hdrop : Pushed m top stubDepth ws (c.drop 4) := hS.drop [e] rfl
      show (c.drop 4).reg .esp + _ = _
      rw [hdrop.esp, hlen]
      bv_omega
    have hk : ws.length + 15 ≤ stubDepth := by
      rw [hlen]
      decide
    obtain ⟨h₁, hload⟩ := hS.stash (P := P) hea (by omega) hk hdepth
    have h₂ := h₁.push (v := a) hlt hdepth
    refine ⟨_, rfl, h₂.congr rfl rfl, fun _ => ?_, fun r hr => ?_, fun _ => rfl, rfl, rfl⟩
    · exact (h₁.beneath_push (by omega) (by rw [hlen]; decide)).trans hload
    · rw [goto_reg, Cpu.push_reg, if_neg hr]
      exact if_neg hr
  · obtain rfl : err = none := by
      rw [← Option.not_isSome_iff_eq_none, ← hcode]
      exact hs
    have hbefore : s.before = [] := by
      cases s with
      | coded v => exact absurd trivial hs
      | _ => rfl
    rw [hbefore, run_nil]
    have h₁ : Pushed m top stubDepth (a :: ws) (c.push a) := hS.push hlt hdepth
    exact ⟨_, rfl, h₁.congr rfl rfl, fun h => absurd h hs, fun r hr => if_neg hr, fun _ => rfl, rfl,
      rfl⟩

/-- The arguments of the handler. -/
theorem arguments_spec {err : Option Word} {u : Cpu}
    (hS : Pushed m top stubDepth (L.restart :: ws) c) (hlen : ws.length = 18)
    (hcode : s.HasCode → c.mem.load (top - BitVec.ofNat 32 (4 * (ws.length + 2))) = err.getD 0)
    (hreg : ∀ r, r ≠ .esp → r ≠ .esi → c.reg r = u.reg r) :
    Pushed m top stubDepth (s.passed u err ++ L.restart :: ws) (run P c s.arguments) := by
  have hdepth : 4 * stubDepth ≤ 2 ^ 31 := by decide
  have h32 : stubDepth = 32 := rfl
  have hroom : ∀ vs : List Word, vs.length ≤ 4 →
      vs.length + (L.restart :: ws).length ≤ stubDepth := by
    intro vs hvs
    rw [List.length_cons, hlen, h32]
    omega
  cases s with
  | nocode v => exact hS.pushes [-1, v] (hroom _ (by simp)) hdepth
  | coded v =>
    -- the error code is still beneath the frame
    have h₁ : Pushed m top stubDepth (err.getD 0 :: L.restart :: ws) (exec P c (.sub .esp 4)) :=
      hS.uncover (hcode trivial) rfl rfl
    exact h₁.push (by simp [hlen, h32]) hdepth
  | break_point => exact hS
  | hwint irq => exact hS.pushes [irq] (hroom _ (by simp)) hdepth
  | sys_call =>
    have hpassed : Stub.sys_call.passed u err =
        [c.reg .eax, c.reg .edx, c.reg .ecx, c.reg .ebx] := by
      simp [Stub.passed, hreg]
    rw [hpassed]
    exact hS.pushes [c.reg .ebx, c.reg .ecx, c.reg .edx, c.reg .eax] (hroom _ (by simp))
      hdepth

/-- Where the handler is, in a memory with the handler table. -/
def Stub.target (L : Labels) (m : Mem) (s : Stub) : Word :=
  match s.slot with
  | some x => m.load x
  | none => L.breakpoint_disp

/-- No byte of the word at `x` is in the part of the stack under `top` that the stubs write. -/
def OffStack (top x : Word) : Prop :=
  ∀ b, Within x 4 b → ¬ Within (top - BitVec.ofNat 32 (4 * stubDepth)) (4 * stubDepth) b

theorem load_eq_of_offStack {x : Word} (h : Pushed m top stubDepth ws c) (hx : OffStack top x) :
    c.mem.load x = m.load x :=
  load_congr fun b hb => h.outside b (hx b hb)

/-- The state at the start of a handler. -/
structure Handling (L : Labels) (m : Mem) (top b : Word) (err : Option Word) (s : Stub)
    (f : StackFrame) (u d : Cpu) : Prop where
  saves : f.Saves u
  stacked : Pushed m top stubDepth (b :: s.passed u err ++ L.restart :: f.words) d
  eip : d.eip = s.target L m
  level : d.seg .cs = SEL_FLAT_C
  cr2 : d.cr2 = u.cr2

/-- The call of the handler. -/
theorem handler_spec (hS : Pushed m top stubDepth ws c) (hlen : ws.length < stubDepth)
    (hslot : ∀ x, s.slot = some x → OffStack top x) :
    ∃ d, transfer P a c (s.handler L) = some d ∧ Pushed m top stubDepth (a :: ws) d ∧
      d.eip = s.target L m ∧ d.seg = c.seg ∧ d.cr2 = c.cr2 := by
  have hpush : Pushed m top stubDepth (a :: ws) (c.push a) := hS.push hlen (by decide)
  unfold Stub.handler Stub.target
  cases hx : s.slot with
  | none => exact ⟨_, rfl, hpush.congr rfl rfl, rfl, rfl, rfl⟩
  | some x =>
    refine ⟨_, rfl, hpush.congr rfl rfl, ?_, rfl, rfl⟩
    exact load_eq_of_offStack hS (hslot x hx)

/-- **Kernel entry.** From the interrupt to the handler: the frame of the thread holds what the
registers were, and the handler finds its arguments and its way back to `restart`. -/
theorem entry_spec {err : Option Word} (u : Cpu) (esp₀ : Word) (hL : Assembled code L)
    (hv : v < 256) (hcode : (idt v).HasCode ↔ err.isSome)
    (hslot : ∀ x, (idt v).slot = some x → OffStack esp₀ x) :
    ∃ d b n f, Reaches P code (interrupt P SS0 SEL_FLAT_C esp₀ (L.stub (idt v)) err u) d ∧
      Handling L u.mem esp₀ b err (idt v) f u d ∧ Block code b (idt v).after .ret n := by
  obtain ⟨a, b, n, hfirst, hsecond, hthird⟩ := hL.stub v hv
  set s := idt v
  obtain ⟨n', hsave⟩ := hL.save
  obtain ⟨cs, ss, hcs, hss, h₁⟩ := interrupt_stacked P u SS0 SEL_FLAT_C esp₀ (L.stub s) err
    (show 6 ≤ stubDepth by decide) (by decide)
  set c₁ := interrupt P SS0 SEL_FLAT_C esp₀ (L.stub s) err u with hc₁
  obtain ⟨c₂, ht₂, hC⟩ := before_spec (P := P) (L := L) (a := a) (s := s) h₁ rfl hcode
  obtain ⟨c₃, ht₃, hS⟩ := save_spec (P := P) (L := L) (n := n') hC.stacked (by simp)
  obtain ⟨gs, fs, es, ds, ignored, hgs, hfs, hes, hds, h₃⟩ := hS.stacked
  have hreg₁ : ∀ r, r ≠ .esp → c₂.reg r = u.reg r := fun r hr =>
    (hC.reg r hr).trans (interrupt_reg hr)
  have hseg₁ : ∀ x, x ≠ .cs → x ≠ .ss → c₂.seg x = u.seg x := fun x hx hx' => by
    rw [hC.seg, hc₁, interrupt_seg, if_neg hx, if_neg hx']
  set f : StackFrame := {
    gs := gs.toNat, fs := fs.toNat, es := es.toNat, ds := ds.toNat
    di := (u.reg .edi).toNat, si := (u.reg .esi).toNat, bp := (u.reg .ebp).toNat
    ignored := ignored.toNat, bx := (u.reg .ebx).toNat, dx := (u.reg .edx).toNat
    cx := (u.reg .ecx).toNat, ax := (u.reg .eax).toNat, returnAddress := a.toNat
    ip := u.eip.toNat, cs := cs.toNat, flags := u.eflags.toNat, sp := (u.reg .esp).toNat
    ss := ss.toNat } with hf
  -- the frame has the registers of the program
  have hsaves : f.Saves u := by
    refine ⟨fun r => ?_, fun x => ?_, rfl, rfl⟩
    · cases r <;> rfl
    · rw [← BitVec.ofNat_toNat] at hgs hfs hes hds hcs hss
      cases x with
      | es => exact hes.trans (hseg₁ .es (by decide) (by decide))
      | cs => exact hcs
      | ss => exact hss
      | ds => exact hds.trans (hseg₁ .ds (by decide) (by decide))
      | fs => exact hfs.trans (hseg₁ .fs (by decide) (by decide))
      | gs => exact hgs.trans (hseg₁ .gs (by decide) (by decide))
  have hwords : L.restart :: gs :: fs :: es :: ds :: c₂.reg .edi :: c₂.reg .esi :: c₂.reg .ebp ::
      ignored :: c₂.reg .ebx :: c₂.reg .edx :: c₂.reg .ecx :: c₂.reg .eax :: a ::
        [u.eip, cs, u.eflags, u.reg .esp, ss] = L.restart :: f.words := by
    simp [StackFrame.words, hf, hreg₁]
  rw [hwords] at h₃
  have hlen : f.words.length = 18 := rfl
  have h₄ := arguments_spec (P := P) (u := u) (s := s) h₃ hlen
    (fun hs => (hS.beneath 20 (by simp) (by decide)).trans (hC.code hs))
    fun r hr hr' => (hS.reg r hr hr').trans (hreg₁ r hr)
  have hroom : (s.passed u err ++ L.restart :: f.words).length < stubDepth := by
    rw [List.length_append, List.length_cons, hlen]
    cases s <;> simp [Stub.passed, stubDepth]
  obtain ⟨c₅, ht₅, h₅, heip, hseg₅, hcr2₅⟩ := handler_spec (P := P) (L := L) (a := b) h₄ hroom hslot
  have hargs : ∀ c : Cpu,
      (run P c s.arguments).seg = c.seg ∧ (run P c s.arguments).cr2 = c.cr2 := by
    intro c
    cases s <;> exact ⟨rfl, rfl⟩
  refine ⟨c₅, b, n, f, ?_, ⟨hsaves, h₅, heip, ?_, ?_⟩, hthird⟩
  · have l₁ : Reaches P code c₁ c₂ := Block.reaches hfirst ht₂
    have l₂ : Reaches P code c₂ c₃ := Block.reaches (by rw [hC.eip]; exact hsave) ht₃
    have l₃ : Reaches P code c₃ c₅ := Block.reaches (by rw [hS.eip]; exact hsecond) ht₅
    exact l₁.trans (l₂.trans l₃)
  · rw [hseg₅, (hargs c₃).1, hS.seg .cs (by decide) (by decide), hC.seg, hc₁, interrupt_seg,
      if_pos rfl]
  · rw [hcr2₅, (hargs c₃).2, hS.cr2, hC.cr2, hc₁, interrupt_cr2]

/-! ## Exits -/

/-- The number of arguments. -/
def Stub.argc : Stub → Nat
  | .nocode _ => 2
  | .coded _ => 2
  | .break_point => 0
  | .hwint _ => 1
  | .sys_call => 4

theorem length_passed {u : Cpu} {err : Option Word} : (s.passed u err).length = s.argc := by
  cases s <;> rfl

/-- The last part of a stub, behind the return of the handler. -/
theorem exit_spec {b n : Word} (hB : Block code b s.after .ret n) (he : c.eip = b)
    (hret : c.mem.load (c.reg .esp + BitVec.ofNat 32 (4 * s.argc)) = a)
    (hapic : ∀ x, Within (c.reg .esp + BitVec.ofNat 32 (4 * s.argc)) 4 x → ¬ Within APIC_EOI 4 x) :
    ∃ d, Reaches P code c d ∧ d.eip = a ∧ d.seg = c.seg ∧
      ∀ x, ¬ Within APIC_EOI 4 x → d.mem x = c.mem x := by
  subst he
  have hstack : ∀ e : Cpu, e.reg .esp = c.reg .esp + BitVec.ofNat 32 (4 * s.argc) →
      (∀ x, ¬ Within APIC_EOI 4 x → e.mem x = c.mem x) → e.top = a := by
    intro e hesp hmem
    rw [Cpu.top, hesp, ← hret]
    exact load_congr fun x hx => hmem x (hapic x hx)
  have hfinish : ∀ e : Cpu, run P c s.after = e →
      e.reg .esp = c.reg .esp + BitVec.ofNat 32 (4 * s.argc) → e.seg = c.seg →
      (∀ x, ¬ Within APIC_EOI 4 x → e.mem x = c.mem x) → ∃ d, Reaches P code c d ∧ d.eip = a ∧
        d.seg = c.seg ∧ ∀ x, ¬ Within APIC_EOI 4 x → d.mem x = c.mem x := by
    rintro e rfl hesp hseg hmem
    exact ⟨_, hB.reaches rfl, hstack _ hesp hmem, hseg, hmem⟩
  cases s with
  | nocode v => exact hfinish _ rfl rfl rfl fun _ _ => rfl
  | coded v => exact hfinish _ rfl rfl rfl fun _ _ => rfl
  | break_point => exact hfinish _ rfl (by simp [Stub.after, Stub.argc, run]) rfl fun _ _ => rfl
  -- the end of interrupt is the one store outside the stack
  | hwint irq =>
    refine hfinish _ rfl rfl rfl fun x hx => ?_
    show c.mem.store APIC_EOI 0 x = c.mem x
    exact store_of_not_within hx
  | sys_call => exact hfinish _ rfl rfl rfl fun _ _ => rfl

/-- The frame goes into the registers. -/
theorem nochg_spec {f : StackFrame} (hf : c.mem.Holds (c.reg .esp) f.words) (hcpl : c.cpl = 0)
    (hu : f.User) : ∃ d, transfer P a (run P c nochg) .iretd = some d ∧ f.Resumed P d ∧
      d.mem = c.mem ∧ d.cr3 = c.cr3 := by
  obtain ⟨hgs, hfs, hes, hds, hdi, hsi, hbp, -, hbx, hdx, hcx, hax, -, hrest⟩ := hf
  set e := run P c nochg with he
  have hreg : ∀ r, r ≠ .esp → e.reg r = BitVec.ofNat 32 (f.reg r) := by
    intro r hr
    cases r with
    | eax => exact hax
    | ecx => exact hcx
    | edx => exact hdx
    | ebx => exact hbx
    | esp => exact absurd rfl hr
    | ebp => exact hbp
    | esi => exact hsi
    | edi => exact hdi
  have hseg : ∀ s : Seg, s.Data → e.seg s = BitVec.ofNat 16 (f.seg s) := by
    -- a segment register takes the low half of the word
    have hlow : ∀ {v : Word} {k : Nat}, v = BitVec.ofNat 32 k →
        v.setWidth 16 = BitVec.ofNat 16 k := by
      rintro v k rfl
      exact BitVec.setWidth_ofNat_of_le (by decide) k
    rintro s ⟨hs, hs'⟩
    cases s with
    | cs => exact absurd rfl hs
    | ss => exact absurd rfl hs'
    | es => exact hlow hes
    | ds => exact hlow hds
    | fs => exact hlow hfs
    | gs => exact hlow hgs
  have htop : e.mem.Holds (e.reg .esp) [BitVec.ofNat 32 f.ip, BitVec.ofNat 32 f.cs,
      BitVec.ofNat 32 f.flags, BitVec.ofNat 32 f.sp, BitVec.ofNat 32 f.ss] := hrest
  have hbit : f.flags.testBit VM = false := hu.protectedMode
  have hvm : (BitVec.ofNat 32 f.flags).getLsbD VM = false := by
    rw [BitVec.getLsbD_ofNat, hbit, Bool.and_false]
  have hlevel : ((BitVec.ofNat 32 f.cs).setWidth 16 : Selector).toNat % 4 ≠ 0 := by
    rw [BitVec.setWidth_ofNat_of_le (by decide), BitVec.toNat_ofNat]
    have hlevel : f.cs % 4 = 3 := hu.level
    omega
  obtain ⟨d, hd, hdreg, hcs, hss, hdata, hip, hfl, hmem, hcr3⟩ := iret_outer (P := P) htop hcpl hvm
    hlevel
  rw [BitVec.setWidth_ofNat_of_le (by decide)] at hcs hss
  refine ⟨d, hd, ⟨fun r => ?_, hcs, hss, fun s hs => ?_, hip, hfl⟩, hmem, hcr3⟩
  · rw [hdreg]
    split
    · next hr => rw [hr]; rfl
    · next hr => exact hreg r hr
  · rw [hdata s hs, hseg s hs]

/-- **`restart`** runs the current thread of the memory with the registers in its frame. -/
theorem restart_spec {p x t : Word} {f : StackFrame} (hL : Assembled code L)
    (he : c.eip = L.restart) (hcpl : c.cpl = 0) (hp : c.mem.load kernel_str = p)
    (hx : c.mem.load p = x) (ht : c.mem.load currentThreadSlot = t)
    (hf : c.mem.Holds (t + (0x1000 - (4 + 8 + 1 + 5) * 4)) f.words) (hu : f.User) :
    ∃ d, Reaches P code c d ∧ f.Resumed P d ∧ d.mem = c.mem ∧ d.cr3 = x ||| 0b11000 := by
  obtain ⟨n, hrestart, hjmp⟩ := hL.restart
  obtain ⟨n', hchg⟩ := hL.chgcr3
  set c₁ := run P c restart with hc₁
  have hedx : c₁.reg .edx = x ||| 0b11000 := by
    simp [hc₁, restart, run, exec, Cpu.ea, hp, hx]
  have hesp : c₁.reg .esp = t + (0x1000 - (4 + 8 + 1 + 5) * 4) := by
    simp [hc₁, restart, run, exec, Cpu.ea, ht]
  have hmem : c₁.mem = c.mem := by simp [hc₁, restart, run, exec]
  have hseg : c₁.seg = c.seg := by simp [hc₁, restart, run, exec]
  -- both branches of the comparison lead to `.chgcr3`
  have l₁ : Reaches P code c (c₁.goto L.chgcr3) := by
    have hjne : Reaches P code c (c₁.goto (if c₁.eflags.getLsbD 6 = true then n else L.chgcr3)) :=
      Block.reaches (by rw [he]; exact hrestart) rfl
    split at hjne
    · exact hjne.trans (Block.reaches (c := c₁.goto n) hjmp rfl)
    · exact hjne
  set c₂ := (exec P (c₁.goto L.chgcr3) (.movToCr3 .edx)).goto L.nochg with hc₂
  have l₂ : Reaches P code (c₁.goto L.chgcr3) c₂ := Block.reaches hchg rfl
  have hframe : c₂.mem.Holds (c₂.reg .esp) f.words := by
    show c₁.mem.Holds (c₁.reg .esp) f.words
    rw [hmem, hesp]
    exact hf
  have hcpl₂ : c₂.cpl = 0 := by
    show (c₁.seg .cs).toNat % 4 = 0
    rw [hseg]
    exact hcpl
  obtain ⟨d, hd, hR, hdmem, hcr3⟩ := nochg_spec (P := P) (a := L.chgcr3) hframe hcpl₂ hu
  have l₃ : Reaches P code c₂ d := Block.reaches hL.nochg hd
  exact ⟨d, l₁.trans (l₂.trans l₃), hR, hdmem.trans hmem, hcr3.trans hedx⟩

end Entry

end NorlitOS
