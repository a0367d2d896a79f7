import Mathlib.Data.List.Basic
import Mathlib.Logic.Relation
import Mathlib.Tactic.Ring

/-!
# The integer core of an IA-32 processor

Protected mode with flat segments: linear addresses, no paging. Straight-line operations are
total functions on the processor state; control transfers may be undefined. The run of a block
of operations is their composition, and what a block leaves on the stack is read off the words
it pushes.
-/

namespace Ia32

abbrev Word := BitVec 32

abbrev Selector := BitVec 16

/-! ## Memory

Memory is a function on linear addresses, so an address never fails. A word is stored byte by
byte; the lemmas say what a later `load` sees of it, first for one word and then for a row of
words. -/

/-- The byte at every linear address. -/
abbrev Mem := Word → BitVec 8

/-- `b` is one of the `n` bytes from `a` on. -/
def Within (a : Word) (n : Nat) (b : Word) : Prop := (b - a).toNat < n

instance {a b : Word} {n : Nat} : Decidable (Within a n b) := Nat.decLt _ _

namespace Mem

/-- The little-endian word at `a`. -/
def load (m : Mem) (a : Word) : Word := m (a + 3) ++ m (a + 2) ++ m (a + 1) ++ m a

def store (m : Mem) (a v : Word) : Mem := fun b =>
  if Within a 4 b then v.extractLsb' (8 * (b - a).toNat) 8 else m b

/-- The words `ws` stand in memory from `a` on. -/
def Holds (m : Mem) : Word → List Word → Prop
  | _, [] => True
  | a, w :: ws => m.load a = w ∧ Holds m (a + 4) ws

instance decidableHolds (m : Mem) : ∀ a ws, Decidable (Holds m a ws)
  | _, [] => instDecidableTrue
  | a, _ :: ws => @instDecidableAnd _ _ _ (decidableHolds m (a + 4) ws)

/-- The words `ws` stored from `a` on. -/
def storeWords (m : Mem) : Word → List Word → Mem
  | _, [] => m
  | a, w :: ws => (m.store a w).storeWords (a + 4) ws

end Mem

section Memory

variable {m m' : Mem} {a b v w top : Word} {ws us : List Word} {i j n : Nat}

/-- The address `i` bytes behind `a` is within `n` bytes of it, also where the sum wraps around.
-/
theorem within_add (hi : i < n) (hn : n ≤ 2 ^ 32) : Within a n (a + BitVec.ofNat 32 i) := by
  unfold Within
  bv_omega

theorem Within.mono (h : Within a n b) (hn : n ≤ i) : Within a i b := Nat.lt_of_lt_of_le h hn

/-- A word depends on its four bytes only. -/
theorem load_congr (h : ∀ b, Within a 4 b → m' b = m b) : m'.load a = m.load a := by
  have h₀ : m' a = m a := h a (by unfold Within; bv_omega)
  have h₁ : m' (a + 1) = m (a + 1) := h _ (by unfold Within; bv_omega)
  have h₂ : m' (a + 2) = m (a + 2) := h _ (by unfold Within; bv_omega)
  have h₃ : m' (a + 3) = m (a + 3) := h _ (by unfold Within; bv_omega)
  rw [Mem.load, Mem.load, h₀, h₁, h₂, h₃]

/-- A store leaves every byte outside its word alone. -/
theorem store_of_not_within (h : ¬ Within a 4 b) : m.store a v b = m b := if_neg h

/-- What was stored is loaded. -/
theorem load_store_self : (m.store a v).load a = v := by
  have hbyte : ∀ i < 4, m.store a v (a + BitVec.ofNat 32 i) = v.extractLsb' (8 * i) 8 := by
    intro i hi
    have hsub : (a + BitVec.ofNat 32 i - a).toNat = i := by bv_omega
    rw [Mem.store, if_pos (within_add hi (by omega)), hsub]
  have h₀ : m.store a v a = v.extractLsb' 0 8 := by
    have h := hbyte 0 (by omega)
    rwa [show a + BitVec.ofNat 32 0 = a by bv_omega] at h
  have h₁ : m.store a v (a + 1) = v.extractLsb' 8 8 := hbyte 1 (by omega)
  have h₂ : m.store a v (a + 2) = v.extractLsb' 16 8 := hbyte 2 (by omega)
  have h₃ : m.store a v (a + 3) = v.extractLsb' 24 8 := hbyte 3 (by omega)
  rw [Mem.load, h₀, h₁, h₂, h₃]
  -- the bytes in their order make the word again, bit by bit
  ext i hi
  simp only [BitVec.getElem_append, BitVec.getElem_extractLsb']
  repeat' split
  all_goals
    rw [← BitVec.getLsbD_eq_getElem hi]
    congr 1
    omega

/-- Words at different multiples of four below `top` do not overlap. -/
theorem load_store_below (hij : i ≠ j) (hi : 4 * i ≤ 2 ^ 32) (hj : 4 * j ≤ 2 ^ 32)
    (hwrap : 4 * i + 4 * j < 2 ^ 32) :
    (m.store (top - BitVec.ofNat 32 (4 * i)) v).load (top - BitVec.ofNat 32 (4 * j)) =
      m.load (top - BitVec.ofNat 32 (4 * j)) := by
  refine load_congr fun b hb => store_of_not_within ?_
  unfold Within at hb ⊢
  bv_omega

/-- The words behind the first are within the whole row. -/
theorem Within.tail (h : Within (a + 4) (4 * n) b) : Within a (4 * (n + 1)) b := by
  unfold Within at h ⊢
  bv_omega

namespace Mem

/-- Words that no store has touched. -/
theorem Holds.congr (h : Holds m a ws) (hm : ∀ b, Within a (4 * ws.length) b → m' b = m b) :
    Holds m' a ws := by
  induction ws generalizing a with
  | nil => trivial
  | cons w ws ih =>
    obtain ⟨hw, hws⟩ := h
    rw [List.length_cons] at hm
    refine ⟨?_, ih hws fun b hb => hm b hb.tail⟩
    rw [← hw]
    exact load_congr fun b hb => hm b (hb.mono (by omega))

/-- A row of words is one row behind another. -/
theorem holds_append : Holds m a (us ++ ws) ↔
    Holds m a us ∧ Holds m (a + BitVec.ofNat 32 (4 * us.length)) ws := by
  induction us generalizing a with
  | nil => simp [Holds]
  | cons u us ih =>
    have hadd : a + 4 + BitVec.ofNat 32 (4 * us.length) =
        a + BitVec.ofNat 32 (4 * (u :: us).length) := by
      rw [List.length_cons]
      bv_omega
    simp only [List.cons_append, Holds, ih, hadd, and_assoc]

/-- One more word on top of the stack at `a`. -/
theorem Holds.push (h : Holds m a ws) (hlen : 4 * (ws.length + 1) ≤ 2 ^ 32) :
    Holds (m.store (a - 4) v) (a - 4) (v :: ws) := by
  refine ⟨load_store_self, ?_⟩
  rw [BitVec.sub_add_cancel]
  refine h.congr fun b hb => store_of_not_within ?_
  unfold Within at hb ⊢
  bv_omega

end Mem

end Memory

/-! ## The processor

Straight-line operations (`Op`) and control transfers (`Control`) are apart: the former are total
functions on the state, and only the latter may have no result. What the manuals leave open is the
parameter `Processor`, about which no more is assumed than its one law. -/

inductive Reg where
  | eax
  | ecx
  | edx
  | ebx
  | esp
  | ebp
  | esi
  | edi
  deriving DecidableEq

inductive Seg where
  | es
  | cs
  | ss
  | ds
  | fs
  | gs
  deriving DecidableEq

structure Cpu where
  reg : Reg → Word
  seg : Seg → Selector
  eip : Word
  eflags : Word
  cr2 : Word
  cr3 : Word
  mem : Mem

/-- `[base + disp]`. -/
structure Addr where
  base : Option Reg
  disp : Word

/-- Operations that leave control to the next instruction. -/
inductive Op where
  | push (r : Reg)
  | pushImm (v : Word)
  | pushSeg (s : Seg)
  | pushad
  | popMem (m : Addr)
  | popSeg (s : Seg)
  | popad
  | mov (r : Reg) (v : Word)
  | load (r : Reg) (m : Addr)
  | store (m : Addr) (v : Word)
  | movFromSeg (r : Reg) (s : Seg)
  | movToSeg (s : Seg) (r : Reg)
  | lea (r : Reg) (m : Addr)
  | add (r : Reg) (v : Word)
  | sub (r : Reg) (v : Word)
  | or (r : Reg) (v : Word)
  | cmp (r r' : Reg)
  | movFromCr3 (r : Reg)
  | movToCr3 (r : Reg)

inductive Control where
  | jmp (target : Word)
  | jmpMem (m : Addr)
  | jne (target : Word)
  | call (target : Word)
  | callMem (m : Addr)
  | ret
  | iretd

inductive Instr where
  | op (o : Op)
  | jump (j : Control)

/-- What the manuals leave to the processor: the flags of an arithmetic operation besides the zero
flag, the word a pushed segment register leaves in its slot, and the data segment registers after
a return to an outer level. -/
structure Processor where
  flags : Op → (Reg → Word) → Word → Word
  slot : Word → Selector → Word
  low : ∀ w s, (slot w s).setWidth 16 = s
  outer : Selector → Selector

namespace Cpu

def setReg (c : Cpu) (r : Reg) (v : Word) : Cpu :=
  { c with reg := fun r' => if r' = r then v else c.reg r' }

def setSeg (c : Cpu) (s : Seg) (v : Selector) : Cpu :=
  { c with seg := fun s' => if s' = s then v else c.seg s' }

/-- The effective address. -/
def ea (c : Cpu) (m : Addr) : Word :=
  match m.base with
  | none => m.disp
  | some r => c.reg r + m.disp

def push (c : Cpu) (v : Word) : Cpu :=
  { c.setReg .esp (c.reg .esp - 4) with mem := c.mem.store (c.reg .esp - 4) v }

/-- The word on top of the stack. -/
def top (c : Cpu) : Word := c.mem.load (c.reg .esp)

def goto (c : Cpu) (a : Word) : Cpu := { c with eip := a }

/-- `esp` moved up by `n` bytes. -/
def drop (c : Cpu) (n : Word) : Cpu := c.setReg .esp (c.reg .esp + n)

/-- The zero flag is bit 6. -/
def setFlags (c : Cpu) (fl result : Word) : Cpu :=
  { c with eflags := if result = 0 then fl ||| 0x40 else fl &&& ~~~0x40 }

/-- The privilege level is in the low bits of `cs`. -/
def cpl (c : Cpu) : Nat := (c.seg .cs).toNat % 4

/-- `pop r32`. -/
def popReg (c : Cpu) (r : Reg) : Cpu := (c.drop 4).setReg r c.top

def pushSelector (P : Processor) (c : Cpu) (s : Selector) : Cpu :=
  c.push (P.slot (c.mem.load (c.reg .esp - 4)) s)

end Cpu

/-- The flags of an operation with the given result. -/
def Cpu.arith (P : Processor) (c : Cpu) (o : Op) (result : Word) : Cpu :=
  c.setFlags (P.flags o c.reg c.eflags) result

def exec (P : Processor) (c : Cpu) : Op → Cpu
  | .push r => c.push (c.reg r)
  | .pushImm v => c.push v
  | .pushSeg s => c.pushSelector P (c.seg s)
  -- `pushad` stores the `esp` from before its first push, `popad` does not load it
  | .pushad =>
    [.eax, .ecx, .edx, .ebx, .esp, .ebp, .esi, .edi].foldl (fun d r => d.push (c.reg r)) c
  | .popMem m => { c.drop 4 with mem := c.mem.store ((c.drop 4).ea m) c.top }
  | .popSeg s => (c.setSeg s (c.top.setWidth 16)).drop 4
  | .popad => [.ebx, .edx, .ecx, .eax].foldl Cpu.popReg
      (([.edi, .esi, .ebp].foldl Cpu.popReg c).drop 4)
  | .mov r v => c.setReg r v
  | .load r m => c.setReg r (c.mem.load (c.ea m))
  | .store m v => { c with mem := c.mem.store (c.ea m) v }
  | .movFromSeg r s => c.setReg r ((c.reg r).extractLsb' 16 16 ++ c.seg s)
  | .movToSeg s r => c.setSeg s ((c.reg r).setWidth 16)
  | .lea r m => c.setReg r (c.ea m)
  | .add r v => (c.arith P (.add r v) (c.reg r + v)).setReg r (c.reg r + v)
  | .sub r v => (c.arith P (.sub r v) (c.reg r - v)).setReg r (c.reg r - v)
  | .or r v => (c.arith P (.or r v) (c.reg r ||| v)).setReg r (c.reg r ||| v)
  | .cmp r r' => c.arith P (.cmp r r') (c.reg r - c.reg r')
  | .movFromCr3 r => c.setReg r c.cr3
  | .movToCr3 r => { c with cr3 := c.reg r }

/-- The flags with their reserved bits. -/
def flagsOf (w : Word) : Word := w &&& 0x003F7FD5 ||| 2

/-- The virtual-8086 flag. -/
def VM : Nat := 17

/-- `iretd` at level 0. Returns to virtual-8086 mode are left undefined. -/
def iret (P : Processor) (c : Cpu) : Option Cpu :=
  let ip := c.top
  let cs := (c.mem.load (c.reg .esp + 4)).setWidth 16
  let fl := c.mem.load (c.reg .esp + 8)
  if c.cpl ≠ 0 ∨ fl.getLsbD VM = true then none
  else if cs.toNat % 4 = 0 then
    some { (c.drop 12).setSeg .cs cs with eip := ip, eflags := flagsOf fl }
  else
    some { c.setReg .esp (c.mem.load (c.reg .esp + 12)) with
      seg := fun
        | .cs => cs
        | .ss => (c.mem.load (c.reg .esp + 16)).setWidth 16
        | s => P.outer (c.seg s)
      eip := ip
      eflags := flagsOf fl }

/-- A control transfer; `next` is the address behind it. -/
def transfer (P : Processor) (next : Word) (c : Cpu) : Control → Option Cpu
  | .jmp target => some (c.goto target)
  | .jmpMem m => some (c.goto (c.mem.load (c.ea m)))
  | .jne target => some (c.goto (if c.eflags.getLsbD 6 = true then next else target))
  | .call target => some ((c.push next).goto target)
  | .callMem m => some ((c.push next).goto (c.mem.load (c.ea m)))
  | .ret => some ((c.drop 4).goto c.top)
  | .iretd => iret P c

/-- An interrupt through an interrupt gate of level 0 while an outer level runs: the stack of
level 0, the interrupted context on it, and for some vectors an error code. -/
def interrupt (P : Processor) (ss₀ cs₀ : Selector) (esp₀ gate : Word) (err : Option Word)
    (c : Cpu) : Cpu :=
  let d := (c.setReg .esp esp₀).setSeg .ss ss₀
  let d := d.pushSelector P (c.seg .ss)
  let d := d.push (c.reg .esp)
  let d := d.push c.eflags
  let d := d.pushSelector P (c.seg .cs)
  let d := d.push c.eip
  let d := err.elim d d.push
  -- the gate clears TF, IF, NT, RF and VM
  { d.setSeg .cs cs₀ with eip := gate, eflags := c.eflags &&& ~~~0x34300 }

/-! ## Code

Code is a partial function, and not bytes to be decoded: an instruction is given with the address
behind it. A piece of code that stands in memory is described by `Laid` and `Block`, so that the
addresses in between do not show in what is proved about it. -/

/-- The instruction at an address, and the address behind it. -/
abbrev Code := Word → Option (Instr × Word)

def step (P : Processor) (code : Code) (c : Cpu) : Option Cpu :=
  match code c.eip with
  | none => none
  | some (.op o, next) => some ((exec P c o).goto next)
  | some (.jump j, next) => transfer P next c j

/-- The operations `os` stand in the code from `a` to `b`. -/
inductive Laid (code : Code) : Word → List Op → Word → Prop where
  | nil (a : Word) : Laid code a [] a
  | cons {a a' b : Word} {o : Op} {os : List Op} (first : code a = some (.op o, a'))
      (rest : Laid code a' os b) : Laid code a (o :: os) b

/-- At `a` stand the operations `os` and the transfer `j`, and behind it is `next`. -/
def Block (code : Code) (a : Word) (os : List Op) (j : Control) (next : Word) : Prop :=
  ∃ b, Laid code a os b ∧ code b = some (.jump j, next)

/-- A row of instructions at every sixteenth address, each with the length 1. -/
def assemble (rows : Nat → List Instr) : Code := fun a =>
  (rows (a.toNat / 16))[a.toNat % 16]?.map (·, a + 1)

/-- The operations of a block. -/
def run (P : Processor) (c : Cpu) (os : List Op) : Cpu := os.foldl (exec P) c

theorem run_nil {P : Processor} {c : Cpu} : run P c [] = c := rfl

/-- The first operation, then the others. -/
theorem run_cons {P : Processor} {c : Cpu} {o : Op} {os : List Op} :
    run P c (o :: os) = run P (exec P c o) os := rfl

/-- Instructions of length 1. -/
def Placed (code : Code) : Word → List Instr → Prop
  | _, [] => True
  | a, i :: is => code a = some (i, a + 1) ∧ Placed code (a + 1) is

/-- Instructions of length 1 that end with a transfer are a block, and what follows is placed
behind it. -/
theorem Placed.block {code : Code} {a : Word} {os : List Op} {j : Control} {is : List Instr}
    (h : Placed code a (os.map .op ++ .jump j :: is)) :
    Block code a os j (a + BitVec.ofNat 32 (os.length + 1)) ∧
      Placed code (a + BitVec.ofNat 32 (os.length + 1)) is := by
  induction os generalizing a with
  | nil => exact ⟨⟨a, .nil a, h.1⟩, h.2⟩
  | cons o os ih =>
    obtain ⟨⟨b, hL, hj⟩, hrest⟩ := ih h.2
    have hadd : a + 1 + BitVec.ofNat 32 (os.length + 1) =
        a + BitVec.ofNat 32 ((o :: os).length + 1) := by
      rw [List.length_cons]
      bv_omega
    rw [hadd] at hj hrest
    exact ⟨⟨b, .cons h.1 hL, hj⟩, hrest⟩

/-- The row of `assemble` stands at its address: rows do not overlap, as none is longer than
sixteen instructions. -/
theorem placed_assemble (rows : Nat → List Instr) {i : Nat} (hi : i < 2 ^ 28)
    (hlen : (rows i).length ≤ 16) : Placed (assemble rows) (BitVec.ofNat 32 (16 * i)) (rows i) := by
  -- the induction is over what is left of the row from column `j` on
  suffices h : ∀ is j, (rows i).drop j = is →
      Placed (assemble rows) (BitVec.ofNat 32 (16 * i + j)) is from h _ 0 rfl
  intro is
  induction is with
  | nil => exact fun _ _ => trivial
  | cons x is ih =>
    intro j hj
    have hx : (rows i)[j]? = some x := by
      rw [← List.head?_drop, hj]
      rfl
    have hlt : j < 16 := by
      have hj' := (List.getElem?_eq_some_iff.mp hx).1
      omega
    have hnext : BitVec.ofNat 32 (16 * i + j) + 1 = BitVec.ofNat 32 (16 * i + (j + 1)) := by
      bv_omega
    constructor
    · have hnat : (BitVec.ofNat 32 (16 * i + j)).toNat = 16 * i + j := by
        rw [BitVec.toNat_ofNat]
        omega
      have hrow : (16 * i + j) / 16 = i := by omega
      have hcol : (16 * i + j) % 16 = j := by omega
      rw [assemble, hnat, hrow, hcol, hx]
      rfl
    · rw [hnext]
      refine ih (j + 1) ?_
      rw [← List.tail_drop, hj]
      rfl

/-! ## Runs

A block runs to its transfer in as many steps as it has operations. Proofs about code go from
block to block with `Block.reaches` and never look at a single step. -/

/-- The processor gets from `c` to `d`. -/
def Reaches (P : Processor) (code : Code) (c d : Cpu) : Prop :=
  Relation.ReflTransGen (fun c c' => step P code c = some c') c d

section Blocks

variable {P : Processor} {code : Code} {c c' : Cpu} {a b next : Word} {o : Op} {os : List Op}
  {j : Control}

/-! Operations do not look at `eip`. -/

/-- A jump leaves the registers alone. -/
@[simp] theorem goto_reg : (c.goto a).reg = c.reg := rfl
@[simp] theorem goto_seg : (c.goto a).seg = c.seg := rfl
@[simp] theorem goto_eip : (c.goto a).eip = a := rfl
@[simp] theorem goto_cr2 : (c.goto a).cr2 = c.cr2 := rfl
@[simp] theorem goto_mem : (c.goto a).mem = c.mem := rfl

/-- A push does not care where the code is. -/
theorem goto_push {v : Word} : (c.goto a).push v = (c.push v).goto a := rfl

theorem goto_drop {v : Word} : (c.goto a).drop v = (c.drop v).goto a := rfl

theorem goto_popReg {r : Reg} : (c.goto a).popReg r = (c.popReg r).goto a := rfl

/-- No operation reads `eip`, so it may be set before or after. -/
theorem exec_goto : exec P (c.goto a) o = (exec P c o).goto a := by
  cases o with
  | pushad => simp only [exec, List.foldl_cons, List.foldl_nil, goto_push, goto_reg]
  | popad => simp only [exec, List.foldl_cons, List.foldl_nil, goto_popReg, goto_drop]
  | _ => rfl

theorem run_goto : run P (c.goto a) os = (run P c os).goto a := by
  induction os generalizing c with
  | nil => rfl
  | cons o os ih => exact (congrArg (run P · os) exec_goto).trans ih

/-- A transfer takes the address behind it from the code, and not from `eip`. -/
theorem transfer_goto : transfer P next (c.goto a) j = transfer P next c j := by
  cases j <;> rfl

/-- The operations of a block, one after the other. -/
theorem Laid.reaches (hL : Laid code a os b) (hc : c.eip = a) :
    Reaches P code c ((run P c os).goto b) := by
  induction hL generalizing c with
  | nil a =>
    subst hc
    exact .refl
  | @cons a a' b o os first _ ih =>
    have hstep : step P code c = some ((exec P c o).goto a') := by rw [step, hc, first]
    have hrest : Reaches P code ((exec P c o).goto a') ((run P ((exec P c o).goto a') os).goto b) :=
      ih rfl
    rw [run_goto] at hrest
    exact .head hstep hrest

/-- **The rule of blocks.** -/
theorem Block.reaches (hB : Block code c.eip os j next)
    (ht : transfer P next (run P c os) j = some c') : Reaches P code c c' := by
  obtain ⟨b, hL, hj⟩ := hB
  have hlast : step P code ((run P c os).goto b) = some c' := by
    rw [step, goto_eip, hj]
    exact transfer_goto.trans ht
  exact (hL.reaches rfl).tail hlast

end Blocks

/-! ## What each operation leaves alone

Frame lemmas: which registers an operation changes, for those that a stub uses between the entry
and the exit of the kernel. -/

namespace Cpu

variable {c : Cpu} {r r' : Reg} {s s' : Seg} {v fl result : Word} {sel : Selector} {n : Word}
  {P : Processor} {o : Op} {vs : List Word}

/-- The register that is set, and the others. -/
@[simp] theorem setReg_reg : (c.setReg r v).reg r' = if r' = r then v else c.reg r' := rfl
@[simp] theorem setReg_seg : (c.setReg r v).seg = c.seg := rfl
@[simp] theorem setReg_mem : (c.setReg r v).mem = c.mem := rfl
@[simp] theorem setReg_cr2 : (c.setReg r v).cr2 = c.cr2 := rfl
@[simp] theorem setReg_cr3 : (c.setReg r v).cr3 = c.cr3 := rfl

/-- The segment register that is set, and the others. -/
@[simp] theorem setSeg_seg : (c.setSeg s sel).seg s' = if s' = s then sel else c.seg s' := rfl
@[simp] theorem setSeg_reg : (c.setSeg s sel).reg = c.reg := rfl
@[simp] theorem setSeg_mem : (c.setSeg s sel).mem = c.mem := rfl
@[simp] theorem setSeg_cr2 : (c.setSeg s sel).cr2 = c.cr2 := rfl
@[simp] theorem setSeg_cr3 : (c.setSeg s sel).cr3 = c.cr3 := rfl

/-- A push moves `esp` only. -/
@[simp] theorem push_reg :
    (c.push v).reg r = if r = .esp then c.reg .esp - 4 else c.reg r := rfl
@[simp] theorem push_seg : (c.push v).seg = c.seg := rfl
@[simp] theorem push_mem : (c.push v).mem = c.mem.store (c.reg .esp - 4) v := rfl
@[simp] theorem push_cr2 : (c.push v).cr2 = c.cr2 := rfl

/-- The push of a segment register moves `esp` only. -/
@[simp] theorem pushSelector_reg :
    (c.pushSelector P sel).reg r = if r = .esp then c.reg .esp - 4 else c.reg r := rfl
@[simp] theorem pushSelector_seg : (c.pushSelector P sel).seg = c.seg := rfl
@[simp] theorem pushSelector_cr2 : (c.pushSelector P sel).cr2 = c.cr2 := rfl

/-- Dropping moves `esp` only. -/
@[simp] theorem drop_reg :
    (c.drop n).reg r = if r = .esp then c.reg .esp + n else c.reg r := rfl
@[simp] theorem drop_seg : (c.drop n).seg = c.seg := rfl
@[simp] theorem drop_mem : (c.drop n).mem = c.mem := rfl
@[simp] theorem drop_cr3 : (c.drop n).cr3 = c.cr3 := rfl

/-- The flags are no general register. -/
@[simp] theorem arith_reg : (c.arith P o result).reg = c.reg := rfl
@[simp] theorem arith_seg : (c.arith P o result).seg = c.seg := rfl
@[simp] theorem arith_mem : (c.arith P o result).mem = c.mem := rfl
@[simp] theorem arith_cr2 : (c.arith P o result).cr2 = c.cr2 := rfl
@[simp] theorem arith_cr3 : (c.arith P o result).cr3 = c.cr3 := rfl

/-- Several words, the last of them on top. -/
def pushes (c : Cpu) (vs : List Word) : Cpu := vs.foldl push c

/-- Pushes leave the registers but `esp` alone. -/
theorem pushes_reg (hr : r ≠ .esp) : (c.pushes vs).reg r = c.reg r := by
  induction vs generalizing c with
  | nil => rfl
  | cons v vs ih => exact ih.trans (if_neg hr)

theorem pushes_seg : (c.pushes vs).seg = c.seg := by
  induction vs generalizing c with
  | nil => rfl
  | cons v vs ih => exact ih

theorem pushes_cr2 : (c.pushes vs).cr2 = c.cr2 := by
  induction vs generalizing c with
  | nil => rfl
  | cons v vs ih => exact ih

end Cpu

/-! ## The stack

`Pushed` is what is known of a stack in the middle of a stub: the words pushed so far, on top of a
base address, and that nothing outside the room for them was written. Each operation has a lemma
that turns one `Pushed` into the next, so that a stub is followed by composing them. -/

/-- The words `ws` have been pushed since `esp` was `top` and the memory `m`; at most `depth`
words below `top` have been written. -/
structure Pushed (m : Mem) (top : Word) (depth : Nat) (ws : List Word) (c : Cpu) : Prop where
  esp : c.reg .esp = top - BitVec.ofNat 32 (4 * ws.length)
  holds : c.mem.Holds (c.reg .esp) ws
  outside : ∀ b, ¬ Within (top - BitVec.ofNat 32 (4 * depth)) (4 * depth) b → c.mem b = m b

section Stack

variable {P : Processor} {m : Mem} {top v w : Word} {depth k : Nat} {ws us vs : List Word}
  {c d : Cpu} {sel : Selector}

/-- Only `esp` and the memory matter. -/
theorem Pushed.congr (h : Pushed m top depth ws c) (hesp : d.reg .esp = c.reg .esp)
    (hmem : d.mem = c.mem) : Pushed m top depth ws d := by
  constructor
  · rw [hesp, h.esp]
  · rw [hesp, hmem]
    exact h.holds
  · rw [hmem]
    exact h.outside

/-- One word more, as long as there is room. The bound on the room keeps the stack from wrapping
around. -/
theorem Pushed.push (h : Pushed m top depth ws c) (hroom : ws.length < depth)
    (hd : 4 * depth ≤ 2 ^ 31) : Pushed m top depth (v :: ws) (c.push v) := by
  constructor
  · rw [Cpu.push_reg, if_pos rfl, h.esp, List.length_cons]
    bv_omega
  · exact h.holds.push (by omega)
  · intro b hb
    rw [Cpu.push_mem, store_of_not_within, h.outside b hb]
    rw [h.esp]
    unfold Within at hb ⊢
    bv_omega

variable (sel) in
/-- A segment register leaves a word whose low half is the selector; what is in its high half is
up to the processor. -/
theorem Pushed.pushSelector (h : Pushed m top depth ws c) (hroom : ws.length < depth)
    (hd : 4 * depth ≤ 2 ^ 31) : ∃ w, w.setWidth 16 = sel ∧
      Pushed m top depth (w :: ws) (c.pushSelector P sel) :=
  ⟨_, P.low _ _, h.push hroom hd⟩

variable (vs) in
/-- Several words more; the last one is on top. -/
theorem Pushed.pushes (h : Pushed m top depth ws c) (hroom : vs.length + ws.length ≤ depth)
    (hd : 4 * depth ≤ 2 ^ 31) : Pushed m top depth (vs.reverse ++ ws) (c.pushes vs) := by
  induction vs generalizing c ws with
  | nil => exact h
  | cons v vs ih =>
    rw [List.length_cons] at hroom
    have hpush : Pushed m top depth (v :: ws) (c.push v) := h.push (by omega) hd
    rw [List.reverse_cons, List.append_assoc]
    have hlen : vs.length + (v :: ws).length ≤ depth := by
      rw [List.length_cons]
      omega
    exact ih hpush hlen

/-- The word on top of the stack is the last one pushed. -/
theorem Pushed.head (h : Pushed m top depth (w :: ws) c) : c.top = w := h.holds.1

/-- The words further up. -/
theorem Pushed.get {n : Word} (us : List Word) (h : Pushed m top depth (us ++ w :: ws) c)
    (hn : n = BitVec.ofNat 32 (4 * us.length)) : c.mem.load (c.reg .esp + n) = w := by
  rw [hn]
  exact (Mem.holds_append.mp h.holds).2.1

/-- Words that are dropped are no longer on the stack, and those below them are on top. -/
theorem Pushed.drop (us : List Word) (h : Pushed m top depth (us ++ ws) c) {n : Word}
    (hn : n = BitVec.ofNat 32 (4 * us.length)) : Pushed m top depth ws (c.drop n) := by
  subst hn
  constructor
  · rw [Cpu.drop_reg, if_pos rfl, h.esp, List.length_append]
    bv_omega
  · rw [Cpu.drop_reg, if_pos rfl]
    exact (Mem.holds_append.mp h.holds).2
  · exact h.outside

/-- Words further down than the push. -/
theorem Pushed.beneath_push (h : Pushed m top depth ws c) (hk : ws.length + 1 < k)
    (hkd : 4 * k ≤ 2 ^ 31) :
    (c.push v).mem.load (top - BitVec.ofNat 32 (4 * k)) =
      c.mem.load (top - BitVec.ofNat 32 (4 * k)) := by
  have hesp : c.reg .esp - 4 = top - BitVec.ofNat 32 (4 * (ws.length + 1)) := by
    rw [h.esp]
    bv_omega
  rw [Cpu.push_mem, hesp]
  exact load_store_below (by omega) (by omega) (by omega) (by omega)

variable (vs) in
/-- The same for several words. -/
theorem Pushed.beneath_pushes (h : Pushed m top depth ws c) (hroom : vs.length + ws.length < k)
    (hkd : k ≤ depth) (hd : 4 * depth ≤ 2 ^ 31) :
    (c.pushes vs).mem.load (top - BitVec.ofNat 32 (4 * k)) =
      c.mem.load (top - BitVec.ofNat 32 (4 * k)) := by
  induction vs generalizing c ws with
  | nil => rfl
  | cons v vs ih =>
    rw [List.length_cons] at hroom
    have hpush : Pushed m top depth (v :: ws) (c.push v) := h.push (by omega) hd
    have hlen : vs.length + (v :: ws).length < k := by
      rw [List.length_cons]
      omega
    exact (ih hpush hlen).trans (h.beneath_push (by omega) (by omega))

/-- Lowering `esp` by a word uncovers what lies there. -/
theorem Pushed.uncover (h : Pushed m top depth ws c)
    (hv : c.mem.load (top - BitVec.ofNat 32 (4 * (ws.length + 1))) = v)
    (hesp : d.reg .esp = c.reg .esp - 4) (hmem : d.mem = c.mem) :
    Pushed m top depth (v :: ws) d := by
  have hd : d.reg .esp = top - BitVec.ofNat 32 (4 * (ws.length + 1)) := by
    rw [hesp, h.esp]
    bv_omega
  constructor
  · exact hd
  · rw [hmem]
    refine ⟨?_, ?_⟩
    · rw [hd]
      exact hv
    · rw [hesp, BitVec.sub_add_cancel]
      exact h.holds
  · rw [hmem]
    exact h.outside

/-- `pop` of the top into the memory below the stack. -/
theorem Pushed.stash (h : Pushed m top depth (w :: ws) c) {a : Addr}
    (ha : (c.drop 4).ea a = top - BitVec.ofNat 32 (4 * k)) (hk : ws.length < k) (hkd : k ≤ depth)
    (hd : 4 * depth ≤ 2 ^ 31) :
    Pushed m top depth ws (exec P c (.popMem a)) ∧
      (exec P c (.popMem a)).mem.load (top - BitVec.ofNat 32 (4 * k)) = w := by
  have hdrop : Pushed m top depth ws (c.drop 4) := h.drop [w] rfl
  have hmem : (exec P c (.popMem a)).mem = c.mem.store (top - BitVec.ofNat 32 (4 * k)) w := by
    rw [← ha, ← h.head]
    rfl
  have hesp : (exec P c (.popMem a)).reg .esp = (c.drop 4).reg .esp := rfl
  refine ⟨⟨by rw [hesp, hdrop.esp], ?_, fun b hb => ?_⟩, by rw [hmem, load_store_self]⟩
  · rw [hesp, hmem]
    refine hdrop.holds.congr fun b hb => store_of_not_within ?_
    rw [hdrop.esp] at hb
    unfold Within at hb ⊢
    bv_omega
  · rw [hmem, store_of_not_within, h.outside b hb]
    unfold Within at hb ⊢
    bv_omega

theorem exec_pushSeg {s : Seg} : exec P c (.pushSeg s) = c.pushSelector P (c.seg s) := rfl

/-- `pushad` pushes the eight registers, `esp` as it was before. -/
theorem exec_pushad : exec P c .pushad = c.pushes [c.reg .eax, c.reg .ecx, c.reg .edx, c.reg .ebx,
    c.reg .esp, c.reg .ebp, c.reg .esi, c.reg .edi] := rfl

/-! ## Interrupts

What an interrupt through a gate leaves on the stack of level 0, and which registers the handler
finds as the interrupted program had them. -/

section Interrupt

variable {ss₀ cs₀ : Selector} {esp₀ gate : Word} {err : Option Word} {r : Reg} {s : Seg}

variable (P c ss₀ cs₀ esp₀ gate err) in
/-- The context on the stack of level 0. -/
theorem interrupt_stacked (hdepth : 6 ≤ depth) (hd : 4 * depth ≤ 2 ^ 31) :
    ∃ cs ss, cs.setWidth 16 = c.seg .cs ∧ ss.setWidth 16 = c.seg .ss ∧
      Pushed c.mem esp₀ depth (err.toList ++ [c.eip, cs, c.eflags, c.reg .esp, ss])
        (interrupt P ss₀ cs₀ esp₀ gate err c) := by
  have h₀ : Pushed c.mem esp₀ depth [] ((c.setReg .esp esp₀).setSeg .ss ss₀) :=
    ⟨by simp, trivial, fun _ _ => rfl⟩
  obtain ⟨ss, hss, h₁⟩ := h₀.pushSelector (P := P) (c.seg .ss) (by simpa using by omega) hd
  have h₂ := h₁.push (v := c.reg .esp) (by simpa using by omega) hd
  have h₃ := h₂.push (v := c.eflags) (by simpa using by omega) hd
  obtain ⟨cs, hcs, h₄⟩ := h₃.pushSelector (P := P) (c.seg .cs) (by simpa using by omega) hd
  have h₅ := h₄.push (v := c.eip) (by simpa using by omega) hd
  refine ⟨cs, ss, hcs, hss, ?_⟩
  cases err with
  | none => exact h₅.congr rfl rfl
  | some e => exact (h₅.push (v := e) (by simpa using by omega) hd).congr rfl rfl

/-- The handler finds the general registers of the program, except `esp`. -/
theorem interrupt_reg (hr : r ≠ .esp) :
    (interrupt P ss₀ cs₀ esp₀ gate err c).reg r = c.reg r := by
  cases err with
  | none => simp [interrupt, hr]
  | some e => simp [interrupt, hr]

/-- It finds the segment registers of the program, except those of code and stack. -/
theorem interrupt_seg : (interrupt P ss₀ cs₀ esp₀ gate err c).seg s =
    if s = .cs then cs₀ else if s = .ss then ss₀ else c.seg s := by
  cases err with
  | none => simp [interrupt]
  | some e => simp [interrupt]

theorem interrupt_cr2 : (interrupt P ss₀ cs₀ esp₀ gate err c).cr2 = c.cr2 := by
  cases err with
  | none => simp [interrupt]
  | some e => simp [interrupt]

end Interrupt

/-! ## Returns to an outer level

`iretd` pops five words here, because the level changes. The data segment registers after it are
whatever the processor makes of them. -/

/-- The data segment registers. -/
def Seg.Data (s : Seg) : Prop := s ≠ .cs ∧ s ≠ .ss

/-- What is on the stack at an `iretd` to an outer level is what runs. -/
theorem iret_outer {ip cs fl sp ss : Word} (h : c.mem.Holds (c.reg .esp) [ip, cs, fl, sp, ss])
    (hcpl : c.cpl = 0) (hvm : fl.getLsbD VM = false)
    (hlevel : (cs.setWidth 16 : Selector).toNat % 4 ≠ 0) :
    ∃ d, iret P c = some d ∧ (∀ r, d.reg r = if r = .esp then sp else c.reg r) ∧
      d.seg .cs = cs.setWidth 16 ∧ d.seg .ss = ss.setWidth 16 ∧
      (∀ s : Seg, s.Data → d.seg s = P.outer (c.seg s)) ∧ d.eip = ip ∧ d.eflags = flagsOf fl ∧
      d.mem = c.mem ∧ d.cr3 = c.cr3 := by
  obtain ⟨hip, hcs, hfl, hsp, hss, -⟩ := h
  have e₂ : c.reg .esp + 4 + 4 = c.reg .esp + 8 := by bv_omega
  have e₃ : c.reg .esp + 8 + 4 = c.reg .esp + 12 := by bv_omega
  have e₄ : c.reg .esp + 12 + 4 = c.reg .esp + 16 := by bv_omega
  rw [e₂] at hfl hsp hss
  rw [e₃] at hsp hss
  rw [e₄] at hss
  -- neither of the two cases in which the return is undefined
  have hno : ¬ (c.cpl ≠ 0 ∨ (c.mem.load (c.reg .esp + 8)).getLsbD VM = true) := by
    rw [hfl, hvm]
    simp [hcpl]
  refine ⟨_, (if_neg hno).trans (if_neg (by rw [hcs]; exact hlevel)), fun r => ?_, ?_, ?_, ?_, hip,
    ?_, rfl, rfl⟩
  · rw [Cpu.setReg_reg, hsp]
  · exact congrArg (BitVec.setWidth 16) hcs
  · exact congrArg (BitVec.setWidth 16) hss
  · rintro s ⟨hs, hs'⟩
    cases s with
    | cs => exact absurd rfl hs
    | ss => exact absurd rfl hs'
    | _ => rfl
  · exact congrArg flagsOf hfl

end Stack

end Ia32
