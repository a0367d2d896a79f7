import NorlitOS.Memory.Heap

/-!
# The state of the kernel (`kernel/include/type.h`, `global.h`)

Processes and threads are records at the addresses the allocator returned for them; page
directories and page tables are the words of the page frames that hold them. A frame is named
by its linear address in the kernel half. The intrusive lists (`list.h`) of processes and of the
threads of a process are the lists of their members, in list order; `processTable` is the node
of Init, so the ring starts with Init.

One processor runs: the spin locks are left out. So are process names and what is printed.
-/

namespace NorlitOS

/-! ## Addresses of pages (`proto.h`)

The kernel half is one window onto physical memory: a frame has the linear address of its contents
in the kernel half, which `va2pa` and `pa2va` turn into the physical one and back. -/

def PAGE_SIZE : Nat := 0x1000

def PAGE_TYPE_PHY : Nat := 0x200

def STACK_TOP : Nat := PAGE_OFFSET

def STACK_BOTTOM : Nat := STACK_TOP - 0x8000000

def MAX_MESSAGE_COUNT : Nat := 0x100

def va2pa (x : Nat) : Nat := sub32 x PAGE_OFFSET

def pa2va (x : Nat) : Nat := add32 x PAGE_OFFSET

def va2pde (x : Nat) : Nat := x % 2 ^ 32 / 2 ^ 22

def va2pte (x : Nat) : Nat := x % 2 ^ 22 / 2 ^ 12

/-- `x & ~0xFFF`. -/
def pageBase (x : Nat) : Nat := x / PAGE_SIZE * PAGE_SIZE

/-- The frame a directory or table entry names: `pa2va(entry & ~0xFFF)`. -/
def frameAt (entry : Nat) : Nat := pa2va (pageBase entry)

/-! ## Records

Only fields that the modelled functions read are here. Addresses and registers are numbers below
`2 ^ 32`; `ticks` is an `s32` in the source and may go below zero. -/

/-- The registers of a thread, as `save` pushes them. -/
structure StackFrame where
  gs : Nat
  fs : Nat
  es : Nat
  ds : Nat
  di : Nat
  si : Nat
  bp : Nat
  ignored : Nat
  bx : Nat
  dx : Nat
  cx : Nat
  ax : Nat
  returnAddress : Nat
  ip : Nat
  cs : Nat
  flags : Nat
  sp : Nat
  ss : Nat

structure Thread where
  process : Nat
  threadID : Nat
  flag : Nat
  stacktop : Nat
  regs : StackFrame

/-- `msgHead` and `msgTail` are indices into `messages`. -/
structure Process where
  cr3 : Nat
  current : Nat
  thread : List Nat
  avlThread : Nat
  flag : Nat
  ticks : Int
  priority : Nat
  pid : Nat
  privilege : Nat
  receiving : Nat
  msgHead : Nat
  msgTail : Nat
  msgCount : Nat
  messages : Nat → Nat

/-- `table f i` is word `i` of the page at linear address `f`. -/
structure Kernel where
  heap : Heap
  table : Nat → Nat → Nat
  proc : Nat → Process
  thr : Nat → Thread
  processTable : List Nat
  currentProc : Nat
  currentThread : Nat

namespace Kernel

/-! ## Stores

Every function of the kernel changes its state through these four, so that what a function leaves
alone follows from lemmas on them. -/

/-- `table[f][i] = v`. -/
def setWord (k : Kernel) (f i v : Nat) : Kernel :=
  { k with table := Function.update k.table f (Function.update (k.table f) i v) }

/-- All words of the page `f` at once (`memset`, `memcpy`). -/
def setPage (k : Kernel) (f : Nat) (row : Nat → Nat) : Kernel :=
  { k with table := Function.update k.table f row }

/-- Stores into fields of the process record at `p`. -/
def modProc (k : Kernel) (p : Nat) (f : Process → Process) : Kernel :=
  { k with proc := Function.update k.proc p (f (k.proc p)) }

/-- Stores into fields of the thread record at `t`. -/
def modThr (k : Kernel) (t : Nat) (f : Thread → Thread) : Kernel :=
  { k with thr := Function.update k.thr t (f (k.thr t)) }

variable {k : Kernel} {p q t u f i v : Nat} {g : Process → Process} {g' : Thread → Thread}
  {row : Nat → Nat}

/-- A word of a page is none of the allocator's. -/
@[simp] theorem setWord_heap : (k.setWord f i v).heap = k.heap := rfl
@[simp] theorem setWord_proc : (k.setWord f i v).proc = k.proc := rfl
@[simp] theorem setWord_thr : (k.setWord f i v).thr = k.thr := rfl
@[simp] theorem setWord_processTable : (k.setWord f i v).processTable = k.processTable := rfl
@[simp] theorem setWord_currentProc : (k.setWord f i v).currentProc = k.currentProc := rfl
@[simp] theorem setWord_currentThread : (k.setWord f i v).currentThread = k.currentThread := rfl

@[simp] theorem setPage_heap : (k.setPage f row).heap = k.heap := rfl
@[simp] theorem setPage_proc : (k.setPage f row).proc = k.proc := rfl
@[simp] theorem setPage_thr : (k.setPage f row).thr = k.thr := rfl
@[simp] theorem setPage_processTable : (k.setPage f row).processTable = k.processTable := rfl
@[simp] theorem setPage_currentProc : (k.setPage f row).currentProc = k.currentProc := rfl
@[simp] theorem setPage_currentThread : (k.setPage f row).currentThread = k.currentThread := rfl

@[simp] theorem modProc_heap : (k.modProc p g).heap = k.heap := rfl
@[simp] theorem modProc_table : (k.modProc p g).table = k.table := rfl
@[simp] theorem modProc_thr : (k.modProc p g).thr = k.thr := rfl
@[simp] theorem modProc_processTable : (k.modProc p g).processTable = k.processTable := rfl
@[simp] theorem modProc_currentProc : (k.modProc p g).currentProc = k.currentProc := rfl
@[simp] theorem modProc_currentThread : (k.modProc p g).currentThread = k.currentThread := rfl

@[simp] theorem modThr_heap : (k.modThr t g').heap = k.heap := rfl
@[simp] theorem modThr_table : (k.modThr t g').table = k.table := rfl
@[simp] theorem modThr_proc : (k.modThr t g').proc = k.proc := rfl
@[simp] theorem modThr_processTable : (k.modThr t g').processTable = k.processTable := rfl
@[simp] theorem modThr_currentProc : (k.modThr t g').currentProc = k.currentProc := rfl
@[simp] theorem modThr_currentThread : (k.modThr t g').currentThread = k.currentThread := rfl

/-- One word of one page changes. -/
theorem setWord_table : (k.setWord f i v).table q t =
    if q = f ∧ t = i then v else k.table q t := by
  unfold setWord
  by_cases hq : q = f
  · subst hq
    simp [Function.update_apply]
  · simp [hq]

/-- One page changes. -/
theorem setPage_table : (k.setPage f row).table q t = if q = f then row t else k.table q t := by
  unfold setPage
  by_cases hq : q = f
  · subst hq
    simp
  · simp [hq]

@[simp] theorem modProc_proc_self : (k.modProc p g).proc p = g (k.proc p) := by
  simp [modProc]

theorem modProc_proc_of_ne (h : q ≠ p) : (k.modProc p g).proc q = k.proc q := by
  simp [modProc, h]

theorem modProc_proc : (k.modProc p g).proc q = if q = p then g (k.proc p) else k.proc q := by
  simp [modProc, Function.update_apply]

@[simp] theorem modThr_thr_self : (k.modThr t g').thr t = g' (k.thr t) := by
  simp [modThr]

theorem modThr_thr_of_ne (h : u ≠ t) : (k.modThr t g').thr u = k.thr u := by
  simp [modThr, h]

theorem modThr_thr : (k.modThr t g').thr u = if u = t then g' (k.thr t) else k.thr u := by
  simp [modThr, Function.update_apply]

/-- Two stores into one thread are one store. -/
theorem modThr_modThr {g₁ g₂ : Thread → Thread} :
    (k.modThr t g₁).modThr t g₂ = k.modThr t (g₂ ∘ g₁) := by
  simp [modThr]

/-- Two stores into one process are one store. -/
theorem modProc_modProc {g₁ g₂ : Process → Process} :
    (k.modProc p g₁).modProc p g₂ = k.modProc p (g₂ ∘ g₁) := by
  simp [modProc]

/-- Threads and processes are in separate places, so the order of the stores does not matter. -/
theorem modThr_modProc : (k.modProc p g).modThr t g' = (k.modThr t g').modProc p g := rfl

end Kernel

end NorlitOS
