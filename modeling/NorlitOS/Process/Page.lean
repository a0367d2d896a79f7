import NorlitOS.Lib.Loop
import NorlitOS.Process.Kernel

/-!
# Page management of processes (`kernel/process/page.c`)

Entries of page directories and tables are 32-bit words: the frame's physical address with flag
bits, of which the kernel tests bit 0 (present) and `PAGE_TYPE_PHY`.
-/

namespace NorlitOS

open Loop

namespace Kernel

/-- `ALLOC_PAGE`. -/
def allocPage (k : Kernel) : Except Stop (Nat × Kernel) := do
  let (a, h) ← k.heap.memoryAlloc 12
  .ok (a, { k with heap := h })

/-- `FREE_PAGE`. -/
def freePage (k : Kernel) (addr : Nat) : Except Stop Kernel := do
  let h ← k.heap.memoryBlockFree addr 12
  .ok { k with heap := h }

def allocPhysicalPage (k : Kernel) : Except Stop (Nat × Kernel) := do
  let (ret, k) ← k.allocPage
  .ok (va2pa ret, k)

def recyclePhysicalPage (k : Kernel) (addr : Nat) : Except Stop Kernel := k.freePage (pa2va addr)

/-- The lower half empty, the kernel entries copied from the directory `cr3Copy`. -/
def createProcessPDE (k : Kernel) (cr3Copy : Nat) : Except Stop (Nat × Kernel) := do
  let (pde, k) ← k.allocPage
  let copy := k.table (frameAt cr3Copy)
  -- `memset` and `memcpy`
  .ok (va2pa pde, k.setPage pde fun i => if i < va2pde PAGE_OFFSET then 0 else copy i)

/-! ## Recycling -/

/-- One round of the loops over the entries of a page table: `keep` tells which entries are not
recycled besides the empty ones. -/
def recycleEntry (keep : Nat → Bool) (pte i : Nat) (k : Kernel) : Except Stop Kernel :=
  -- nothing is cleared: the table itself is freed behind the loop
  if k.table pte i ≠ 0 ∧ keep (k.table pte i) = false then
    k.recyclePhysicalPage (pageBase (k.table pte i))
  else .ok k

/-- The loop over a page table and the `FREE_PAGE` of the table behind it. -/
def recycleTable (keep : Nat → Bool) (pte : Nat) (k : Kernel) : Except Stop Kernel := do
  let k ← forRange 1024 (recycleEntry keep pte) k
  k.freePage pte

/-- `pte & PAGE_TYPE_PHY`. -/
def isPhy (pte : Nat) : Bool := pte &&& PAGE_TYPE_PHY ≠ 0

def recycleProcessPDE (k : Kernel) (cr3 : Nat) : Except Stop Kernel := do
  let pde := frameAt cr3
  let k ← forRange (va2pde STACK_TOP) (fun index k =>
    -- the entries below the top of the stacks, which are the process's own
    if k.table pde index ≠ 0 then
      recycleTable isPhy (frameAt (k.table pde index)) k
    else .ok k) k
  k.freePage (pa2va cr3)

/-- The upper of the two directory entries of a thread's stack window. -/
def stackEntry (stacktop : Nat) : Nat := va2pde (sub32 stacktop 1) / 2 * 2 + 1

/-- No entry is kept here, whatever its type. -/
def recycleStackTable (k : Kernel) (pde pdeEntry : Nat) : Except Stop Kernel :=
  recycleTable (fun _ => false) (frameAt (k.table pde pdeEntry)) k

/-- `if (pde[pdeEntry - 1]) { .. }` in `recycleThreadStack`. -/
def recycleLowerTable (k : Kernel) (pde pdeEntry : Nat) : Except Stop Kernel :=
  if k.table pde pdeEntry ≠ 0 then do
    let k ← k.recycleStackTable pde pdeEntry
    .ok (k.setWord pde pdeEntry 0)
  else .ok k

def recycleThreadStack (k : Kernel) (thr : Nat) : Except Stop Kernel := do
  let pde := frameAt (k.proc (k.thr thr).process).cr3
  let pdeEntry := stackEntry (k.thr thr).stacktop
  let k ← k.recycleStackTable pde pdeEntry
  let k ← k.recycleLowerTable pde (pdeEntry - 1)
  .ok (k.setWord pde pdeEntry 0)

/-! ## Stacks -/

/-- The search of `allocThreadStack`, with `n` rounds left: every other entry downwards. -/
def freeStackEntry (pde : Nat → Nat) : Nat → Nat → Nat
  | 0, pdeEntry => pdeEntry
  | n + 1, pdeEntry =>
    if va2pde STACK_BOTTOM < pdeEntry then
      -- a window has two entries, and its upper one is always in use
      if pde pdeEntry = 0 then pdeEntry else freeStackEntry pde n (pdeEntry - 2)
    else pdeEntry

/-- Returns the stack top, or 0 when no window is left. -/
def allocThreadStack (k : Kernel) (proc : Nat) : Except Stop (Nat × Kernel) := do
  let pde := frameAt (k.proc proc).cr3
  let pdeEntry := freeStackEntry (k.table pde) 16 (va2pde STACK_TOP - 1)
  if va2pde STACK_BOTTOM < pdeEntry then do
    let (stack, k) ← k.allocPage
    -- `memset` of all entries but the last, which is the first page of the stack
    let k := k.setPage stack fun i => if i < 1023 then 0 else k.table stack i
    let (page, k) ← k.allocPhysicalPage
    let k := k.setWord stack 1023 (page ||| 0b11111)
    .ok ((pdeEntry + 1) * PAGE_SIZE * 1024 % 2 ^ 32,
      k.setWord pde pdeEntry (va2pa stack ||| 0b11111))
  else .ok (0, k)

/-! ## Mapping -/

/-- `if (*pde == 0) { newpde = ALLOC_PAGE(); .. }`. -/
def ensureTable (k : Kernel) (cr3 pdeEntry : Nat) : Except Stop Kernel :=
  if k.table cr3 pdeEntry = 0 then do
    let (newpde, k) ← k.allocPage
    .ok ((k.setPage newpde fun _ => 0).setWord cr3 pdeEntry (va2pa newpde ||| 0b11111))
  else .ok k

/-- Maps one page; `-1` when the entry is in use. -/
def openPhysicalPage (k : Kernel) (proc phyaddr linearAddr flag : Nat) :
    Except Stop (Nat × Kernel) := do
  let cr3 := pa2va (k.proc proc).cr3
  let k ← k.ensureTable cr3 (va2pde linearAddr)
  let ptes := frameAt (k.table cr3 (va2pde linearAddr))
  -- what is mapped stays mapped
  if k.table ptes (va2pte linearAddr) ≠ 0 then .ok (0xFFFFFFFF, k)
  else .ok (0, k.setWord ptes (va2pte linearAddr) (phyaddr ||| 0b11111 ||| flag))

/-- `open_physical_memory`, with the number of pages as the loop counter. -/
def openPhysicalMemory (k : Kernel) (proc phyaddr linearAddr : Nat) :
    Nat → Nat → Except Stop (Nat × Kernel)
  | 0, _ => .ok (0, k)
  | pages + 1, flag => do
    let (r, k) ← k.openPhysicalPage proc phyaddr linearAddr flag
    -- the pages before this one stay mapped
    if r = 0xFFFFFFFF then .ok (0xFFFFFFFF, k)
    else k.openPhysicalMemory proc (add32 phyaddr PAGE_SIZE) (add32 linearAddr PAGE_SIZE) pages flag

end Kernel

end NorlitOS
