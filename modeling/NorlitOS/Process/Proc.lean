import NorlitOS.Process.Page

/-!
# Processes, threads and messages (`kernel/process/proc.c`)

Every kernel entry is one function from the state at entry to the state at `restart`. Interrupts
are off in between, so entries do not interleave.
-/

namespace NorlitOS

namespace Kernel

/-! ## The scheduler -/

/-- The `do .. while` of `schedule` that looks for the ready process with the most ticks. -/
def mostTicks (proc : Nat → Process) : List Nat → Int → Option Nat → Option Nat
  | [], _, ready => ready
  | p :: ring, greatest, ready =>
    if (proc p).flag = 0 ∧ greatest < (proc p).ticks then
      mostTicks proc ring (proc p).ticks (some p)
    else mostTicks proc ring greatest ready

/-- The second `do .. while`: new ticks for the ready processes. -/
def refill (k : Kernel) : List Nat → Kernel
  | [] => k
  | p :: ring =>
    if (k.proc p).flag = 0 then
      (k.modProc p fun P => { P with ticks := s32 P.priority }).refill ring
    else k.refill ring

/-- `while (p_ready == NULL)`. A refill gives the next round all it can find, so a second round
without a ready process repeats for ever. -/
def pickReady (k : Kernel) : Except Stop (Nat × Kernel) :=
  match mostTicks k.proc k.processTable 0 none with
  | some p => .ok (p, k)
  | none =>
    let k := k.refill k.processTable
    match mostTicks k.proc k.processTable 0 none with
    | some p => .ok (p, k)
    | none => .error .hang

def schedule (k : Kernel) (flag : Nat) : Except Stop Kernel := do
  let crpde := k.table (pa2va (k.proc k.currentProc).cr3) (va2pde PAGE_OFFSET)
  let k := k.modProc k.currentProc fun P => { P with flag := flag }
  let (ready, k) ← k.pickReady
  let k := { k with currentProc := ready }
  let k := k.modProc ready fun P => { P with flag := 2 }
  -- the processor's own page comes along into the directory of the process picked
  let k := k.setWord (pa2va (k.proc ready).cr3) (va2pde PAGE_OFFSET) crpde
  .ok { k with currentThread := (k.proc ready).current }

/-! ## Threads -/

def processSleep (k : Kernel) (t : Nat) : Except Stop Kernel :=
  let k := k.modProc t fun P => { P with flag := 1 }
  if k.currentProc = t then k.schedule 1 else .ok k

/-- The condition of the last `if` is an assignment. -/
def threadSleep (k : Kernel) (t : Nat) : Except Stop Kernel :=
  let k := k.modThr t fun T => { T with flag := 1 }
  let p := (k.thr t).process
  let k := k.modProc p fun P => { P with avlThread := sub32 P.avlThread 1 }
  -- the last thread that could run is asleep, and with it the process
  if (k.proc p).avlThread = 0 then k.processSleep p
  else
    let k := k.modProc p fun P => { P with flag := 0 }
    let k := { k with currentThread := t }
    if k.currentThread ≠ 0 then k.schedule 1 else .ok k

def threadAwake (k : Kernel) (t : Nat) : Kernel :=
  let k := k.modThr t fun T => { T with flag := 0 }
  let p := (k.thr t).process
  let k := k.modProc p fun P => { P with avlThread := add32 P.avlThread 1 }
  -- only a sleeping process wakes up; one that runs keeps its flag
  if (k.proc p).flag = 1 then k.modProc p fun P => { P with flag := 0 } else k

/-- The search for an unused identifier and the insertion in front of the first record whose
identifier is not the expected one. -/
def insertById (id : Nat → Nat) (new : Nat) : Nat → List Nat → Nat × List Nat
  | n, [] => (n, [new])
  | n, e :: l =>
    -- the first gap in the ascending identifiers
    if id e ≠ n then (n, new :: e :: l)
    else
      let (m, l) := insertById id new (n + 1) l
      (m, e :: l)

/-- The selectors, with `SSA_RPL3`. -/
def SEL_FLAT_C_USR : Nat := 24 ||| 3

def SEL_FLAT_D_USR : Nat := 32 ||| 3

/-- Returns the thread, or `NULL` when there is no room for a stack. -/
def createThread (k : Kernel) (proc ip : Nat) : Except Stop (Nat × Kernel) := do
  let (sp, k) ← k.allocThreadStack proc
  -- the process has all the threads it can have
  if sp = 0 then .ok (0, k)
  else do
    let (thread, k) ← k.allocPage
    let k := k.modThr thread fun T => { T with
      regs := { T.regs with
        cs := SEL_FLAT_C_USR, ds := SEL_FLAT_D_USR, es := SEL_FLAT_D_USR, fs := SEL_FLAT_D_USR,
        ss := SEL_FLAT_D_USR, gs := SEL_FLAT_D_USR, ip := ip, sp := sp,
        -- interrupts are on, and a privilege of 0 gives the I/O privilege level 3
        flags := if (k.proc proc).privilege = 0 then 0x3202 else 0x202 }
      stacktop := sp, process := proc }
    -- the record stands in the ring in front of the first greater identifier
    let (tid, l) := insertById (fun t => (k.thr t).threadID) thread 0 (k.proc proc).thread
    let k := k.modThr thread fun T => { T with threadID := tid }
    let k := k.modProc proc fun P => { P with thread := l, avlThread := add32 P.avlThread 1 }
    .ok (thread, k.modThr thread fun T => { T with flag := 0 })

/-! ## Creating processes -/

/-- `sizeof(Process)`. -/
def processSize : Nat := 2132

/-- The ring behind its first node, or the empty list `init_proc` starts with. -/
def insertProcess (id : Nat → Nat) (new : Nat) : List Nat → Nat × List Nat
  | [] => (1, [new])
  | init :: ring =>
    let (pid, ring) := insertById id new 1 ring
    (pid, init :: ring)

def newProcess (k : Kernel) (cr3 ip privilege priority : Nat) : Except Stop (Nat × Kernel) := do
  let (proc, h) ← k.heap.malloc processSize
  let k := { k with heap := h }
  let k := k.modProc proc fun P => { P with
    cr3 := cr3, privilege := privilege, avlThread := 0, thread := [] }
  -- the first thread exists before the process is in the ring
  let (t1, k) ← k.createThread proc ip
  let k := k.modProc proc fun P => { P with
    current := t1, flag := 0, msgCount := 0, msgHead := 0, msgTail := 0, receiving := 0,
    priority := priority, ticks := s32 priority }
  -- the smallest identifier that no process has
  let (pid, ring) := insertProcess (fun p => (k.proc p).pid) proc k.processTable
  let k := k.modProc proc fun P => { P with pid := pid }
  .ok (proc, { k with processTable := ring })

def createProcess (k : Kernel) (ip privilege priority : Nat) : Except Stop (Nat × Kernel) := do
  let (cr3, k) ← k.createProcessPDE (k.proc k.currentProc).cr3
  k.newProcess cr3 ip privilege priority

/-- `init_proc`: Init gets a copy of the directory `kernelPDE`, the pid 0 and a ring of its own. -/
def initProc (k : Kernel) (kernelPDE ip : Nat) : Except Stop Kernel := do
  let (pde, k) ← k.allocPage
  let k := k.setPage pde (k.table kernelPDE)
  let k := { k with processTable := [] }
  let (init, k) ← k.newProcess (va2pa pde) ip 0 1
  -- the insertion has given it the pid 1
  let k := k.modProc init fun P => { P with pid := 0, flag := 2 }
  .ok { k with
    processTable := [init], currentProc := init, currentThread := (k.proc init).current }

/-! ## Disposal -/

/-- The loop over the queued messages in `disposeProcess`. -/
def recycleMessages (proc : Nat) : Nat → Kernel → Except Stop Kernel
  | 0, k => .ok k
  | n + 1, k => do
    let P := k.proc proc
    -- the low half of the message is the page that came with it
    let k ← k.recyclePhysicalPage (pageBase (P.messages P.msgTail % 2 ^ 32))
    recycleMessages proc n (k.modProc proc fun P => { P with
      msgTail := if P.msgTail + 1 = 0x100 then 0 else P.msgTail + 1, msgCount := P.msgCount - 1 })

/-- `if (cpuPage.current_proc == proc) schedule(2);` -/
def switchFrom (k : Kernel) (proc : Nat) : Except Stop Kernel :=
  if k.currentProc = proc then k.schedule 2 else .ok k

/-- `disposeProcess` of a process without threads. -/
def disposeEmpty (k : Kernel) (proc : Nat) : Except Stop Kernel := do
  -- if it is the one that runs, another runs from here on
  let k ← k.switchFrom proc
  let k := { k with processTable := k.processTable.erase proc }
  let k ← k.recycleProcessPDE (k.proc proc).cr3
  let k ← recycleMessages proc (k.proc proc).msgCount k
  let h ← k.heap.free proc
  .ok { k with heap := h }

/-- The last `if` of `disposeThread`. The call of `disposeProcess` finds no threads. -/
def disposeRest (k : Kernel) (proc thread : Nat) : Except Stop Kernel :=
  match (k.proc proc).thread with
  | [] => k.disposeEmpty proc
  | first :: _ =>
    if (k.proc proc).current = thread then
      (k.modProc proc fun P => { P with current := first }).schedule 0
    else .ok k

def disposeThread (k : Kernel) (thread : Nat) : Except Stop Kernel := do
  let proc := (k.thr thread).process
  let k := k.modProc proc fun P => { P with thread := P.thread.erase thread }
  -- it was blocked in `RECEIVE`
  let k := if (k.thr thread).flag = 2 then
      k.modProc proc fun P => { P with receiving := sub32 P.receiving 1 }
    else k
  let k ← k.recycleThreadStack thread
  -- it could run
  let k := if (k.thr thread).flag = 0 then
      k.modProc proc fun P => { P with avlThread := sub32 P.avlThread 1 }
    else k
  let k ← k.disposeRest proc thread
  k.freePage thread

/-- The `do .. while` of `disposeProcess`. Every round disposes a thread, so there are at most
as many rounds as threads. -/
def disposeThreads (proc : Nat) : Nat → Kernel → Except Stop Kernel
  | 0, _ => .error .hang
  | n + 1, k => do
    let k ← k.disposeThread (k.proc proc).current
    if (k.proc proc).thread ≠ [] then disposeThreads proc n k else .ok k

def disposeProcess (k : Kernel) (proc : Nat) : Except Stop Kernel :=
  if (k.proc proc).thread ≠ [] then disposeThreads proc (k.proc proc).thread.length k
  else k.disposeEmpty proc

/-! ## Messages -/

/-- `(u64)source << 32 | page`, for a `u32` page. -/
def message (source page : Nat) : Nat := source * 2 ^ 32 + page % 2 ^ 32

/-- `*p->msgHead = msg; p->msgHead++; .. p->msgCount++;` -/
def enqueue (k : Kernel) (p msg : Nat) : Kernel :=
  k.modProc p fun P => { P with
    messages := Function.update P.messages P.msgHead msg
    msgHead := if P.msgHead + 1 = MAX_MESSAGE_COUNT then 0 else P.msgHead + 1
    msgCount := P.msgCount + 1 }

/-- `p->msgTail++; .. p->msgCount--;` -/
def dequeue (k : Kernel) (p : Nat) : Kernel :=
  k.modProc p fun P => { P with
    msgTail := if P.msgTail + 1 = MAX_MESSAGE_COUNT then 0 else P.msgTail + 1
    msgCount := P.msgCount - 1 }

/-- The scan for a blocked thread. `pentry` is the last thread looked at: without a blocked one
the scan runs to the list head and leaves this one, which is none in an empty list. -/
def findBlocked (thr : Nat → Thread) : Option Nat → List Nat → Except Stop Nat
  | none, [] => .error .wild
  | some pentry, [] => .ok pentry
  | _, t :: l => if (thr t).flag = 2 then .ok t else findBlocked thr (some t) l

def setAx (k : Kernel) (t v : Nat) : Kernel :=
  k.modThr t fun T => { T with regs := { T.regs with ax := v } }

def sendInterrupt (k : Kernel) (p : Nat) : Except Stop Kernel :=
  if (k.proc p).receiving ≠ 0 then do
    let k := k.modProc p fun P => { P with receiving := sub32 P.receiving 1 }
    let pentry ← findBlocked k.thr none (k.proc p).thread
    -- `RECEIVE` returns -1 in the thread that waits, where a page from the allocator is mapped
    let k := k.setAx pentry 0xFFFFFFFF
    let (page, k) ← k.allocPhysicalPage
    let (_, k) ← k.openPhysicalMemory p page (k.thr pentry).regs.cx 1 0
    .ok (k.threadAwake pentry)
  else if (k.proc p).msgCount < MAX_MESSAGE_COUNT then do
    let (page, k) ← k.allocPhysicalPage
    .ok (k.enqueue p (message 0xFFFFFFFF page))
  -- a full queue loses the interrupt
  else .ok k

/-- `getProcessById`: the head of the list, Init, is not looked at. -/
def getProcessById (k : Kernel) (id : Nat) : Option Nat :=
  k.processTable.tail.find? fun p => (k.proc p).pid = id

/-- The accepting part of `SYSCALL_SEND`: the page of the entry `i` of the table `pte` goes to
the process `p`. -/
def sendTo (k : Kernel) (p source pte i : Nat) : Except Stop Kernel := do
  let page := k.table pte i
  if (k.proc p).receiving ≠ 0 then
    let k := k.modProc p fun P => { P with receiving := sub32 P.receiving 1 }
    let pentry ← findBlocked k.thr none (k.proc p).thread
    let k := k.setAx pentry source
    -- the page goes into the waiting process at the address of its `RECEIVE`
    let (_, k) ← k.openPhysicalMemory p (pageBase page) (k.thr pentry).regs.cx 1 0
    -- the sender gets another page in its place
    let (fresh, k) ← k.allocPhysicalPage
    let k := k.setWord pte i (fresh ||| 0b11111)
    let k := k.threadAwake pentry
    .ok (k.setAx k.currentThread 1)
  else if (k.proc p).msgCount < MAX_MESSAGE_COUNT then
    let (fresh, k) ← k.allocPhysicalPage
    let k := k.setWord pte i (fresh ||| 0b11111)
    let k := k.enqueue p (message source page)
    .ok (k.setAx k.currentThread 1)
  -- a full queue refuses the message
  else .ok (k.setAx k.currentThread 0)

def sysSend (k : Kernel) (edx ecx ebx : Nat) : Except Stop Kernel :=
  let source := if ebx = 0 then (k.proc k.currentProc).pid else ebx
  let pde := frameAt (k.proc k.currentProc).cr3
  let pte := frameAt (k.table pde (va2pde ecx))
  let page := k.table pte (va2pte ecx)
  -- the page must be the sender's own, not one opened by its physical address
  if ecx < PAGE_OFFSET ∧ ecx % PAGE_SIZE = 0 ∧ (k.table pde (va2pde ecx)).testBit 0 = true ∧
      page.testBit 0 = true ∧ isPhy page = false then
    match k.getProcessById edx with
    | none => .ok (k.setAx k.currentThread 0xFFFFFFFF)
    | some p => k.sendTo p source pte (va2pte ecx)
  else .ok (k.setAx k.currentThread 0xFFFFFFFE)

/-- `SYSCALL_RECEIVE` behind the unmapping of the address. -/
def receiveAt (k : Kernel) (ecx : Nat) : Except Stop Kernel := do
  let p := k.currentProc
  let t := k.currentThread
  if (k.proc p).msgCount = 0 then
    -- nothing is queued: the thread waits, marked only after another one runs
    let k ← k.threadSleep t
    let k := k.modThr t fun T => { T with flag := 2 }
    .ok (k.modProc p fun P => { P with receiving := add32 P.receiving 1 })
  else
    let msg := (k.proc p).messages (k.proc p).msgTail
    let k := k.dequeue p
    -- the page at the tail of the queue
    let (_, k) ← k.openPhysicalMemory p (pageBase (msg % 2 ^ 32)) ecx 1 0
    .ok (k.setAx k.currentThread (msg / 2 ^ 32))

def sysReceive (k : Kernel) (ecx : Nat) : Except Stop Kernel :=
  let pde := frameAt (k.proc k.currentProc).cr3
  let pte := frameAt (k.table pde (va2pde ecx))
  let page := k.table pte (va2pte ecx)
  if ecx < PAGE_OFFSET ∧ ecx % PAGE_SIZE = 0 then
    if (k.table pde (va2pde ecx)).testBit 0 = true ∧ page.testBit 0 = true then
      if isPhy page = true then .ok (k.setAx k.currentThread 0xFFFFFFFE)
      else do
        -- what was mapped there before is given back
        let k ← k.recyclePhysicalPage (pageBase page)
        (k.setWord pte (va2pte ecx) 0).receiveAt ecx
    else k.receiveAt ecx
  else .ok (k.setAx k.currentThread 0xFFFFFFFE)

/-! ## System calls and other kernel entries -/

def sysCreateThread (k : Kernel) (edx : Nat) : Except Stop Kernel := do
  let (thread, k) ← k.createThread k.currentProc edx
  .ok (k.setAx k.currentThread thread)

def sysDisposeThread (k : Kernel) (edx : Nat) : Except Stop Kernel :=
  k.disposeThread (if edx ≠ 0 then edx else k.currentThread)

def sysOpenPhysicalMemory (k : Kernel) (edx ecx ebx : Nat) : Except Stop Kernel := do
  let (r, k) ← k.openPhysicalMemory k.currentProc edx ecx ebx PAGE_TYPE_PHY
  .ok (k.setAx k.currentThread r)

def sysAllocMemory (k : Kernel) (ecx ebx : Nat) : Except Stop Kernel := do
  let (phy, k) ← k.allocPhysicalPage
  let (r, k) ← k.openPhysicalMemory k.currentProc phy ecx ebx 0
  let k := k.setAx k.currentThread r
  -- it could not be mapped: the page is given back
  if r = 0xFFFFFFFF then k.recyclePhysicalPage phy else .ok k

def sysNice (k : Kernel) : Except Stop Kernel := do
  let proc := k.currentProc
  let k ← k.schedule 2
  -- the caller can be picked again, but only from the next call of `schedule` on
  .ok (k.modProc proc fun P => { P with flag := 0 })

/-- `inner_exception_handler` (`int.c`): the running process is killed. -/
def exceptionHandler (k : Kernel) : Except Stop Kernel := do
  let p := k.currentProc
  let k ← k.schedule 2
  -- another process runs by now
  k.disposeProcess p

def systemCall (k : Kernel) (eax edx ecx ebx : Nat) : Except Stop Kernel :=
  match eax with
  | 0 => k.sysSend edx ecx ebx
  | 1 => k.sysReceive ecx
  | 2 => k.sysCreateThread edx
  | 3 => k.sysDisposeThread edx
  | 4 => k.sysOpenPhysicalMemory edx ecx ebx
  | 5 => k.sysAllocMemory ecx ebx
  | 6 => k.sysNice
  | _ => k.exceptionHandler

/-- The stack window of a thread without its guard page. -/
def growsStack (T : Thread) (pageAddr : Nat) : Bool :=
  sub32 T.stacktop 0x800000 < pageAddr ∧ pageAddr < T.stacktop ∧
    -- the lowest page of the window is the guard page
    add32 (sub32 T.stacktop 0x800000) PAGE_SIZE ≤ pageAddr

/-- Stack expansion in `pageFaultHandler`. -/
def growStack (k : Kernel) (pageAddr : Nat) : Except Stop Kernel := do
  let pde := frameAt (k.proc k.currentProc).cr3
  let pdeEntry := va2pde pageAddr
  let k ← k.ensureTable pde pdeEntry
  let pte := frameAt (k.table pde pdeEntry)
  let (page, k) ← k.allocPhysicalPage
  .ok (k.setWord pte (va2pte pageAddr) (page ||| 0b11111))

/-- `pageFaultHandler`: outside the window the process is killed like in any other exception. -/
def pageFaultHandler (k : Kernel) (pageAddr : Nat) : Except Stop Kernel :=
  if growsStack (k.thr k.currentThread) pageAddr then k.growStack pageAddr
  else k.exceptionHandler

/-- `irq0_handler` (`timer.c`). -/
def timerTick (k : Kernel) : Except Stop Kernel :=
  (k.modProc k.currentProc fun P => { P with ticks := (P.ticks - 1).bmod (2 ^ 32) }).schedule 0

/-- `save`: the registers of the interrupted thread. -/
def save (k : Kernel) (regs : StackFrame) : Kernel :=
  k.modThr k.currentThread fun T => { T with regs := regs }

end Kernel

/-- What makes the kernel run: calls of its own processes, and entries that save the registers
of the running thread. -/
inductive Event where
  | createProcess (ip privilege priority : Nat)
  | disposeProcess (p : Nat)
  | systemCall (regs : StackFrame)
  | interrupt (regs : StackFrame) (p : Nat)
  | tick (regs : StackFrame)
  | pageFault (regs : StackFrame) (cr2 : Nat)
  | exception (regs : StackFrame)

namespace Kernel

/-- One kernel entry, from the event to `restart`. -/
def step (k : Kernel) : Event → Except Stop Kernel
  | .createProcess ip privilege priority => do
    let (_, k) ← k.createProcess ip privilege priority
    .ok k
  | .disposeProcess p => k.disposeProcess p
  | .systemCall regs => (k.save regs).systemCall regs.ax regs.dx regs.cx regs.bx
  | .interrupt regs p => (k.save regs).sendInterrupt p
  | .tick regs => (k.save regs).timerTick
  | .pageFault regs cr2 => (k.save regs).pageFaultHandler cr2
  | .exception regs => (k.save regs).exceptionHandler

end Kernel

end NorlitOS
