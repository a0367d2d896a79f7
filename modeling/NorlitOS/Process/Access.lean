import NorlitOS.Process.Share

/-!
# Disposal, record by record (`kernel/process/proc.c`)

The functions that dispose threads and processes once more, now with a log of what they do with the
records of processes and threads. `Watched.disposeProcess` writes the log beside the run of
`Kernel.disposeProcess`, and without the log the two are the same.
-/

namespace NorlitOS

open Loop

/-- A record that the kernel allocates. -/
inductive Record where
  | process (p : Nat)
  | thread (t : Nat)
  deriving DecidableEq

/-- What is done with a record. -/
inductive RecordAccess where
  /-- A field is read. -/
  | reads (r : Record)
  /-- `disposeThread` is entered. -/
  | disposes (t : Nat)
  /-- `list_hide` -/
  | unlinks (r : Record)
  /-- `free`, `FREE_PAGES` -/
  | returns (r : Record)
  deriving DecidableEq

/-- A kernel, and the accesses up to now in their order. -/
structure Watched where
  kernel : Kernel
  log : List RecordAccess

/-- The log is empty. -/
def Kernel.watch (k : Kernel) : Watched := ⟨k, []⟩

namespace Watched

open Record RecordAccess

/-- Accesses are written down. -/
def note (w : Watched) (as : List RecordAccess) : Watched := { w with log := w.log ++ as }

/-- A field is read. -/
def reading (w : Watched) (r : Record) : Watched := w.note [reads r]

/-- Writes are not logged. -/
def write (w : Watched) (f : Kernel → Kernel) : Watched := { w with kernel := f w.kernel }

/-- Functions that do not look at records. -/
def call (w : Watched) (f : Kernel → Except Stop Kernel) : Except Stop Watched := do
  let k ← f w.kernel
  .ok { w with kernel := k }

/-! ## The scheduler

It goes round the ring, once or three times: the search, the refilling of the ticks, and the
search again. Each time it reads every record. -/

/-- A `do .. while` over `processTable`. -/
def readRing (w : Watched) : Watched := w.note (w.kernel.processTable.map fun p => reads (process p))

/-- `while (p_ready == NULL)` in `schedule`. -/
def pickReady (w : Watched) : Except Stop (Nat × Watched) :=
  let w := w.readRing
  match Kernel.mostTicks w.kernel.proc w.kernel.processTable 0 none with
  | some p => .ok (p, w)
  | none =>
    let w := (w.readRing.write fun k => k.refill k.processTable).readRing
    match Kernel.mostTicks w.kernel.proc w.kernel.processTable 0 none with
    | some p => .ok (p, w)
    | none => .error .hang

/-- `current_proc->cr3`, the search, then `current_proc->cr3` and `current_proc->current`. -/
def schedule (w : Watched) (flag : Nat) : Except Stop Watched := do
  let w := w.reading (process w.kernel.currentProc)
  let crpde := w.kernel.table (pa2va (w.kernel.proc w.kernel.currentProc).cr3) (va2pde PAGE_OFFSET)
  let w := w.write fun k => k.modProc k.currentProc fun P => { P with flag := flag }
  let (ready, w) ← w.pickReady
  let w := w.write fun k =>
    let k := { k with currentProc := ready }
    k.modProc ready fun P => { P with flag := 2 }
  let w := w.reading (process ready)
  let w := w.write fun k => k.setWord (pa2va (k.proc ready).cr3) (va2pde PAGE_OFFSET) crpde
  let w := w.reading (process ready)
  .ok (w.write fun k => { k with currentThread := (k.proc ready).current })

/-! ## Disposal

Statement by statement, with every field that is read. What is written is not in the log, nor is
what happens to pages that are no records. -/

/-- The loop over the queued messages, with the test in front of every round. -/
def recycleMessages (proc : Nat) : Nat → Watched → Except Stop Watched
  | 0, w => .ok (w.reading (process proc))
  | n + 1, w => do
    let w := w.reading (process proc)
    -- `*proc->msgTail`
    let w := w.reading (process proc)
    let P := w.kernel.proc proc
    let w ← w.call fun k => k.recyclePhysicalPage (pageBase (P.messages P.msgTail % 2 ^ 32))
    -- `proc->msgTail++` and what follows it
    let w := w.reading (process proc)
    recycleMessages proc n (w.write fun k => k.modProc proc fun P => { P with
      msgTail := if P.msgTail + 1 = 0x100 then 0 else P.msgTail + 1, msgCount := P.msgCount - 1 })

/-- `if (cpuPage.current_proc == proc) schedule(2);` -/
def switchFrom (w : Watched) (proc : Nat) : Except Stop Watched :=
  if w.kernel.currentProc = proc then w.schedule 2 else .ok w

/-- `disposeProcess` behind `list_empty(&proc->thread)`. -/
def disposeEmpty (w : Watched) (proc : Nat) : Except Stop Watched := do
  let w ← w.switchFrom proc
  let w := (w.reading (process proc)).note [unlinks (process proc)]
  let w := w.write fun k => { k with processTable := k.processTable.erase proc }
  let w := w.reading (process proc)
  let w ← w.call fun k => k.recycleProcessPDE (k.proc proc).cr3
  let w ← recycleMessages proc (w.kernel.proc proc).msgCount w
  let w ← w.call fun k => do
    let h ← k.heap.free proc
    .ok { k with heap := h }
  .ok (w.note [returns (process proc)])

/-- The last `if` of `disposeThread`. The call of `disposeProcess` looks at the list again. -/
def disposeRest (w : Watched) (proc thread : Nat) : Except Stop Watched :=
  let P := w.kernel.proc proc
  let w := w.reading (process proc)
  match P.thread with
  | [] => (w.reading (process proc)).disposeEmpty proc
  | first :: _ =>
    -- `proc->current`
    let w := w.reading (process proc)
    if P.current = thread then
      -- `proc->thread.next`
      let w := w.reading (process proc)
      (w.write fun k => k.modProc proc fun P => { P with current := first }).schedule 0
    else .ok w

/-- `list_hide(&thread->list)`, and a thread that waits is no longer counted. -/
def hideThread (w : Watched) (proc thread : Nat) : Watched :=
  let w := (w.reading (Record.thread thread)).note [unlinks (Record.thread thread)]
  let w := w.write fun k => k.modProc proc fun P => { P with thread := P.thread.erase thread }
  -- `thread->flag`
  let w := w.reading (Record.thread thread)
  if (w.kernel.thr thread).flag = 2 then
    (w.reading (process proc)).write fun k =>
      k.modProc proc fun P => { P with receiving := sub32 P.receiving 1 }
  else w

/-- `recycleThreadStack` looks at `thr->process->cr3` and `thr->stacktop`. -/
def recycleThreadStack (w : Watched) (proc thread : Nat) : Except Stop Watched :=
  let w := ((w.reading (Record.thread thread)).reading (process proc)).reading (Record.thread thread)
  w.call fun k => k.recycleThreadStack thread

/-- `if (thread->flag == 0) proc->avl_thread--;` -/
def countThread (w : Watched) (proc thread : Nat) : Watched :=
  let w := w.reading (Record.thread thread)
  if (w.kernel.thr thread).flag = 0 then
    (w.reading (process proc)).write fun k =>
      k.modProc proc fun P => { P with avlThread := sub32 P.avlThread 1 }
  else w

def disposeThread (w : Watched) (thread : Nat) : Except Stop Watched := do
  -- `thread->process`
  let w := (w.note [disposes thread]).reading (Record.thread thread)
  let proc := (w.kernel.thr thread).process
  let w := w.hideThread proc thread
  let w ← w.recycleThreadStack proc thread
  let w := w.countThread proc thread
  let w ← w.disposeRest proc thread
  let w ← w.call fun k => k.freePage thread
  .ok (w.note [returns (Record.thread thread)])

/-- The `do .. while` of `disposeProcess`: `proc->current`, and `list_empty(&proc->thread)`. -/
def disposeThreads (proc : Nat) : Nat → Watched → Except Stop Watched
  | 0, _ => .error .hang
  | n + 1, w => do
    let w := w.reading (process proc)
    let w ← w.disposeThread (w.kernel.proc proc).current
    let w := w.reading (process proc)
    if (w.kernel.proc proc).thread ≠ [] then disposeThreads proc n w else .ok w

def disposeProcess (w : Watched) (proc : Nat) : Except Stop Watched :=
  let w := w.reading (process proc)
  if (w.kernel.proc proc).thread ≠ [] then disposeThreads proc (w.kernel.proc proc).thread.length w
  else w.disposeEmpty proc

/-! ## Without the log

Each function of this module is the one of the model with a log beside it. So what is proved of
the log is about the runs of the model. -/

variable {w : Watched} {proc thread flag n : Nat} {as : List RecordAccess} {r : Record}
  {f : Kernel → Kernel} {g : Kernel → Except Stop Kernel}

/-- The log is not in the kernel. -/
@[simp] theorem note_kernel : (w.note as).kernel = w.kernel := rfl
@[simp] theorem note_log : (w.note as).log = w.log ++ as := rfl
@[simp] theorem reading_kernel : (w.reading r).kernel = w.kernel := rfl
@[simp] theorem reading_log : (w.reading r).log = w.log ++ [reads r] := rfl
@[simp] theorem write_kernel : (w.write f).kernel = f w.kernel := rfl
@[simp] theorem write_log : (w.write f).log = w.log := rfl
@[simp] theorem readRing_kernel : w.readRing.kernel = w.kernel := rfl

/-- A run that returns returns without the log too. -/
theorem erase_ok {x : Except Stop Watched} {y : Except Stop Kernel} (h : x.map kernel = y)
    (hok : x = .ok w) : y = .ok w.kernel := by
  rw [← h, hok]
  rfl

/-- A call does what it does without the log. -/
theorem call_erase : (w.call g).map kernel = g w.kernel := by
  unfold call
  cases g w.kernel with
  | error e => rfl
  | ok k => rfl

/-- Also where something is noted behind it. -/
theorem call_note_erase : (w.call g >>= fun w => .ok (w.note as)).map kernel = g w.kernel := by
  unfold call
  cases g w.kernel with
  | error e => rfl
  | ok k => rfl

/-- Two sequences that agree without the log agree behind another step. -/
theorem erase_bind {x : Except Stop Watched} {y : Except Stop Kernel} {f : Watched → Except Stop Watched}
    {g : Kernel → Except Stop Kernel} (hx : x.map kernel = y)
    (hf : ∀ w, (f w).map kernel = g w.kernel) : (x >>= f).map kernel = y >>= g := by
  subst hx
  cases x with
  | error e => rfl
  | ok w => exact hf w

/-- The choice is the same. -/
theorem pickReady_erase : w.pickReady.map (fun r => (r.1, r.2.kernel)) = w.kernel.pickReady := by
  unfold pickReady Kernel.pickReady
  simp only [readRing_kernel, write_kernel]
  cases Kernel.mostTicks w.kernel.proc w.kernel.processTable 0 none with
  | some p => rfl
  | none =>
    dsimp only
    cases Kernel.mostTicks (w.kernel.refill w.kernel.processTable).proc
        (w.kernel.refill w.kernel.processTable).processTable 0 none with
    | some p => rfl
    | none => rfl

/-- So is the scheduler. -/
theorem schedule_erase : (w.schedule flag).map kernel = w.kernel.schedule flag := by
  have hpick := pickReady_erase (w := (w.reading (process w.kernel.currentProc)).write fun k =>
    k.modProc k.currentProc fun P => { P with flag := flag })
  rw [write_kernel, reading_kernel] at hpick
  unfold schedule Kernel.schedule
  dsimp only
  rw [← hpick, map_bind, bind_map]
  rfl

theorem recycleMessages_erase :
    (recycleMessages proc n w).map kernel = Kernel.recycleMessages proc n w.kernel := by
  induction n generalizing w with
  | zero => rfl
  | succ n ih =>
    exact erase_bind call_erase fun w => ih

theorem switchFrom_erase : (w.switchFrom proc).map kernel = w.kernel.switchFrom proc := by
  unfold switchFrom Kernel.switchFrom
  split
  · exact schedule_erase
  · rfl

theorem disposeEmpty_erase : (w.disposeEmpty proc).map kernel = w.kernel.disposeEmpty proc := by
  refine erase_bind switchFrom_erase fun w => ?_
  refine erase_bind call_erase fun w => ?_
  exact erase_bind recycleMessages_erase fun w => call_note_erase

/-- The end of `disposeThread` with its log left out. -/
theorem disposeRest_erase : (w.disposeRest proc thread).map kernel = w.kernel.disposeRest proc thread := by
  unfold disposeRest Kernel.disposeRest
  dsimp only
  cases (w.kernel.proc proc).thread with
  | nil => exact disposeEmpty_erase
  | cons first rest =>
    dsimp only
    split
    · exact schedule_erase
    · rfl

/-- The thread is taken out of the list, and a thread that waits is counted off. -/
theorem hideThread_kernel : (w.hideThread proc thread).kernel =
    let k := w.kernel.modProc proc fun P => { P with thread := P.thread.erase thread }
    if (k.thr thread).flag = 2 then k.modProc proc fun P => { P with receiving := sub32 P.receiving 1 }
    else k := by
  unfold hideThread
  exact apply_ite kernel ..

theorem countThread_kernel : (w.countThread proc thread).kernel =
    if (w.kernel.thr thread).flag = 0 then
      w.kernel.modProc proc fun P => { P with avlThread := sub32 P.avlThread 1 }
    else w.kernel := by
  unfold countThread
  exact apply_ite kernel ..

/-- The stack is given back in the same way. -/
theorem recycleThreadStack_erase :
    (w.recycleThreadStack proc thread).map kernel = w.kernel.recycleThreadStack thread := by
  unfold recycleThreadStack
  exact call_erase

/-- One thread. -/
theorem disposeThread_erase : (w.disposeThread thread).map kernel = w.kernel.disposeThread thread := by
  refine erase_bind (recycleThreadStack_erase.trans ?_) fun w => ?_
  · exact congrArg (Kernel.recycleThreadStack · thread) hideThread_kernel
  · refine erase_bind (disposeRest_erase.trans ?_) fun w => call_note_erase
    exact congrArg (Kernel.disposeRest · _ thread) countThread_kernel

/-- All threads. -/
theorem disposeThreads_erase :
    (disposeThreads proc n w).map kernel = Kernel.disposeThreads proc n w.kernel := by
  induction n generalizing w with
  | zero => rfl
  | succ n ih =>
    refine erase_bind disposeThread_erase fun w => ?_
    by_cases hne : (w.kernel.proc proc).thread ≠ []
    · exact (congrArg _ (if_pos hne)).trans (ih.trans (if_pos hne).symm)
    · exact (congrArg _ (if_neg hne)).trans (if_neg hne).symm

/-- **Without the log** the run is that of `Kernel.disposeProcess`. -/
theorem disposeProcess_erase : (w.disposeProcess proc).map kernel = w.kernel.disposeProcess proc := by
  by_cases hne : (w.kernel.proc proc).thread ≠ []
  · exact (congrArg _ (if_pos hne)).trans (disposeThreads_erase.trans (if_pos hne).symm)
  · exact (congrArg _ (if_neg hne)).trans (disposeEmpty_erase.trans (if_neg hne).symm)

end Watched

end NorlitOS
