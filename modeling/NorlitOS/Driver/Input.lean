import NorlitOS.Lib.Ring
import NorlitOS.Process.Mailbox

/-!
# The keyboard and the mouse

The interrupt handler of an input device stores a byte in a ring buffer and sends an interrupt
message to the process of the driver. The process takes one byte for every such message
(`keyboard_read`), and throws everything away before it sends a command (`keyboard_clear`). The
handler may run between any two lines of the process.
-/

namespace NorlitOS

def KB_BUFFER_SIZE : Nat := 0x100
def MS_BUFFER_SIZE : Nat := 0x100

/-- `KB_BUFFER` and `MS_BUFFER`. The two pointers are indices of `buf`. -/
structure InputBuffer where
  pHead : Nat
  pTail : Nat
  count : Nat
  buf : Nat → UInt8

/-- A driver: its process, the size of its buffer, and the addresses it sends from and receives
messages at. -/
structure InputDevice where
  proc : Nat
  size : Nat
  msgAddr : Nat
  intMsgAddr : Nat
  pos : 0 < size
  small : size < 2 ^ 32
  user : intMsgAddr < PAGE_OFFSET
  aligned : intMsgAddr % PAGE_SIZE = 0
  apart : ¬ (va2pde intMsgAddr = va2pde msgAddr ∧ va2pte intMsgAddr = va2pte msgAddr)

def keyboard (keyboardProc : Nat) : InputDevice where
  proc := keyboardProc
  size := KB_BUFFER_SIZE
  msgAddr := 0
  intMsgAddr := 0x1000
  pos := by decide
  small := by decide
  user := by decide
  aligned := by decide
  apart := by decide

def mouse (mouseProc : Nat) : InputDevice where
  proc := mouseProc
  size := MS_BUFFER_SIZE
  msgAddr := 0
  intMsgAddr := 0x1000
  pos := by decide
  small := by decide
  user := by decide
  aligned := by decide
  apart := by decide

/-- Where the process is: in front of a line of `keyboard_read` or `keyboard_clear`, or outside
both. `loaded`, `advanced` and `wrapped` are the places behind the lines that load the byte, move
`p_tail` and wrap it around. -/
inductive Line where
  | idle
  | read (l : Kernel.Loop)
  | loaded (scanCode : UInt8)
  | advanced (scanCode : UInt8)
  | wrapped (scanCode : UInt8)
  | clear
  | drain (l : Kernel.Loop)
deriving DecidableEq

/-- The place the process is at when the kernel returns. -/
def Line.resume (k : Kernel) (p : Nat) : Line → Line
  | .read l => .read (k.resumed p l)
  | .drain l => .drain (k.resumed p l)
  | line => line

structure InputState where
  kernel : Kernel
  buffer : InputBuffer
  line : Line

/-- An entry of a run of messages, if it returns. -/
def Kernel.enterIpc (k : Kernel) (ev : Event) : Option Kernel :=
  if Kernel.Ipc ev ∧ k.Admissible ev then k.next ev else none

theorem Kernel.enters_of_enterIpc {k k' : Kernel} {ev : Event} (h : k.enterIpc ev = some k') :
    k.EntersIpc ev k' := by
  unfold enterIpc at h
  split at h
  · next hc =>
    refine ⟨hc.1, hc.2, ?_⟩
    unfold Kernel.next at h
    cases hok : k.step ev with
    | ok k₁ =>
      rw [hok] at h
      cases h
      rfl
    | error e =>
      rw [hok] at h
      exact nomatch h
  · exact nomatch h

namespace InputDevice

/-! ## The driver -/

/-- The handler stores the byte if the buffer is not full. -/
def store (D : InputDevice) (scanCode : UInt8) (B : InputBuffer) : InputBuffer :=
  if B.count < D.size then
    { pHead := Ring.next D.size B.pHead
      pTail := B.pTail
      count := add32 B.count 1
      buf := Function.update B.buf B.pHead scanCode }
  else B

/-- `irq1_handler` and `irq12_handler`, with the byte the device gives. -/
def irqHandler (D : InputDevice) (regs : StackFrame) (scanCode : UInt8) (s : InputState) :
    Option InputState :=
  (s.kernel.enterIpc (.interrupt regs D.proc)).map fun k' =>
    { kernel := k'
      buffer := D.store scanCode s.buffer
      line := s.line.resume k' D.proc }

/-- The call of `keyboard_read` or `mouse_read`, and its lines besides `receiveMessage`. -/
def read (D : InputDevice) (s : InputState) : Option InputState :=
  match s.line with
  | .idle => some { s with line := .read .start }
  -- only a hardware interrupt says that there is a byte
  | .read (.got ret) =>
    if ret ≠ 0xFFFFFFFF then some { s with line := .read .start }
    else some { s with line := .loaded (s.buffer.buf s.buffer.pTail) }
  | .loaded scanCode =>
    some { s with buffer.pTail := s.buffer.pTail + 1, line := .advanced scanCode }
  | .advanced scanCode =>
    if s.buffer.pTail = D.size then some { s with buffer.pTail := 0, line := .wrapped scanCode }
    else some { s with line := .wrapped scanCode }
  | .wrapped _ => some { s with buffer.count := sub32 s.buffer.count 1, line := .idle }
  | _ => none

/-- The call of `keyboard_clear` or `mouse_clear`, and its lines besides the system calls. -/
def clear (D : InputDevice) (s : InputState) : Option InputState :=
  match s.line with
  | .idle => some { s with line := .clear }
  -- its own message comes after all interrupts queued before it
  | .drain (.got ret) =>
    if ret ≠ (s.kernel.proc D.proc).pid then some { s with line := .drain .start }
    else some { s with buffer.pTail := s.buffer.pHead, buffer.count := 0, line := .idle }
  | _ => none

/-- The system call of the line, and the place behind it. Outside the two functions the process
sends what it has read to other processes. -/
def systemCall (D : InputDevice) (s : InputState) (regs : StackFrame) : Option Line :=
  match s.line with
  | .read .start =>
    if regs.ax = 1 ∧ regs.cx = D.intMsgAddr then some (.read .receiving) else none
  | .drain .start =>
    if regs.ax = 1 ∧ regs.cx = D.intMsgAddr then some (.drain .receiving) else none
  | .clear =>
    if regs.ax = 0 ∧ regs.dx = (s.kernel.proc D.proc).pid ∧ regs.cx = D.msgAddr ∧ regs.bx = 0 then
      some (.drain .start)
    else none
  | .idle =>
    if regs.ax = 0 ∧ s.kernel.getProcessById regs.dx ≠ some D.proc ∧ regs.cx = D.msgAddr then
      some .idle
    else none
  | _ => none

end InputDevice

/-- What happens next: the process goes on in one of the two functions, the device interrupts, or
the process or another one enters the kernel. -/
inductive InputEvent where
  | read
  | clear
  | irq (regs : StackFrame) (scanCode : UInt8)
  | entry (ev : Event)

/-- One step of the driver among the other processes, none of which sends to it. -/
def InputDevice.step (D : InputDevice) (s : InputState) : InputEvent → Option InputState
  | .read => if D.proc = s.kernel.currentProc then D.read s else none
  | .clear => if D.proc = s.kernel.currentProc then D.clear s else none
  | .irq regs scanCode => D.irqHandler regs scanCode s
  | .entry ev =>
    -- the entries of other processes, none of which sends to the driver
    if Kernel.Quiet D.proc s.kernel ev then
      (s.kernel.enterIpc ev).map fun k' =>
        { s with kernel := k', line := s.line.resume k' D.proc }
    else
      match ev with
      | .systemCall regs =>
        if D.proc = s.kernel.currentProc then
          (D.systemCall s regs).bind fun line => (s.kernel.enterIpc ev).map fun k' =>
            { s with kernel := k', line := line.resume k' D.proc }
        else none
      | _ => none

def irq1Handler (keyboardProc : Nat) := (keyboard keyboardProc).irqHandler
def keyboardRead (keyboardProc : Nat) := (keyboard keyboardProc).read
def keyboardClear (keyboardProc : Nat) := (keyboard keyboardProc).clear
def irq12Handler (mouseProc : Nat) := (mouse mouseProc).irqHandler
def mouseRead (mouseProc : Nat) := (mouse mouseProc).read
def mouseClear (mouseProc : Nat) := (mouse mouseProc).clear

end NorlitOS
