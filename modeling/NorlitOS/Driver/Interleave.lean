import NorlitOS.Driver.Input

/-!
# Bytes and messages

A byte that the handler stores goes with one message of `sendInterrupt`. The buffer counts its
bytes and the kernel queues the messages, each with a limit of its own: in front of a full queue
the handler stores a byte without a message, and `keyboard_clear` forgets the bytes that come behind
the message it waits for, but not their messages. Without such an interrupt the two go together.
-/

namespace NorlitOS

open Dyadic Ledger

/-! ## Places

`Line` is where the driver process is between two kernel entries. These read off it what the
process has in hand. -/

namespace Line

variable {k : Kernel} {p : Nat} {line : Line}

/-- The byte that has left the ring and is still counted. -/
def taken : Line → List UInt8
  | .advanced scanCode | .wrapped scanCode => [scanCode]
  | _ => []

/-- The process has loaded the byte and has not returned it yet. -/
def Takes (line : Line) (scanCode : UInt8) : Prop :=
  line = .loaded scanCode ∨ line = .advanced scanCode ∨ line = .wrapped scanCode

/-- The process is in `keyboard_clear`. -/
def Clears : Line → Prop
  | .clear | .drain _ => True
  | _ => False

/-- Where the process is in a loop around `receiveMessage`. -/
def loop : Line → Kernel.Loop
  | .read l | .drain l => l
  | _ => .start

/-- The message that the byte is taken for has been received. -/
def inHand : Line → Nat
  | .loaded _ | .advanced _ | .wrapped _ => 1
  | _ => 0

@[simp] theorem resume_taken : (line.resume k p).taken = line.taken := by cases line <;> rfl

@[simp] theorem resume_inHand : (line.resume k p).inHand = line.inHand := by cases line <;> rfl

@[simp] theorem resume_loop : (line.resume k p).loop = k.resumed p line.loop := by
  cases line <;> rfl

end Line

namespace InputDevice

variable {D : InputDevice} {s t : InputState} {B : InputBuffer} {scanCode : UInt8}
  {regs : StackFrame} {k k' : Kernel} {ev : Event} {line : Line} {e : InputEvent}

/-! ## Bytes and messages

`InStep` is what the two sides should agree on: as many bytes in the buffer as messages of the
handler that have not been read. `Timely` is when they can disagree: when one of the two limits is
met and the other is not. -/

/-- The bytes that have been stored and not been returned or cleared, oldest first. -/
def bytes (D : InputDevice) (s : InputState) : List UInt8 :=
  s.line.taken ++
    Ring.window s.buffer.buf D.size s.buffer.pTail (s.buffer.count - s.line.taken.length)

/-- The sources of the messages that are queued or received in front of a test. -/
def sources (D : InputDevice) (s : InputState) : List Nat :=
  (s.kernel.content D.proc D.intMsgAddr s.line.loop).map Prod.fst

/-- The messages that are queued or received and not yet consumed. -/
def pending (D : InputDevice) (s : InputState) : Nat := (D.sources s).length + s.line.inHand

/-- The buffer is in step with the messages. -/
structure InStep (D : InputDevice) (s : InputState) : Prop where
  /-- A byte that is taken is the oldest one, and `count` is positive. -/
  taking : ∀ scanCode, s.line.Takes scanCode →
    0 < s.buffer.count ∧ (D.bytes s).head? = some scanCode
  fits : s.buffer.count ≤ D.size
  /-- The bytes are those between `p_tail` and `p_head`. -/
  between : s.buffer.pHead =
    (s.buffer.pTail + (s.buffer.count - s.line.taken.length)) % D.size
  count : (D.bytes s).length = s.buffer.count
  pending : ¬ s.line.Clears → s.buffer.count = D.pending s

/-- What the handler stores. -/
def stored (D : InputDevice) (s : InputState) (e : InputEvent) (_ : InputState) : List UInt8 :=
  match e with
  | .irq _ scanCode => if s.buffer.count < D.size then [scanCode] else []
  | _ => []

/-- What `keyboard_read` returns. -/
def returned (s : InputState) (_ : InputEvent) (t : InputState) : List UInt8 :=
  match s.line, t.line with
  | .wrapped scanCode, .idle => [scanCode]
  | _, _ => []

/-- What `keyboard_read` returns or `keyboard_clear` throws away. -/
def removed (D : InputDevice) (s : InputState) (e : InputEvent) (t : InputState) : List UInt8 :=
  match s.line, t.line with
  | .drain _, .idle => D.bytes s
  | _, _ => returned s e t

/-- When an interrupt may come: outside `keyboard_clear` if the buffer has room exactly when the
queue has, and while `keyboard_clear` waits for the message of its own process if that one is not
queued yet, or nothing can be queued behind it. -/
def Timely (D : InputDevice) (s : InputState) : Line → Prop
  | .clear => True
  | .drain _ => (s.kernel.proc D.proc).pid ∈ D.sources s → ¬ s.kernel.HasRoom D.proc
  | _ => s.buffer.count < D.size ↔ s.kernel.HasRoom D.proc

def InTime (D : InputDevice) (s : InputState) : InputEvent → Prop
  | .irq _ _ => D.Timely s s.line
  | _ => True

def StepsInTime (D : InputDevice) (s : InputState) (e : InputEvent) (t : InputState) : Prop :=
  D.InTime s e ∧ D.step s e = some t

/-! ## The ring

The buffer between its two pointers, with the byte that is being taken out counted until it is
gone. -/

/-- The buffer is a ring, also in front of the lines of `keyboard_read`. -/
structure RingOk (D : InputDevice) (B : InputBuffer) (line : Line) : Prop where
  fits : B.count ≤ D.size
  counted : line.taken.length ≤ B.count
  between : B.pHead = (B.pTail + (B.count - line.taken.length)) % D.size
  tail : B.pTail ≤ D.size
  inside : (∀ scanCode, line ≠ .advanced scanCode) → B.pTail < D.size
  oldest : ∀ scanCode, line = .loaded scanCode → 0 < B.count ∧ B.buf B.pTail = scanCode

/-- The ring is the same from a place where no byte is taken to another one. -/
theorem RingOk.move {line' : Line} (h : D.RingOk B line) (ht : line.taken = [])
    (ht' : line'.taken = []) (hl : ∀ scanCode, line' ≠ .loaded scanCode) : D.RingOk B line' := by
  have hin : B.pTail < D.size := by
    refine h.inside fun b hb => ?_
    rw [hb] at ht
    exact nomatch ht
  refine ⟨h.fits, ?_, ?_, h.tail, fun _ => hin, fun b hb => absurd hb (hl b)⟩
  · rw [ht']
    exact Nat.zero_le _
  · rw [ht', ← ht]
    exact h.between

/-- The kernel does not touch the buffer. -/
theorem RingOk.resume {p : Nat} (h : D.RingOk B line) : D.RingOk B (line.resume k p) := by
  cases line with
  | read l => exact h.move rfl rfl nofun
  | drain l => exact h.move rfl rfl nofun
  | _ => exact h

/-- A count below the size does not go round. -/
theorem add32_count (h : B.count < D.size) : add32 B.count 1 = B.count + 1 :=
  add32_of_lt (by have := D.small; omega)

/-- The handler appends the byte. -/
theorem RingOk.store (h : D.RingOk B line) : D.RingOk (D.store scanCode B) line ∧
    line.taken ++ Ring.window (D.store scanCode B).buf D.size (D.store scanCode B).pTail
        ((D.store scanCode B).count - line.taken.length) =
      (line.taken ++ Ring.window B.buf D.size B.pTail (B.count - line.taken.length)) ++
        if B.count < D.size then [scanCode] else [] := by
  have hcounted := h.counted
  unfold InputDevice.store
  split
  -- with room for it the byte goes in front of the head
  · next hc =>
    have hnext : B.count + 1 - line.taken.length = B.count - line.taken.length + 1 := by omega
    rw [add32_count hc]
    refine ⟨⟨hc, Nat.le_succ_of_le hcounted, ?_, h.tail, h.inside,
      fun b hb => ⟨Nat.succ_pos _, ?_⟩⟩, ?_⟩
    · show Ring.next D.size B.pHead = _
      rw [h.between, Ring.next_mod D.pos, hnext]
    · -- the byte that is loaded is not the one that is written
      obtain ⟨hpos, hbyte⟩ := h.oldest b hb
      have hin : B.pTail < D.size := h.inside fun c hc => nomatch hb.symm.trans hc
      have hne : B.pTail ≠ B.pHead := by
        have hidx : (B.pTail + 0) % D.size ≠ (B.pTail + B.count) % D.size := Ring.index_ne hpos hc
        rw [Nat.add_zero, Nat.mod_eq_of_lt hin] at hidx
        rw [h.between, hb]
        exact hidx
      show Function.update B.buf B.pHead scanCode B.pTail = b
      rw [Function.update_of_ne hne]
      exact hbyte
    · show line.taken ++ Ring.window (Function.update B.buf B.pHead scanCode) D.size B.pTail
        (B.count + 1 - line.taken.length) = _
      rw [hnext, h.between, Ring.window_push (by omega), List.append_assoc]
  · exact ⟨h, (List.append_nil _).symm⟩

/-- The tail moves off the byte that is loaded. -/
theorem RingOk.advance (h : D.RingOk B (.loaded scanCode)) :
    D.RingOk { B with pTail := B.pTail + 1 } (.advanced scanCode) ∧
      Ring.window B.buf D.size B.pTail B.count =
        scanCode :: Ring.window B.buf D.size (B.pTail + 1) (B.count - 1) := by
  obtain ⟨hpos, hbyte⟩ := h.oldest scanCode rfl
  have hin : B.pTail < D.size := h.inside nofun
  have hbetween : B.pHead = (B.pTail + B.count) % D.size := h.between
  obtain ⟨n, hn⟩ := Nat.exists_eq_succ_of_ne_zero hpos.ne'
  refine ⟨⟨h.fits, hpos, ?_, hin, fun hne => absurd rfl (hne scanCode), nofun⟩, ?_⟩
  · show B.pHead = (B.pTail + 1 + (B.count - 1)) % D.size
    rw [hbetween, hn]
    congr 1
    omega
  · rw [hn, Ring.window_succ hin, hbyte]
    rfl

/-- The tail goes from the end of the array to its beginning. -/
theorem RingOk.wrap (h : D.RingOk B (.advanced scanCode)) (hend : B.pTail = D.size) :
    D.RingOk { B with pTail := 0 } (.wrapped scanCode) ∧
      Ring.window B.buf D.size B.pTail (B.count - 1) = Ring.window B.buf D.size 0 (B.count - 1) := by
  have hbetween : B.pHead = (B.pTail + (B.count - 1)) % D.size := h.between
  refine ⟨⟨h.fits, h.counted, ?_, Nat.zero_le _, fun _ => D.pos, nofun⟩, ?_⟩
  · show B.pHead = (0 + (B.count - 1)) % D.size
    rw [hbetween, hend, Nat.add_mod_left, Nat.zero_add]
  · rw [hend, Ring.window_wrap]

/-! ## The messages

While `keyboard_clear` waits for its own message, the bytes are forgotten and the count means
nothing. In every other place the count is that of the messages. -/

/-- Only messages of `sendInterrupt`. -/
def Signals (l : List Nat) : Prop := ∀ x ∈ l, x = 0xFFFFFFFF

/-- The messages match the place: outside `keyboard_clear` there is one for every byte, and while
it waits for the message of its own process, that is the last one. -/
def Agrees (pid count : Nat) (l : List Nat) : Line → Prop
  | .clear => Signals l
  | .drain _ => Signals l ∨ ∃ front, Signals front ∧ l = front ++ [pid]
  | line => Signals l ∧ count = l.length + line.inHand

variable {pid count : Nat} {l : List Nat}

/-- The agreement does not depend on what the kernel resumes. -/
theorem Agrees.resume {p : Nat} (h : Agrees pid count l line) :
    Agrees pid count l (line.resume k p) := by
  cases line <;> exact h

/-- Two sequences of messages of the handler. -/
theorem Signals.append {l' : List Nat} (h : Signals l) (h' : Signals l') : Signals (l ++ l') :=
  fun x hx => (List.mem_append.mp hx).elim (h x) (h' x)

/-- What the run keeps. -/
structure Good (D : InputDevice) (s : InputState) : Prop where
  reader : Kernel.Reader D.proc D.intMsgAddr (s.kernel, s.line.loop)
  pid : (s.kernel.proc D.proc).pid ≠ 0xFFFFFFFF
  ring : D.RingOk s.buffer s.line
  agrees : Agrees (s.kernel.proc D.proc).pid s.buffer.count (D.sources s) s.line

/-- The invariant implies what was to be shown. -/
theorem Good.inStep (h : D.Good s) : D.InStep s := by
  have hring := h.ring
  have hcounted := hring.counted
  refine ⟨fun b hb => ?_, hring.fits, hring.between, ?_, fun hout => ?_⟩
  · unfold bytes
    rcases hb with hb | hb | hb
    · obtain ⟨hpos, hbyte⟩ := hring.oldest b hb
      have hin : s.buffer.pTail < D.size := hring.inside fun c hc => nomatch hb.symm.trans hc
      obtain ⟨n, hn⟩ := Nat.exists_eq_succ_of_ne_zero hpos.ne'
      rw [hb, hn]
      refine ⟨Nat.succ_pos n, ?_⟩
      show (Ring.window s.buffer.buf D.size s.buffer.pTail (n + 1)).head? = some b
      rw [Ring.window_succ hin, hbyte]
      rfl
    · rw [hb] at hcounted ⊢
      exact ⟨hcounted, rfl⟩
    · rw [hb] at hcounted ⊢
      exact ⟨hcounted, rfl⟩
  · rw [bytes, List.length_append, Ring.length_window]
    omega
  · have hag := h.agrees
    unfold pending
    -- the counts agree in every place but inside `keyboard_clear`
    cases hline : s.line with
    | clear =>
      rw [hline] at hout
      exact absurd trivial hout
    | drain l =>
      rw [hline] at hout
      exact absurd trivial hout
    | _ =>
      rw [hline] at hag
      exact hag.2

/-! ## Kernel entries

An interrupt stores a byte and sends a message. A call of the driver reads one, or sends one to
itself. -/

/-- The kernel has returned. -/
theorem Good.after (h : D.Good s) (hs : s.kernel.EntersIpc ev k')
    (hat : k'.AtLoop D.proc D.intMsgAddr line.loop) (hring : D.RingOk B line)
    (hag : Agrees (s.kernel.proc D.proc).pid B.count (D.sources ⟨k', B, line⟩) line) :
    D.Good ⟨k', B, line⟩ := by
  obtain ⟨pool, hinv⟩ := h.reader.inv
  have hreader := h.reader.next hs hat
  have hpid := (hs.sameIds hinv).pid D.proc hreader.mortal.mem
  refine ⟨hreader, ?_, hring, ?_⟩
  · show (k'.proc D.proc).pid ≠ _
    rw [hpid]
    exact h.pid
  · show Agrees (k'.proc D.proc).pid _ _ _
    rw [hpid]
    exact hag

/-- An entry that is no call of the process adds what arrives. -/
theorem Good.foreign (h : D.Good s) (hs : s.kernel.EntersIpc ev k')
    (hev : Kernel.Foreign D.proc s.kernel ev) :
    k'.AtLoop D.proc D.intMsgAddr (s.line.resume k' D.proc).loop ∧
      D.sources ⟨k', B, s.line.resume k' D.proc⟩ =
        D.sources s ++ (Kernel.arrived D.proc s.kernel ev k').map Prod.fst := by
  obtain ⟨pool, hinv⟩ := h.reader.inv
  obtain ⟨hat, hlaw⟩ := hs.content_foreign hev hinv h.reader.mortal.mem h.reader.phase D.user D.aligned
  rw [Line.resume_loop]
  refine ⟨hat, ?_⟩
  unfold sources
  rw [Line.resume_loop, hlaw, List.map_append]

/-- An entry that has nothing to do with the process. -/
theorem Good.quiet (h : D.Good s) (hs : s.kernel.EntersIpc ev k')
    (hev : Kernel.Quiet D.proc s.kernel ev) :
    D.Good { s with kernel := k', line := s.line.resume k' D.proc } := by
  obtain ⟨hat, hsources⟩ := h.foreign (B := s.buffer) hs hev.foreign
  rw [hev.arrived, List.map_nil, List.append_nil] at hsources
  refine h.after hs hat h.ring.resume ?_
  rw [hsources]
  exact h.agrees.resume

/-- **The handler**, when it is in time. -/
theorem Good.irq (h : D.Good s) (hs : s.kernel.EntersIpc (.interrupt regs D.proc) k')
    (htime : D.Timely s s.line) :
    D.Good ⟨k', D.store scanCode s.buffer, s.line.resume k' D.proc⟩ := by
  obtain ⟨pool, hinv⟩ := h.reader.inv
  obtain ⟨hat, hsources⟩ := h.foreign (B := D.store scanCode s.buffer) hs trivial
  rw [hs.arrived_interrupt hinv] at hsources
  have hring : D.RingOk (D.store scanCode s.buffer) s.line := h.ring.store.1
  refine h.after hs hat hring.resume (Agrees.resume ?_)
  rw [hsources]
  have hag := h.agrees
  have hone : Signals (if s.kernel.HasRoom D.proc then [0xFFFFFFFF] else []) := by
    intro x hx
    split at hx
    · exact List.mem_singleton.mp hx
    · exact absurd hx List.not_mem_nil
  -- a byte is stored exactly if a message is sent
  have heven : ∀ n, (s.buffer.count < D.size ↔ s.kernel.HasRoom D.proc) →
      s.buffer.count = (D.sources s).length + n → (D.store scanCode s.buffer).count =
        (D.sources s ++ if s.kernel.HasRoom D.proc then [0xFFFFFFFF] else []).length + n := by
    intro n hiff hcount
    rw [List.length_append]
    unfold InputDevice.store
    by_cases hroom : s.kernel.HasRoom D.proc
    · rw [if_pos hroom, if_pos (hiff.mpr hroom)]
      show add32 s.buffer.count 1 = _ + 1 + n
      rw [add32_count (hiff.mpr hroom)]
      omega
    · rw [if_neg hroom, if_neg fun hc => hroom (hiff.mp hc)]
      exact hcount
  cases hline : s.line with
  | clear =>
    rw [hline] at hag
    exact Signals.append hag hone
  | drain l =>
    rw [hline] at hag htime
    cases hag with
    | inl hall => exact Or.inl (hall.append hone)
    | inr hown =>
      obtain ⟨front, hfront, heq⟩ := hown
      have hfull : ¬ s.kernel.HasRoom D.proc := htime (by simp [heq])
      rw [if_neg hfull, List.append_nil]
      exact Or.inr ⟨front, hfront, heq⟩
  | _ =>
    rw [hline] at hag htime
    exact ⟨hag.1.append hone, heven _ htime hag.2⟩

/-- The system calls of the process: where it makes them, and where it goes on. -/
inductive Calls (D : InputDevice) (k : Kernel) (regs : StackFrame) : Line → Line → Prop
  | read (ax : regs.ax = 1) (cx : regs.cx = D.intMsgAddr) :
      Calls D k regs (.read .start) (.read .receiving)
  | drain (ax : regs.ax = 1) (cx : regs.cx = D.intMsgAddr) :
      Calls D k regs (.drain .start) (.drain .receiving)
  | clear (ax : regs.ax = 0) (cx : regs.cx = D.msgAddr) (bx : regs.bx = 0) :
      Calls D k regs .clear (.drain .start)
  | idle (ax : regs.ax = 0) (other : k.getProcessById regs.dx ≠ some D.proc)
      (cx : regs.cx = D.msgAddr) : Calls D k regs .idle .idle

/-- The calls that the driver makes in each place. -/
theorem calls_of_systemCall {line' : Line} (h : D.systemCall s regs = some line') :
    D.Calls s.kernel regs s.line line' := by
  unfold InputDevice.systemCall at h
  -- one call for each of the four places in which there is one
  split at h
  · next hline =>
    split at h
    · next hc =>
      cases h
      exact hline ▸ .read hc.1 hc.2
    · exact nomatch h
  · next hline =>
    split at h
    · next hc =>
      cases h
      exact hline ▸ .drain hc.1 hc.2
    · exact nomatch h
  · next hline =>
    split at h
    · next hc =>
      cases h
      exact hline ▸ .clear hc.1 hc.2.2.1 hc.2.2.2
    · exact nomatch h
  · next hline =>
    split at h
    · next hc =>
      cases h
      exact hline ▸ .idle hc.1 hc.2.1 hc.2.2
    · exact nomatch h
  · exact nomatch h

/-- `receiveMessage(INT_MSG_ADDR)`, in either loop. -/
theorem Good.receive (line : Line) (h : D.Good s) (hs : s.kernel.EntersIpc (.systemCall regs) k')
    (hrun : D.proc = s.kernel.currentProc) (hloop : s.line.loop = .start) (hax : regs.ax = 1)
    (hcx : regs.cx = D.intMsgAddr) (hline : line.loop = k'.resumed D.proc .receiving) :
    k'.AtLoop D.proc D.intMsgAddr line.loop ∧ D.sources ⟨k', s.buffer, line⟩ = D.sources s := by
  obtain ⟨pool, hinv⟩ := h.reader.inv
  have hphase := h.reader.phase
  rw [hrun] at hphase
  rw [show (s.kernel, s.line.loop).2 = .start from hloop] at hphase
  obtain ⟨hat, hlaw⟩ := hs.content_receive hinv hax hcx hphase D.user D.aligned
  rw [← hrun] at hat hlaw
  unfold sources
  rw [hline, hloop, hlaw]
  exact ⟨hat, rfl⟩

/-- `sendMessage`, to whom it may be. -/
theorem Good.send (line : Line) (h : D.Good s) (hs : s.kernel.EntersIpc (.systemCall regs) k')
    (hrun : D.proc = s.kernel.currentProc) (hloop : s.line.loop = .start) (hax : regs.ax = 0)
    (hcx : regs.cx = D.msgAddr) (hline : line.loop = .start) :
    k'.AtLoop D.proc D.intMsgAddr line.loop ∧ D.sources ⟨k', s.buffer, line⟩ = D.sources s ++
      (Kernel.arrived D.proc s.kernel (.systemCall regs) k').map Prod.fst := by
  obtain ⟨pool, hinv⟩ := h.reader.inv
  have hphase := h.reader.phase
  rw [hrun] at hphase
  rw [show (s.kernel, s.line.loop).2 = .start from hloop] at hphase
  obtain ⟨hat, hmail⟩ := hs.content_send hinv hax D.user (hcx ▸ D.apart) hphase
  rw [← hrun] at hat hmail
  unfold sources
  rw [hline, hloop, ← List.map_append]
  exact ⟨hat, congrArg (List.map Prod.fst) hmail⟩

/-- The system calls of the process. -/
theorem Good.call {line' : Line} (h : D.Good s) (hcall : D.Calls s.kernel regs s.line line')
    (hs : s.kernel.EntersIpc (.systemCall regs) k') (hrun : D.proc = s.kernel.currentProc) :
    D.Good { s with kernel := k', line := line'.resume k' D.proc } := by
  obtain ⟨k, B, line⟩ := s
  have hring : D.RingOk B line := h.ring
  have hag := h.agrees
  have harrived : Kernel.arrived D.proc k (.systemCall regs) k' = [] ∨
      (k.getProcessById regs.dx = some D.proc ∧
        ∃ f, Kernel.arrived D.proc k (.systemCall regs) k' = [(k.sendSource regs.bx, f)]) :=
    Kernel.arrived_send
  cases hcall with
  | read hax hcx =>
    obtain ⟨hat, hsources⟩ := h.receive (.read (k'.resumed D.proc .receiving)) hs hrun rfl
      hax hcx rfl
    exact h.after hs hat (hring.move rfl rfl nofun) (hsources ▸ hag)
  | drain hax hcx =>
    obtain ⟨hat, hsources⟩ := h.receive (.drain (k'.resumed D.proc .receiving)) hs hrun rfl
      hax hcx rfl
    exact h.after hs hat (hring.move rfl rfl nofun) (hsources ▸ hag)
  | clear hax hcx hbx =>
    obtain ⟨hat, hsources⟩ := h.send ((Line.drain .start).resume k' D.proc) hs hrun rfl hax
      hcx rfl
    refine h.after hs hat (hring.move rfl rfl nofun) ?_
    rw [hsources]
    cases harrived with
    | inl hnone =>
      rw [hnone, List.map_nil, List.append_nil]
      exact Or.inl hag
    | inr hown =>
      obtain ⟨-, f, hf⟩ := hown
      -- the message that the process sends to itself ends the draining
      have hsource : k.sendSource regs.bx = (k.proc D.proc).pid := by
        rw [hrun]
        exact if_pos hbx
      rw [hf, hsource]
      exact Or.inr ⟨_, hag, rfl⟩
  | idle hax hother hcx =>
    obtain ⟨hat, hsources⟩ := h.send (Line.idle.resume k' D.proc) hs hrun rfl hax hcx rfl
    refine h.after hs hat hring ?_
    cases harrived with
    | inl hnone =>
      rw [hsources, hnone, List.map_nil, List.append_nil]
      exact hag
    | inr hown => exact absurd hown.1 hother

/-! ## The lines of the process

Between two calls the driver moves its pointers and the count, line by line, and an interrupt may
come between any two of them. -/

/-- A line that is no system call. -/
theorem Good.move {B : InputBuffer} (h : D.Good s)
    (hat : s.kernel.AtLoop D.proc D.intMsgAddr line.loop) (hring : D.RingOk B line)
    (hag : Agrees (s.kernel.proc D.proc).pid B.count (D.sources ⟨s.kernel, B, line⟩) line) :
    D.Good ⟨s.kernel, B, line⟩ :=
  ⟨⟨h.reader.inv, h.reader.ascending, h.reader.mortal, h.reader.user, h.reader.aligned, hat⟩,
    h.pid, hring, hag⟩

/-- **`keyboard_read`** returns the oldest byte. -/
theorem Good.read (h : D.Good s) (hread : D.read s = some t) :
    D.Good t ∧ D.bytes s = D.removed s .read t ++ D.bytes t := by
  obtain ⟨k, B, line⟩ := s
  have hring : D.RingOk B line := h.ring
  have hag := h.agrees
  have hphase := h.reader.phase
  have hcounted := hring.counted
  unfold InputDevice.read at hread
  -- one case for each line of `keyboard_read`
  cases line with
  | idle =>
    cases hread
    exact ⟨h.move hphase (hring.move rfl rfl nofun) hag, rfl⟩
  | read l =>
    cases l with
    | got ret =>
      -- there is nothing but messages of the handler
      have hret : ret = 0xFFFFFFFF := hag.1 ret (List.mem_cons_self ..)
      dsimp only at hread
      rw [if_neg (not_not.mpr hret)] at hread
      cases hread
      have hcount : B.count = (k.mail D.proc).length + 1 := by
        rw [show B.count = _ from hag.2]
        simp [sources, Line.loop, Kernel.content, Line.inHand]
      have hin : B.pTail < D.size := hring.inside nofun
      refine ⟨h.move ⟨hphase.1, hphase.2.normal⟩ ⟨hring.fits, Nat.zero_le _, hring.between,
        hring.tail, fun _ => hin, fun b hb => ?_⟩ ⟨fun x hx => ?_, ?_⟩, rfl⟩
      · cases hb
        exact ⟨hcount ▸ Nat.succ_pos _, rfl⟩
      · exact hag.1 x (List.mem_cons_of_mem _ hx)
      · rw [hcount]
        simp [sources, Line.loop, Kernel.content, Line.inHand]
    | start => exact nomatch hread
    | receiving => exact nomatch hread
  | loaded b =>
    cases hread
    obtain ⟨hadvanced, hwindow⟩ := hring.advance
    exact ⟨h.move hphase hadvanced hag, hwindow⟩
  | advanced b =>
    dsimp only at hread
    split at hread
    · next hend =>
      cases hread
      obtain ⟨hwrapped, hwindow⟩ := hring.wrap hend
      exact ⟨h.move hphase hwrapped hag, congrArg (b :: ·) hwindow⟩
    · next hend =>
      cases hread
      have hin : B.pTail < D.size := lt_of_le_of_ne hring.tail hend
      exact ⟨h.move hphase ⟨hring.fits, hcounted, hring.between, hring.tail, fun _ => hin, nofun⟩
        hag, rfl⟩
  | wrapped b =>
    cases hread
    have hpos : 1 ≤ B.count := hcounted
    have hsub : sub32 B.count 1 = B.count - 1 :=
      sub32_of_le hpos (lt_of_le_of_lt hring.fits D.small)
    have hin : B.pTail < D.size := hring.inside nofun
    have hcount : B.count = (D.sources ⟨k, B, .wrapped b⟩).length + 1 := hag.2
    have hmoved : D.RingOk { B with count := B.count - 1 } .idle :=
      ⟨(Nat.sub_le _ _).trans hring.fits, Nat.zero_le _, hring.between, hring.tail, fun _ => hin,
        nofun⟩
    have hagrees : Agrees (k.proc D.proc).pid (B.count - 1) (D.sources ⟨k, B, .wrapped b⟩) .idle :=
      ⟨hag.1, by rw [hcount]; rfl⟩
    rw [hsub]
    exact ⟨h.move hphase hmoved hagrees, rfl⟩
  | clear => exact nomatch hread
  | drain l => exact nomatch hread

/-- **`keyboard_clear`** ends with an empty buffer and without messages. -/
theorem Good.clear (h : D.Good s) (hclear : D.clear s = some t) :
    D.Good t ∧ D.bytes s = D.removed s .clear t ++ D.bytes t := by
  obtain ⟨k, B, line⟩ := s
  have hring : D.RingOk B line := h.ring
  have hag := h.agrees
  have hphase := h.reader.phase
  unfold InputDevice.clear at hclear
  -- one case for each line of `keyboard_clear`
  cases line with
  | idle =>
    cases hclear
    exact ⟨h.move hphase (hring.move rfl rfl nofun) hag.1, rfl⟩
  | drain l =>
    cases l with
    | got ret =>
      have hmove : k.AtLoop D.proc D.intMsgAddr .start := ⟨hphase.1, hphase.2.normal⟩
      dsimp only at hclear
      split at hclear
      · next hret =>
        cases hclear
        refine ⟨h.move hmove (hring.move rfl rfl nofun) ?_, rfl⟩
        cases hag with
        | inl hall => exact Or.inl fun x hx => hall x (List.mem_cons_of_mem _ hx)
        | inr hown =>
          obtain ⟨front, hfront, heq⟩ := hown
          cases front with
          | nil =>
            have hhead : ret = (k.proc D.proc).pid := (List.cons.inj heq).1
            exact absurd hhead hret
          | cons x front =>
            exact Or.inr ⟨front, fun y hy => hfront y (List.mem_cons_of_mem _ hy),
              (List.cons.inj heq).2⟩
      · next hret =>
        cases hclear
        have hret : ret = (k.proc D.proc).pid := not_not.mp hret
        have hhead : B.pHead < D.size := by
          rw [hring.between]
          exact Nat.mod_lt _ D.pos
        -- the message of the process itself was the last one
        have hempty : (k.mail D.proc).map Prod.fst = [] := by
          cases hag with
          | inl hall => exact absurd (hret ▸ hall ret (List.mem_cons_self ..)) h.pid
          | inr hown =>
            obtain ⟨front, hfront, heq⟩ := hown
            cases front with
            | nil => exact (List.cons.inj heq).2
            | cons x front =>
              have hx : ret = x := (List.cons.inj heq).1
              have hsig := hfront x (List.mem_cons_self ..)
              exact absurd (hret.symm.trans (hx.trans hsig)) h.pid
        refine ⟨h.move hmove ⟨Nat.zero_le _, Nat.zero_le _, ?_, hhead.le, fun _ => hhead, nofun⟩ ?_, ?_⟩
        · show B.pHead = (B.pHead + 0) % D.size
          rw [Nat.add_zero, Nat.mod_eq_of_lt hhead]
        · show Signals ((k.mail D.proc).map Prod.fst) ∧ 0 = ((k.mail D.proc).map Prod.fst).length + 0
          rw [hempty]
          exact ⟨nofun, rfl⟩
        · exact (List.append_nil _).symm
    | start => exact nomatch hclear
    | receiving => exact nomatch hclear
  | _ => exact nomatch hclear

/-! ## Steps

A step of the machine is a line of the process, an interrupt or a kernel entry, in any order. -/

/-- A kernel entry takes no byte out of the buffer. -/
theorem removed_resume (h : t.line = s.line.resume k D.proc) : D.removed s e t = [] := by
  unfold removed returned
  rw [h]
  cases s.line <;> rfl

/-- A process that calls the kernel has no byte in its hand. -/
theorem Calls.bytes {line' : Line} (hcall : D.Calls s.kernel regs s.line line') (e : InputEvent)
    (k' : Kernel) :
    D.removed s e ⟨k', s.buffer, line'.resume k' D.proc⟩ = [] ∧
      D.bytes ⟨k', s.buffer, line'.resume k' D.proc⟩ = D.bytes s := by
  obtain ⟨k, B, line⟩ := s
  cases hcall <;> exact ⟨rfl, rfl⟩

/-- **One step** keeps the buffer in step and gives the bytes on in order. -/
theorem Good.step (h : D.Good s) (hs : D.StepsInTime s e t) :
    D.Good t ∧ D.bytes s ++ D.stored s e t = D.removed s e t ++ D.bytes t := by
  obtain ⟨htime, hs⟩ := hs
  cases e with
  | read =>
    change (if _ then _ else _) = _ at hs
    rw [show D.stored s .read t = [] from rfl, List.append_nil]
    split at hs
    · exact h.read hs
    · exact nomatch hs
  | clear =>
    change (if _ then _ else _) = _ at hs
    rw [show D.stored s .clear t = [] from rfl, List.append_nil]
    split at hs
    · exact h.clear hs
    · exact nomatch hs
  | irq regs b =>
    -- the handler puts the byte into the buffer
    obtain ⟨k', hk', ht⟩ := Option.map_eq_some_iff.mp hs
    subst ht
    refine ⟨h.irq (Kernel.enters_of_enterIpc hk') htime, ?_⟩
    rw [removed_resume (k := k') rfl, List.nil_append]
    unfold bytes
    dsimp only
    rw [Line.resume_taken]
    exact (h.ring.store).2.symm
  | entry ev =>
    change (if _ then _ else _) = _ at hs
    rw [show D.stored s (.entry ev) t = [] from rfl, List.append_nil]
    split at hs
    · next hquiet =>
      obtain ⟨k', hk', ht⟩ := Option.map_eq_some_iff.mp hs
      subst ht
      refine ⟨h.quiet (Kernel.enters_of_enterIpc hk') hquiet, ?_⟩
      rw [removed_resume (k := k') rfl, List.nil_append]
      unfold bytes
      dsimp only
      rw [Line.resume_taken]
    · cases ev with
      | systemCall regs =>
        change (if _ then _ else _) = _ at hs
        split at hs
        · next hrun =>
          -- a call of the driver itself
          obtain ⟨line', hcall, hs⟩ := Option.bind_eq_some_iff.mp hs
          obtain ⟨k', hk', ht⟩ := Option.map_eq_some_iff.mp hs
          subst ht
          have hcalls := calls_of_systemCall hcall
          obtain ⟨hremoved, hbytes⟩ := hcalls.bytes (.entry (.systemCall regs)) k'
          refine ⟨h.call hcalls (Kernel.enters_of_enterIpc hk') hrun, ?_⟩
          rw [hremoved, hbytes]
          rfl
        · exact nomatch hs
      | _ => exact nomatch hs

/-! ## Runs

What has been stored and what has been taken out of the buffer along a run, in order. The bytes
returned by `keyboard_read` are among the latter. -/

/-- What the run stores, returns and removes, in order. -/
def storedIn (D : InputDevice) (s : InputState) (es : List InputEvent) : List UInt8 :=
  total D.step D.stored s es

def returnedIn (D : InputDevice) (s : InputState) (es : List InputEvent) : List UInt8 :=
  total D.step returned s es

def removedIn (D : InputDevice) (s : InputState) (es : List InputEvent) : List UInt8 :=
  total D.step D.removed s es

/-- A byte that is returned has been taken out. -/
theorem returned_sublist : (returned s e t).Sublist (D.removed s e t) := by
  unfold removed
  split
  · next hline _ =>
    unfold returned
    rw [hline]
    exact List.nil_sublist _
  · exact List.Sublist.refl _

variable {es : List InputEvent}

/-- The same along a run. -/
theorem returnedIn_sublist : (D.returnedIn s es).Sublist (D.removedIn s es) := by
  unfold returnedIn removedIn
  induction es generalizing s with
  | nil => exact List.Sublist.refl _
  | cons e es ih =>
    rw [total, total]
    cases D.step s e with
    | none => exact List.Sublist.refl _
    | some t => exact returned_sublist.append ih

/-- The driver waits for the first byte, and the buffer holds a byte for every message that is
queued already. -/
structure Ready (D : InputDevice) (s : InputState) : Prop where
  idle : s.line = .idle
  awake : ¬ s.kernel.Waits D.proc
  normal : Kernel.isPhy (s.kernel.entryAt D.proc D.intMsgAddr) = false
  signals : ∀ m ∈ s.kernel.mail D.proc, m.1 = 0xFFFFFFFF
  count : s.buffer.count = (s.kernel.mail D.proc).length
  fits : s.buffer.count ≤ D.size
  tail : s.buffer.pTail < D.size
  head : s.buffer.pHead = (s.buffer.pTail + s.buffer.count) % D.size

variable {kernelPDE ip : Nat} {k₁ : Kernel} {es' : List Event}

/-- **Bytes and messages.** A driver other than Init is ready in a state that careful entries reach.
If no interrupt comes between the limits or behind the message of `keyboard_clear`, the buffer is in
step with the messages in every state that follows, and what has been stored is what has been
returned or cleared, in this order, followed by what is still in the buffer. -/
theorem run_inStep (hB : k.Boot kernelPDE) (hinit : k.initProc kernelPDE ip = .ok k₁)
    (hreach : Run Kernel.EntersCarefully k₁ es' s.kernel) (hmortal : s.kernel.Mortal D.proc)
    (hready : D.Ready s) (hrun : Run D.StepsInTime s es t) : D.InStep t ∧
      D.bytes s ++ D.storedIn s es = D.removedIn s es ++ D.bytes t ∧
      (D.returnedIn s es).Sublist (D.removedIn s es) := by
  obtain ⟨pool, -, hinv⟩ := hB.run_inv hinit hreach
  have hnum := hB.run_numbered hinit hreach
  -- the driver is ready, so nothing is under way yet
  have hgood : D.Good s := by
    refine ⟨⟨⟨pool, hinv⟩, hnum.ascending, hmortal, D.user, D.aligned, ?_⟩, ?_, ?_, ?_⟩
    · rw [hready.idle]
      exact ⟨hready.awake, hready.normal⟩
    · have hle := hnum.small D.proc hmortal.mem
      intro hpid
      rw [hpid] at hle
      exact absurd hle (by decide)
    · rw [hready.idle]
      exact ⟨hready.fits, Nat.zero_le _, hready.head, hready.tail.le, fun _ => hready.tail, nofun⟩
    · unfold sources
      rw [hready.idle]
      refine ⟨fun x hx => ?_, ?_⟩
      · obtain ⟨m, hm, hmx⟩ := List.mem_map.mp hx
        exact hmx ▸ hready.signals m hm
      · rw [List.length_map]
        exact hready.count
  have hstep : ∀ s e t, D.Good s → D.StepsInTime s e t → D.Good t := fun s e t h hs => (h.step hs).1
  exact ⟨(hrun.invariant hstep hgood).inStep,
    hrun.conserve (I := D.Good) (fun s e t hs => hs.2) hstep (fun s e t h hs => (h.step hs).2) hgood,
    returnedIn_sublist⟩

/-! ## Two runs of the keyboard

One that stays in step, and one in which the queue is full and the buffer is not. -/

instance (D : InputDevice) (s : InputState) (line : Line) : Decidable (D.Timely s line) := by
  cases line <;>
  · unfold Timely
    infer_instance

instance (D : InputDevice) (s : InputState) (e : InputEvent) : Decidable (D.InTime s e) := by
  cases e <;>
  · unfold InTime
    infer_instance

instance (D : InputDevice) (s : InputState) : Decidable (D.Ready s) :=
  decidable_of_iff (s.line = .idle ∧ ¬ s.kernel.Waits D.proc ∧
    Kernel.isPhy (s.kernel.entryAt D.proc D.intMsgAddr) = false ∧
    (∀ m ∈ s.kernel.mail D.proc, m.1 = 0xFFFFFFFF) ∧
    s.buffer.count = (s.kernel.mail D.proc).length ∧ s.buffer.count ≤ D.size ∧
    s.buffer.pTail < D.size ∧ s.buffer.pHead = (s.buffer.pTail + s.buffer.count) % D.size)
    ⟨fun ⟨h₁, h₂, h₃, h₄, h₅, h₆, h₇, h₈⟩ => ⟨h₁, h₂, h₃, h₄, h₅, h₆, h₇, h₈⟩,
      fun ⟨h₁, h₂, h₃, h₄, h₅, h₆, h₇, h₈⟩ => ⟨h₁, h₂, h₃, h₄, h₅, h₆, h₇, h₈⟩⟩

/-- The driver before its first line, with the buffer as it is initialised. -/
def started (k : Kernel) : InputState where
  kernel := k
  buffer := { pHead := 0, pTail := 0, count := 0, buf := fun _ => 0 }
  line := .idle

open Kernel in
/-- A byte comes while the process is about to take the one before. -/
theorem run_inStep_second : ∃ (k k₁ k' : Kernel) (t : InputState), k.Boot 0 ∧
    k.initProc 0 0 = .ok k₁ ∧
    Run EntersCarefully k₁ [.createProcess 0 0 0xFF, call 6 0 0 0, call 5 0 0 1] k' ∧
    Run (keyboard k'.currentProc).StepsInTime (started k') [.irq noRegs 7, .read,
      .entry (call 1 0 0x1000 0), .irq noRegs 9, .read, .read, .read, .read] t ∧
    t.line = .idle ∧ (keyboard k'.currentProc).InStep t := by
  obtain ⟨k, k₁, k', hB, -, hinit, hrun, hmortal, hready, hany⟩ := run_of_booted_any
    (a := 0xC0400000) (n := 0x400000)
    (l := [.createProcess 0 0 0xFF, call 6 0 0 0, call 5 0 0 1])
    (P := fun k => k.Mortal k.currentProc ∧ (keyboard k.currentProc).Ready (started k) ∧
      (Run.follow (fun s e => if (keyboard k.currentProc).InTime s e then
        (keyboard k.currentProc).step s e else none) (started k) [.irq noRegs 7, .read,
          .entry (call 1 0 0x1000 0), .irq noRegs 9, .read, .read, .read, .read]).any
            (fun s => decide (s.line = .idle)) = true)
    (by decide +kernel)
  obtain ⟨t, ht, hidle⟩ := (Option.any_eq_true _ _).mp hany
  have hreach := run_of_plain (by simp [Plain, call, noRegs]) hrun
  -- each step is checked to be in time
  have htimely : Run (keyboard k'.currentProc).StepsInTime (started k') _ t :=
    Run.of_follow (fun s e u hu => by
      split at hu
      · next htime => exact ⟨htime, hu⟩
      · cases hu) ht
  exact ⟨k, k₁, k', t, hB, hinit, hreach, htimely, of_decide_eq_true hidle,
    (run_inStep hB hinit hreach hmortal hready htimely).1⟩

open Kernel in
/-- A byte comes behind the message `keyboard_clear` waits for: it is thrown away, its message is
not, and the next `keyboard_read` takes a byte that has never been stored. -/
theorem not_run_inStep : ¬ ∀ (k k₁ : Kernel) (kernelPDE ip : Nat) (D : InputDevice)
    (s t : InputState) (es' : List Event) (es : List InputEvent), k.Boot kernelPDE →
      k.initProc kernelPDE ip = .ok k₁ → Run EntersCarefully k₁ es' s.kernel →
      s.kernel.Mortal D.proc → D.Ready s → Run (fun s e t => D.step s e = some t) s es t →
      D.InStep t := by
  intro hall
  obtain ⟨k, k₁, k', hB, -, hinit, hrun, hmortal, hready, hany⟩ := run_of_booted_any
    (a := 0xC0400000) (n := 0x400000)
    (l := [.createProcess 0 0 0xFF, call 6 0 0 0, call 5 0 0 1])
    (P := fun k => k.Mortal k.currentProc ∧ (keyboard k.currentProc).Ready (started k) ∧
      (Run.follow (keyboard k.currentProc).step (started k) [.clear, .entry (call 0 1 0 0),
        .irq noRegs 9, .entry (call 1 0 0x1000 0), .clear, .read, .entry (call 1 0 0x1000 0),
        .read]).any (fun s => decide (s.line = .loaded 0 ∧ s.buffer.count = 0)) = true)
    (by decide +kernel)
  obtain ⟨t, ht, hdec⟩ := (Option.any_eq_true _ _).mp hany
  obtain ⟨hline, hcount⟩ := of_decide_eq_true hdec
  have hreach := run_of_plain (by simp [Plain, call, noRegs]) hrun
  -- the statement about every run, at this run
  have hstep := hall k k₁ 0 0 (keyboard k'.currentProc) (started k') t _ _ hB hinit hreach hmortal
    hready (Run.of_follow (fun _ _ _ h => h) ht)
  have hpos := (hstep.taking 0 (Or.inl hline)).1
  rw [hcount] at hpos
  exact absurd hpos (by decide)

end InputDevice

end NorlitOS
