import NorlitOS.FileSystem.Recovery
import NorlitOS.HardDisk.Window

/-!
# Clients, the file system and the disk

The file-system process answers its clients, and to do so it asks the hard-disk process. Here the
three are put together: a client is a program that calls the driver, the driver one that calls the
disk. As long as the partition holds the blocks of the file system, the disk process takes the place
of the partition, and what is not in the partition stays as it is.
-/

namespace NorlitOS

/-- The hard-disk process at the other end: the driver of process `pid` sends a request and waits for
the answer. -/
def HDProcess.answer (pid : Nat) (msg : FileMessage) (d : HDProcess) :
    Except Stop (FileMessage × HDProcess) :=
  match (d.serve pid msg).2 with
  | .error e => .error e
  | .ok (d, [(_, msg)]) => .ok (msg, d)
  | .ok _ => .error .hang

namespace FSProcess

open NorlitFS

variable {p : FSProcess} {d d' d₀ : HDProcess} {part : Partition} {disk : Bytes} {msg : FileMessage}
  {pid : Nat}

/-! ## The disk in place of the partition -/

/-- The handle of the driver is that of a partition the commands can address. -/
structure Opened (p : FSProcess) (d : HDProcess) (part : Partition) : Prop where
  pos : 1 ≤ p.handle
  lt : p.handle < 2 ^ 32
  entry : d.hd.part (p.handle - 1) = some part
  addressed : part.start + part.size ≤ 2 ^ 28

/-- The partition of the disk is `disk`; the rest of it, and the table, are as in `d₀`. -/
structure Carries (d₀ : HDProcess) (part : Partition) (d : HDProcess) (disk : Bytes) : Prop where
  table : d.hd = d₀.hd
  inside : ∀ i < SECTOR_SIZE * part.size, disk i = d.disk (SECTOR_SIZE * part.start + i)
  outside : ∀ i, i < SECTOR_SIZE * part.start ∨ SECTOR_SIZE * (part.start + part.size) ≤ i →
    d.disk i = d₀.disk i

variable (hO : p.Opened d₀ part) (hC : Carries d₀ part d disk) (hB : p.Bounded part.size msg)

include hO hC hB

theorem reaches : d.Reaches msg.handle part msg.offset msg.count where
  pos := hB.handle ▸ hO.pos
  lt := hB.handle ▸ hO.lt
  part := by
    rw [hB.handle, hC.table]
    exact hO.entry
  addressed := hO.addressed
  inside := hB.inside
  few := hB.few

variable (pid) in
/-- A read: the answer has the sectors of the partition. -/
theorem answer_read (hcmd : msg.command = HD_READ) :
    ∃ a, HDProcess.answer pid msg d = .ok (a, d) ∧ partition msg disk = .ok (a, disk) := by
  have hR := reaches hO hC hB
  have hwin : HDProcess.Window d part ⟨disk, msg.data, 0⟩ := hC.inside
  obtain ⟨sig, cmd, handle, offset, count, data⟩ := msg
  obtain rfl : sig = COMMAND_HD := hB.signature
  obtain rfl : cmd = HD_READ := hcmd
  have hserve := hR.fileRead pid hwin hB.pos
  refine ⟨_, ?_, rfl⟩
  unfold HDProcess.answer
  rw [hserve]
  rfl

variable (pid) in
/-- A write: the partition has what was sent. -/
theorem answer_write (hcmd : msg.command = HD_WRITE) : ∃ d' disk',
    HDProcess.answer pid msg d = .ok (msg, d') ∧ partition msg disk = .ok (msg, disk') ∧
      Carries d₀ part d' disk' := by
  have hR := reaches hO hC hB
  have hwin : HDProcess.Window d part ⟨disk, msg.data, 0⟩ := hC.inside
  have hpart : partition msg disk =
      .ok (msg, msg.data.copy 0 disk (SECTOR_SIZE * msg.offset) (SECTOR_SIZE * msg.count)) := by
    unfold partition
    rw [if_neg (by rw [hcmd]; decide)]
  obtain ⟨sig, cmd, handle, offset, count, data⟩ := msg
  obtain rfl : sig = COMMAND_HD := hB.signature
  obtain rfl : cmd = HD_WRITE := hcmd
  have hserve := hR.serve_write pid data hB.pos
  refine ⟨⟨d.hd, data.copy 0 d.disk (SECTOR_SIZE * (part.start + offset)) (SECTOR_SIZE * count)⟩, _,
    ?_, hpart, hC.table, hwin.fileWrite, fun i hi => ?_⟩
  · unfold HDProcess.answer
    rw [hserve]
  -- the write stays inside the partition
  · have hinside := hB.inside
    dsimp only at hinside ⊢
    rw [Bytes.copy_of_notMem (by unfold SECTOR_SIZE at hi ⊢; omega)]
    exact hC.outside i hi

variable (pid) in
/-- **The disk takes the place of the partition** for every request inside it. -/
theorem answer_partition : ∃ a d' disk', HDProcess.answer pid msg d = .ok (a, d') ∧
    Calls.Answers partition disk msg a disk' ∧ Carries d₀ part d' disk' := by
  cases hB.command with
  | inl hcmd =>
    obtain ⟨a, hok, hpart⟩ := answer_read pid hO hC hB hcmd
    exact ⟨a, d, disk, hok, hpart, hC⟩
  | inr hcmd =>
    obtain ⟨d', disk', hok, hpart, hC'⟩ := answer_write pid hO hC hB hcmd
    exact ⟨msg, d', disk', hok, hpart, hC'⟩

omit hO hC hB

/-! ## Clients -/

/-- The driver at the other end of a client: one round, and what is sent. -/
def reply (p : FSProcess) (req : Nat × FileMessage) (page : Bytes) :
    DiskCalls (FileMessage × Bytes) := do
  match ← p.serve req.1 req.2 page with
  | ([(_, msg)], page) => return (msg, page)
  | _ => .fail .hang

/-- The page of the driver and the disk stand for the volume, and the next start finds it. -/
def Backs (p : FSProcess) (d₀ : HDProcess) (part : Partition) (s : Bytes × HDProcess)
    (V : Volume Nat Nat Content) : Prop :=
  ∃ fs, fs.page = s.1 ∧ p.root = fs.root ∧ Mounted fs ∧ Represents part.size fs V ∧
    Carries d₀ part s.2 fs.disk

variable {V V' : Volume Nat Nat Content} {req : Nat × FileMessage} {s : Bytes × HDProcess}

variable (pid) in
/-- One request. -/
theorem Backs.answered (hO : p.Opened d₀ part) (hS : p.Backs d₀ part s V) (hP : Permits V req) :
    ∃ sent s' V', Calls.stack p.reply (HDProcess.answer pid) req s = .ok (sent, s') ∧
      VolumeStep V req sent V' ∧ p.Backs d₀ part s' V' := by
  obtain ⟨page, d⟩ := s
  obtain ⟨fs, rfl, hroot, hM, hR, hC⟩ := hS
  obtain ⟨proc, sent, fs', V', hstep, hR', hsame, hgives⟩ := gives_serve hroot hR hP
  obtain ⟨d', hrun, hC'⟩ := hgives.refines
    (fun d disk msg hC hB => answer_partition pid hO hC hB.2) hC
  refine ⟨sent, (fs'.page, d'), V', ?_, hstep, fs', rfl, hroot.trans hsame.root.symm,
    hM.of_header hsame.root hsame.disk, hR', hC'⟩
  unfold Calls.stack reply
  rw [Calls.run_bind_of_ok hrun]
  rfl

variable (pid) in
/-- **Clients over the disk.** A client that asks a volume only what it permits runs with the driver
and the disk process to its end, gets there what the volume could have answered, and what is not in
the partition stays as it is. -/
theorem client_runs_disk {α : Type} {c : Calls (Nat × FileMessage) FileMessage Stop α}
    (hO : p.Opened d₀ part) (hsafe : c.Safe VolumeStep Permits V) (hS : p.Backs d₀ part s V) :
    ∃ a s' V', (c.through p.reply s.1).run (HDProcess.answer pid) s.2 = .ok ((a, s'.1), s'.2) ∧
      c.Ends VolumeStep V a V' ∧ p.Backs d₀ part s' V' := by
  obtain ⟨a, s', V', hrun, hends, hS'⟩ :=
    Calls.run_refines (fun _ _ _ hS hP => hS.answered pid hO hP) hsafe hS
  refine ⟨a, s', V', ?_, hends, hS'⟩
  rw [Calls.run_through, show (s.1, s.2) = s from rfl, hrun]
  rfl

end FSProcess

end NorlitOS
