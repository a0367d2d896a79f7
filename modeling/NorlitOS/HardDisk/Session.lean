import NorlitOS.FileSystem.Mkfs
import NorlitOS.HardDisk.PartName
import NorlitOS.HardDisk.Partitions
import NorlitOS.HardDisk.Stack

/-!
# Sessions

From its start the driver of the file system opens the disk, looks in the table for the first
partition of NorlitOS, opens it by its number, and reads the super block. After that it serves. A
session is all this with a client; it begins with a disk that stands for a volume and ends with one,
so that the next session finds what this one has left.
-/

namespace NorlitOS

/-- `"$MBR"`. -/
def mbrName : List UInt8 := [36, 77, 66, 82]

/-- Where `hd->partCount` is. -/
def partCountAt : Nat := 8

/-- Where `hd->part[part].type` is. -/
def typeAt (part : Nat) : Nat := 12 + 12 * part

/-- The loop of `norlitfs_bottom` over the table in the page, with `n` entries left. -/
def findPart (page : Bytes) : Nat → Nat → Option Nat
  | 0, _ => none
  | n + 1, part =>
    if page.u32 (typeAt part) &&& 0x7FFFFFFF = MAGIC_NORLIT.toNat then some part
    else findPart page n (part + 1)

namespace FSProcess

open NorlitFS

/-- `norlitfs_bottom` in front of its loop: the driver with its handle and its root, and the page;
`none` where it ends with `EXIT`. The page of the messages is new to the first `fileOpen`. -/
def start (text : Nat → List Char) (msg : FileMessage) : DiskCalls (Option (FSProcess × Bytes)) := do
  let msg ← Calls.ask (msg.fileOpen true mbrName)
  match findPart msg.data (msg.data.u32 partCountAt) 0 with
  | none => return none
  | some part =>
    let msg ← Calls.ask (msg.fileOpen false (partName text part))
    -- `fileOpen` returns -1 where the disk process has failed
    let handle := msg.opened.getD (2 ^ 32 - 1)
    let page ← FSProcess.fileRead ⟨handle, 0⟩ 1 1 msg.data
    if (List.range 8).map page = signature then
      return some (⟨handle, page.u32 SuperBlock.root⟩, page)
    else return none

/-- The driver from its start on, with a client. -/
def session {α : Type} (text : Nat → List Char) (msg : FileMessage)
    (c : Calls (Nat × FileMessage) FileMessage Stop α) : DiskCalls (Option α) := do
  match ← start text msg with
  | none => return none
  | some (p, page) =>
    let r ← c.through p.reply page
    return some r.1

end FSProcess

/-- Entry `k` of the table is the first partition of NorlitOS. -/
structure HardDisk.First (hd : HardDisk) (k : Nat) (part : Partition) : Prop where
  count : hd.partCount ≤ MAX_PARTITIONS
  lt : k < hd.partCount
  entry : hd.part k = some part
  norlit : part.norlit = true
  before : ∀ j < k, ∀ q, hd.part j = some q → q.norlit = false

variable {hd : HardDisk} {d d' : HDProcess} {part : Partition} {msg : FileMessage} {page : Bytes}
  {text : Nat → List Char} {i j k n pid : Nat}

/-! ## The table in the page

The driver finds the table in the data of a message. Each word is at the place where
`readPartition` leaves it in its structure. -/

/-- The name of the whole disk has the hash that opens it. -/
theorem stringHash_mbr : stringHash mbrName = 1148601 := by decide

variable (pid msg) in
/-- The reply to `fileOpen(PID_HD, "$MBR")` has the table. -/
theorem answer_mbr : ∃ a, HDProcess.answer pid (msg.fileOpen true mbrName) d = .ok (a, d) ∧
    a.signature = COMMAND_HD ∧
    ∀ j, 4 * j + 4 ≤ HDProcess.sizeofHardDisk → a.data.u32 (4 * j) = HDProcess.word d.hd j % 2 ^ 32 := by
  have hdisk : HDProcess.opensDisk (msg.fileOpen true mbrName) := Or.inr stringHash_mbr
  refine ⟨d.openReply (msg.fileOpen true mbrName), ?_, ?_, fun j hj => ?_⟩
  · have hsignature : (msg.fileOpen true mbrName).signature = COMMAND_HD := rfl
    have hcommand : (msg.fileOpen true mbrName).command = HD_OPEN := rfl
    have hprint : HDProcess.Printable pid (msg.fileOpen true mbrName) :=
      printable_fileOpen (by decide) (by decide)
    unfold HDProcess.answer
    rw [HDProcess.serve_printable hsignature hcommand hprint]
  · unfold HDProcess.openReply
    rw [if_pos hdisk]
    rfl
  · unfold HDProcess.openReply
    rw [if_pos hdisk]
    dsimp only
    rw [Bytes.u32_copy_of_mem (Nat.zero_le _) (by omega), Nat.zero_add, Nat.sub_zero]
    -- the word arrives byte by byte
    have hbyte : ∀ m < 4, (HDProcess.image d.hd (4 * j + m)).toNat =
        HDProcess.word d.hd j / 2 ^ (8 * m) % 256 := by
      intro m hm
      unfold HDProcess.image
      rw [UInt8.toNat_ofNat', show (4 * j + m) / 4 = j by omega, show (4 * j + m) % 4 = m by omega]
    have h₀ := hbyte 0 (by decide)
    rw [Nat.add_zero] at h₀
    unfold Bytes.u32
    rw [h₀, hbyte 1 (by decide), hbyte 2 (by decide), hbyte 3 (by decide)]
    omega

/-- The type of an entry, as the driver reads it. -/
theorem word_type (hentry : hd.part k = some part) : HDProcess.word hd (3 + 3 * k) = part.type := by
  rw [show 3 + 3 * k = 3 * k + 3 by omega, HDProcess.word, show 3 * k / 3 = k by omega,
    show 3 * k % 3 = 0 by omega, hentry]
  rfl

section InPage

variable (hpage : ∀ j, 4 * j + 4 ≤ HDProcess.sizeofHardDisk →
  page.u32 (4 * j) = HDProcess.word hd j % 2 ^ 32)

include hpage

/-- The page shows the type of an entry to the loop. -/
theorem norlit_in_page (hj : j < MAX_PARTITIONS) (hentry : hd.part j = some part) :
    page.u32 (typeAt j) &&& 0x7FFFFFFF = MAGIC_NORLIT.toNat ↔ part.norlit = true := by
  unfold MAX_PARTITIONS at hj
  have hword := hpage (3 + 3 * j) (by unfold HDProcess.sizeofHardDisk MAX_PARTITIONS; omega)
  rw [word_type hentry] at hword
  unfold Partition.norlit typeAt
  rw [show 12 + 12 * j = 4 * (3 + 3 * j) by omega, hword, beq_iff_eq,
    show 0x7FFFFFFF = 2 ^ 31 - 1 from rfl, Nat.and_two_pow_sub_one_eq_mod,
    Nat.and_two_pow_sub_one_eq_mod]
  -- the type in the page is the type in the table modulo 2^32, which the lower 31 bits do not see
  omega

/-- The loop over the page stops at the first partition of NorlitOS. -/
theorem findPart_eq (hF : hd.First k part) (hik : i ≤ k) (hkn : k < i + n) :
    findPart page n i = some k := by
  have hcount := hF.count
  have hlast := hF.lt
  induction n generalizing i with
  | zero => omega
  | succ n ih =>
    rw [findPart]
    rcases Nat.eq_or_lt_of_le hik with rfl | hlt
    · rw [if_pos ((norlit_in_page hpage (by omega) hF.entry).mpr hF.norlit)]
    · obtain ⟨q, hq⟩ := Option.isSome_iff_exists.mp (hd.table i (by omega))
      rw [if_neg fun h => Bool.false_ne_true
        ((hF.before i hlt q hq).symm.trans ((norlit_in_page hpage (by omega) hq).mp h))]
      exact ih hlt (by omega)

/-- The search through the table is the search through the page that shows it. -/
theorem searchPart_eq_findPart (hcount : hd.partCount ≤ MAX_PARTITIONS) (hn : i + n ≤ hd.partCount) :
    searchPart hd n i = (findPart page n i).bind fun k => (hd.part k).map Partition.start := by
  induction n generalizing i with
  | zero => rfl
  | succ n ih =>
    obtain ⟨q, hq⟩ := Option.isSome_iff_exists.mp (hd.table i (by omega))
    have hshown := norlit_in_page hpage (show i < MAX_PARTITIONS by omega) hq
    rw [findPart]
    by_cases hnorlit : q.norlit = true
    · rw [searchPart_of_norlit hq hnorlit, if_pos (hshown.mpr hnorlit), Option.bind_some, hq]
      rfl
    · rw [searchPart_of_other hq hnorlit, if_neg (mt hshown.mp hnorlit)]
      exact ih (by omega)

end InPage

/-- The partition that the start opens is the one where the search of the table ends. -/
theorem HardDisk.First.kernelStart (hF : hd.First k part) : kernelStart hd = some part.start := by
  obtain ⟨a, -, -, htable⟩ :=
    answer_mbr (d := ⟨hd, fun _ => 0⟩) ⟨0, 0, 0, 0, 0, fun _ => 0⟩ 0
  have hlast : k < 0 + hd.partCount := hF.lt.trans_le (Nat.zero_add _).ge
  unfold NorlitOS.kernelStart
  rw [searchPart_eq_findPart htable hF.count (Nat.zero_add _).le,
    findPart_eq htable hF (Nat.zero_le k) hlast, Option.bind_some, hF.entry]
  rfl

/-! ## The start

Opening the disk, the search, opening the partition, reading the super block. All four go to the
disk process in order. -/

/-- The bytes of a partition. -/
def Partition.bytes (part : Partition) (disk : Bytes) : Bytes := fun i =>
  disk (SECTOR_SIZE * part.start + i)

/-- The file system in it, with the root in its super block. -/
def Partition.fileSystem (part : Partition) (disk : Bytes) : NorlitFS :=
  ⟨part.bytes disk, fun _ => 0, (part.bytes disk).u32 NorlitFS.rootAt⟩

namespace FSProcess

open NorlitFS

variable {V V' V₁ : Volume Nat Nat Content} {req : Nat × FileMessage}

/-- The first partition of NorlitOS on the disk stands for the volume. -/
structure Installed (d : HDProcess) (k : Nat) (part : Partition)
    (V : Volume Nat Nat Content) : Prop where
  first : d.hd.First k part
  addressed : part.start + part.size ≤ 2 ^ 28
  signature : HasSignature (part.bytes d.disk)
  represents : Represents part.size (part.fileSystem d.disk) V

/-- The handle of the first partition of NorlitOS stands for that partition. -/
theorem opened_first (hF : d.hd.First k part) (hadd : part.start + part.size ≤ 2 ^ 28) (root : Nat) :
    Opened ⟨k + 1, root⟩ d part where
  pos := Nat.le_add_left 1 k
  lt := by
    have hlt := hF.lt.trans_le hF.count
    unfold MAX_PARTITIONS at hlt
    change k + 1 < 2 ^ 32
    omega
  entry := hF.entry
  addressed := hadd

variable (text msg pid) in
/-- **The start.** The driver has the handle of the first partition of NorlitOS, and the root that is
in its super block; the disk is as before. -/
theorem run_start (hF : d.hd.First k part) (hadd : part.start + part.size ≤ 2 ^ 28)
    (hsize : 2 ≤ part.size) (hsig : HasSignature (part.bytes d.disk)) :
    ∃ page, (start text msg).run (HDProcess.answer pid) d =
      .ok (some (⟨k + 1, (part.bytes d.disk).u32 rootAt⟩, page), d) := by
  obtain ⟨a, hmbr, hasig, htable⟩ := answer_mbr (d := d) msg pid
  have hcount := hF.count
  have hlt := hF.lt
  have hcountword : a.data.u32 partCountAt = d.hd.partCount := by
    refine (htable 2 (by decide)).trans (Nat.mod_eq_of_lt ?_)
    unfold MAX_PARTITIONS at hcount
    change d.hd.partCount < 2 ^ 32
    omega
  have hfind : findPart a.data (a.data.u32 partCountAt) 0 = some k := by
    rw [hcountword]
    exact findPart_eq htable hF (Nat.zero_le k) (by omega)
  -- the partition is opened by its number
  obtain ⟨b, hserve, hopened⟩ : ∃ reply, d.serve pid (a.fileOpen false (partName text k)) =
      ([], .ok (d, [(pid, reply)])) ∧ reply.opened = some (k + 1) :=
    serve_partName (show k < 99 by unfold MAX_PARTITIONS at hcount; omega) (Or.inr hasig)
  have hname : HDProcess.answer pid (a.fileOpen false (partName text k)) d = .ok (b, d) := by
    unfold HDProcess.answer
    rw [hserve]
  -- and its super block read
  have hO := opened_first hF hadd 0
  have hC : Carries d part d (part.bytes d.disk) := ⟨rfl, fun _ _ => rfl, fun _ _ => rfl⟩
  have hB : Bounded ⟨k + 1, 0⟩ part.size ⟨COMMAND_HD, HD_READ, k + 1, 1, 1, b.data⟩ :=
    ⟨rfl, Or.inl rfl, rfl, hsize, Nat.one_pos, show 1 ≤ 4 by decide⟩
  obtain ⟨c, hread, hpart⟩ := answer_read pid hO hC hB rfl
  set fs : NorlitFS := ⟨part.bytes d.disk, b.data, 0⟩ with hfs
  have hpage : c.data = (fs.fileRead 1 1).page := by
    obtain ⟨rfl, -⟩ := Prod.mk.inj (Except.ok.inj hpart)
    rfl
  refine ⟨c.data, ?_⟩
  unfold start
  rw [Calls.run_bind_of_ok (Calls.run_ask.trans hmbr), hfind]
  dsimp only
  rw [Calls.run_bind_of_ok (Calls.run_ask.trans hname), hopened, Option.getD_some]
  have hrun : (FSProcess.fileRead ⟨k + 1, 0⟩ 1 1 b.data).run (HDProcess.answer pid) d = .ok (c.data, d) :=
    Calls.run_bind_of_ok (Calls.run_ask.trans hread)
  rw [Calls.run_bind_of_ok hrun, hpage, if_pos (super_signature hsig), super_root]
  rfl

/-! ## Sessions

A client runs between a start and the end of a session. The disk stands for a volume before and
after. -/

section Sessions

variable {α : Type} {c : Calls (Nat × FileMessage) FileMessage Stop α} {s : Bytes × HDProcess}

/-- The driver that the start gives. -/
def started (d : HDProcess) (k : Nat) (part : Partition) : FSProcess :=
  ⟨k + 1, (part.bytes d.disk).u32 rootAt⟩

variable (hI : Installed d k part V)

include hI

/-- The start has opened the partition. -/
theorem Installed.opened : (started d k part).Opened d part := opened_first hI.first hI.addressed _

/-- The partition holds a file, its root, and so a block at least. -/
theorem Installed.size_le : 4 ≤ part.size := by
  obtain ⟨T, C, hT, -, -, hlies⟩ := hI.represents
  exact hlies.size_le hT.root

variable (page) in
/-- What the driver has after the start stands for the volume. -/
theorem Installed.backs : (started d k part).Backs d part (page, d) V :=
  ⟨{ part.fileSystem d.disk with page }, rfl, rfl, ⟨hI.signature, rfl⟩,
    hI.represents.of_disk rfl rfl, rfl, fun _ _ => rfl, fun _ _ => rfl⟩

variable (text msg pid) in
/-- The start succeeds, and writes nothing. -/
theorem Installed.run_start : ∃ page, (start text msg).run (HDProcess.answer pid) d =
    .ok (some (started d k part, page), d) :=
  FSProcess.run_start msg text pid hI.first hI.addressed (by have := hI.size_le; omega) hI.signature

/-- A disk that backs a driver can be started from. -/
theorem Backs.installed {p : FSProcess} (hS : p.Backs d part s V') : Installed s.2 k part V' := by
  obtain ⟨fs, -, -, hM, hR, hC⟩ := hS
  have hsize := hI.size_le
  have hinside : ∀ i < SECTOR_SIZE * part.size, part.bytes s.2.disk i = fs.disk i :=
    fun i hi => (hC.inside i hi).symm
  have hroot : (part.bytes s.2.disk).u32 rootAt = fs.root := by
    rw [← hM.root]
    apply Bytes.u32_congr
    intro j hj
    exact hinside _ (by unfold rootAt SuperBlock.root SECTOR_SIZE; omega)
  refine ⟨hC.table ▸ hI.first, hI.addressed, fun i hi => ?_, ?_⟩
  · rw [hinside _ (by unfold SECTOR_SIZE; omega)]
    exact hM.signature i hi
  · unfold Partition.fileSystem
    rw [hroot]
    exact hR.of_inside hinside

variable (text msg pid) in
/-- **Sessions.** On a disk that stands for a volume the driver starts, and a client that asks only
what the volume permits runs to its end and gets there what the volume could have answered. Then the
disk stands for what the volume is after it: the next session starts from there. -/
theorem session_runs (hsafe : c.Safe VolumeStep Permits V) : ∃ a V' d',
    (session text msg c).run (HDProcess.answer pid) d = .ok (some a, d') ∧
      c.Ends VolumeStep V a V' ∧ Installed d' k part V' ∧ d'.hd = d.hd ∧
      ∀ i, i < SECTOR_SIZE * part.start ∨ SECTOR_SIZE * (part.start + part.size) ≤ i →
        d'.disk i = d.disk i := by
  obtain ⟨page, hstart⟩ := hI.run_start msg text pid
  obtain ⟨a, s', V', hrun, hends, hS'⟩ := client_runs_disk pid hI.opened hsafe (hI.backs page)
  refine ⟨a, V', s'.2, ?_, hends, hS'.installed hI, ?_⟩
  · unfold session
    rw [Calls.run_bind_of_ok hstart]
    dsimp only
    rw [Calls.run_bind_of_ok hrun]
    rfl
  · obtain ⟨fs, -, -, -, -, hC⟩ := hS'
    exact ⟨hC.table, hC.outside⟩

omit hI

/-! ## A new disk

A disk that `mkfs` has formatted is one on which a session can begin. -/

/-- A file system that mounts, put into the partition of a disk. -/
theorem installed_of_mount {fs fs' : NorlitFS} (hF : d.hd.First k part)
    (hadd : part.start + part.size ≤ 2 ^ 28) (hbytes : part.bytes d.disk = fs.disk)
    (hmount : fs.mount = some fs') (hM : Mounted fs') (hR : Represents part.size fs' V) :
    Installed d k part V := by
  have hdisk : part.bytes d.disk = fs'.disk := hbytes.trans (mount_disk hmount).symm
  refine ⟨hF, hadd, hdisk ▸ hM.signature, hR.of_disk hdisk ?_⟩
  change (part.bytes d.disk).u32 rootAt = fs'.root
  rw [hdisk]
  exact hM.root

/-- After `mkfs` the disk stands for a volume with a root only. -/
theorem installed_of_mkfs (fs : NorlitFS) (img : Images) (mbr : Bytes) (hF : d.hd.First k part)
    (hadd : part.start + part.size ≤ 2 ^ 28) (hlarge : ksize + 4 ≤ part.size / 4)
    (hcounter : leftover img = 0) (hbytes : part.bytes d.disk = (fs.mkfs img mbr part.size).2.disk) :
    ∃ V h, Installed d k part V ∧ V.Bare h ∧
      (part.size / 4 ≤ 2 ^ 20 → V.free + (ksize + 4) = part.size / 4) := by
  obtain ⟨fs', V, hmount, hM, hR, hbare, hfree⟩ :=
    mkfs_volume fs img mbr (fun _ => 0) 0 (by omega) hlarge hcounter hbytes
  exact ⟨V, fs'.root, installed_of_mount hF hadd rfl hmount hM hR, hbare, hfree⟩

/-- A disk with one partition behind its boot sector, and a new file system in it. -/
def newDisk : HDProcess where
  hd := ⟨0, 0, 1, fun _ => some ⟨0x6E, 63, 131072⟩, fun _ _ => rfl⟩
  disk i := (blank.mkfs noImages (fun _ => 0) 131072).2.disk (i - SECTOR_SIZE * 63)

/-- One such disk, with a root and nothing else. -/
theorem newDisk_installed : ∃ V h, Installed newDisk 0 ⟨0x6E, 63, 131072⟩ V ∧ V.Bare h ∧ 2 ≤ V.free := by
  have hF : newDisk.hd.First 0 ⟨0x6E, 63, 131072⟩ :=
    ⟨by decide, Nat.one_pos, rfl, by decide, fun j hj => absurd hj (Nat.not_lt_zero j)⟩
  have hbytes : Partition.bytes ⟨0x6E, 63, 131072⟩ newDisk.disk =
      (blank.mkfs noImages (fun _ => 0) 131072).2.disk := by
    funext i
    unfold Partition.bytes newDisk
    dsimp only
    rw [Nat.add_sub_cancel_left]
  obtain ⟨V, h, hI, hbare, hfree⟩ := installed_of_mkfs blank noImages (fun _ => 0) hF (by decide)
    (by decide) (by decide) hbytes
  refine ⟨V, h, hI, hbare, ?_⟩
  have hsum : V.free + (ksize + 4) = 131072 / 4 := hfree (by decide)
  have hk := ksize_eq
  omega

/-- A first session on it. -/
theorem session_runs_new : ∃ sent d', (session (fun _ => []) (request 0 0 fun _ => 0)
    (writesOnes [97])).run (HDProcess.answer 5) newDisk = .ok (some sent, d') ∧
      content sent.data = fun _ => 1 := by
  obtain ⟨V, h, hI, hbare, hfree⟩ := newDisk_installed
  obtain ⟨hsafe, hends⟩ := writesOnes_bare hbare hfree
  obtain ⟨sent, V', d', hrun, hend, -⟩ :=
    session_runs (request 0 0 fun _ => 0) (fun _ => []) 5 hI hsafe
  exact ⟨sent, d', hrun, hends sent V' hend⟩

/-! ## Sessions that are stopped

The machine may stop at any point of a session. What is on the disk then is enough for the next
start. -/

/-- What a client that is stopped has done: its requests up to some point, or the next one in part. -/
inductive Interrupted (c : Calls (Nat × FileMessage) FileMessage Stop α)
    (V : Volume Nat Nat Content) : Volume Nat Nat Content → Prop where
  | between {c' : Calls (Nat × FileMessage) FileMessage Stop α} {V' : Volume Nat Nat Content}
      (hleads : c.Leads VolumeStep V c' V') : Interrupted c V V'
  | during {req : Nat × FileMessage} {next : FileMessage → Calls (Nat × FileMessage) FileMessage Stop α}
      {ask : Volume.Request Nat Nat Content} {V' V₁ : Volume Nat Nat Content}
      (hleads : c.Leads VolumeStep V (.call req next) V') (hmeans : Means req.2 ask)
      (hpartly : Partly V' ask V₁) : Interrupted c V V₁

variable (pid) in
/-- One request, stopped after any number of requests to the disk. -/
theorem reply_stopped {p : FSProcess} {d₀ : HDProcess} {fs : NorlitFS} (hO : p.Opened d₀ part)
    (hroot : p.root = fs.root) (hR : Represents part.size fs V) (hC : Carries d₀ part d fs.disk)
    (hP : Permits V req) (n : Nat) : ∃ ask V₁ disk, Means req.2 ask ∧ Partly V ask V₁ ∧
      Standing part.size V₁ fs disk ∧
      Carries d₀ part (Calls.after (HDProcess.answer pid) n (p.reply req fs.page) d) disk := by
  obtain ⟨proc, sent, fs', V', hstep, hR', hsame, hgives⟩ := gives_serve hroot hR hP
  have hsim : ∀ d disk msg, Carries d₀ part d disk →
      Meanwhile part.size V req.2 fs disk ∧ p.Bounded part.size msg → ∃ a d' disk',
        HDProcess.answer pid msg d = .ok (a, d') ∧ Calls.Answers partition disk msg a disk' ∧
          Carries d₀ part d' disk' :=
    fun d disk msg hC hB => answer_partition pid hO hC hB.2
  obtain ⟨d', hrun, hC'⟩ := hgives.refines hsim hC
  unfold reply
  rcases Calls.after_bind (n := n) hrun with heq | ⟨m, heq⟩
  · obtain ⟨ask, V₁, hmeans, hpartly, hstands⟩ := meanwhile_after (n := n) hroot hR hP
    rw [heq]
    exact ⟨ask, V₁, _, hmeans, hpartly, hstands, Calls.after_refines hsim hgives.safe hC⟩
  · -- the answer is there, and what is left does not ask
    obtain ⟨ask, hmeans, hpartly⟩ := Partly.of_step hstep
    rw [heq]
    refine ⟨ask, V', fs'.disk, hmeans, hpartly, standing_of_represents hR' hsame, ?_⟩
    cases m <;> exact hC'

include hI

variable (text msg pid) in
/-- The driver that starts from the disk finds what stands there. -/
theorem Installed.restarts {fs : NorlitFS} {disk : Bytes} (hM : Mounted fs)
    (hroot : (started d k part).root = fs.root) (hstands : Standing part.size V₁ fs disk)
    (hC : Carries d part d' disk) :
    ∃ page, (start text msg).run (HDProcess.answer pid) d' =
      .ok (some (started d k part, page), d') ∧
        Recovers { part.fileSystem d'.disk with page } V₁ := by
  have hsize := hI.size_le
  have hinside : ∀ i < SECTOR_SIZE * part.size, part.bytes d'.disk i = disk i :=
    fun i hi => (hC.inside i hi).symm
  have hstands' := hstands.of_inside hsize hinside
  have hmounted : Mounted ⟨part.bytes d'.disk, fun _ => 0, fs.root⟩ := hM.of_header rfl hstands'.header
  have hword : (part.bytes d'.disk).u32 rootAt = fs.root := hmounted.root
  obtain ⟨page, hstart⟩ := FSProcess.run_start msg text pid (hC.table ▸ hI.first)
    hI.addressed (by omega) hmounted.signature
  rw [hword, ← hroot] at hstart
  have hrecovers : Recovers { part.fileSystem d'.disk with page } V₁ :=
    Standing.recovers hstands' hword
  exact ⟨page, hstart, hrecovers⟩

variable (text msg pid page) in
/-- **Sessions that are stopped.** After any number of requests to the disk the machine stops in a
session. The driver that starts from the disk then is the same, and finds every file of the volume at
its path, with what it held: the requests up to some point have been done, and at most one more in
part. -/
theorem crash_recovers (hsafe : c.Safe VolumeStep Permits V) (n : Nat) : ∃ d' V₁ page',
    Calls.after (HDProcess.answer pid) n (c.through (started d k part).reply page) d = d' ∧
      Interrupted c V V₁ ∧
      (start text msg).run (HDProcess.answer pid) d' = .ok (some (started d k part, page'), d') ∧
      Recovers { part.fileSystem d'.disk with page := page' } V₁ ∧ d'.hd = d.hd ∧
      ∀ i, i < SECTOR_SIZE * part.start ∨ SECTOR_SIZE * (part.start + part.size) ≤ i →
        d'.disk i = d.disk i := by
  obtain ⟨c', V', r, d₁, hleads, hsafe', ⟨fs, rfl, hroot, hM, hR, hC⟩, hafter⟩ :=
    Calls.after_through (n := n) (fun _ _ _ hS hP => hS.answered pid hI.opened hP) hsafe
      (hI.backs page)
  rcases hafter with heq | ⟨req, next, m, rfl, heq⟩
  · obtain ⟨page', hstart, hrec⟩ := hI.restarts msg text pid hM hroot
      (standing_of_represents hR .refl) hC
    exact ⟨d₁, V', page', heq, .between hleads, hstart, hrec, hC.table, hC.outside⟩
  · obtain ⟨ask, V₁, disk, hmeans, hpartly, hstands, hC'⟩ :=
      reply_stopped pid hI.opened hroot hR hC hsafe'.1 m
    obtain ⟨page', hstart, hrec⟩ := hI.restarts msg text pid hM hroot hstands hC'
    exact ⟨_, V₁, page', heq, .during hleads hmeans hpartly, hstart, hrec, hC'.table, hC'.outside⟩

omit hI in
/-- The new disk, in the middle of the first session: the volume that is found is the empty one, with
what the client has done of its file. -/
theorem crash_recovers_new : ∃ (V : Volume Nat Nat Content) (h : Nat) (d' : HDProcess)
    (V₁ : Volume Nat Nat Content) (page : Bytes), V.Bare h ∧
      Calls.after (HDProcess.answer 5) 20
        ((writesOnes [97]).through (started newDisk 0 ⟨0x6E, 63, 131072⟩).reply fun _ => 0)
        newDisk = d' ∧
      Interrupted (writesOnes [97]) V V₁ ∧
      (start (fun _ => []) (request 0 0 fun _ => 0)).run (HDProcess.answer 5) d' =
        .ok (some (started newDisk 0 ⟨0x6E, 63, 131072⟩, page), d') ∧
      Recovers { Partition.fileSystem ⟨0x6E, 63, 131072⟩ d'.disk with page } V₁ ∧
      d'.hd = newDisk.hd ∧ ∀ i < SECTOR_SIZE * 63, d'.disk i = newDisk.disk i := by
  obtain ⟨V, h, hI, hbare, hfree⟩ := newDisk_installed
  obtain ⟨d', V₁, page', hafter, hint, hstart, hrec, htable, houtside⟩ :=
    crash_recovers (request 0 0 fun _ => 0) (fun _ => 0) (fun _ => []) 5 hI
      (writesOnes_bare hbare hfree).1 20
  exact ⟨V, h, d', V₁, page', hbare, hafter, hint, hstart, hrec, htable,
    fun i hi => houtside i (Or.inl hi)⟩

end Sessions

end FSProcess

end NorlitOS
