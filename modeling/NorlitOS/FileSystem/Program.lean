import NorlitOS.FileSystem.Create
import NorlitOS.FileSystem.Server
import NorlitOS.Lib.Calls

/-!
# The file-system process as a client of the disk

The functions of the driver once more, now as programs that call the hard-disk process: every
`fileRead` and `fileWrite` sends the page at `FILE_MSG_PAGE` and goes on with what comes back in it.
Which process answers is left open. With the partition itself at the other end they are the driver of
`NorlitFS` (`run_serve`).
-/

namespace NorlitOS

/-- The static variables of the driver. -/
structure FSProcess where
  handle : Nat
  root : Nat

/-- A program that sends file messages. -/
abbrev DiskCalls (α : Type) : Type := Calls FileMessage FileMessage Stop α

namespace FSProcess

/-! ## The functions of the driver

Each function is the one of `NorlitFS` with the disk taken away: where that one reads or writes
the disk, this one asks. The page is passed on by hand, as the file message is the only memory the
two have in common. -/

/-- What works on the page alone. -/
def edit (f : NorlitFS → NorlitFS) (page : Bytes) : Bytes := (f ⟨fun _ => 0, page, 0⟩).page

variable (p : FSProcess)

/-- `fileRead(PID_HD, handle, offset, count)`. -/
def fileRead (offset count : Nat) (page : Bytes) : DiskCalls Bytes := do
  let msg ← Calls.ask ⟨COMMAND_HD, HD_READ, p.handle, offset, count, page⟩
  return msg.data

/-- `fileWrite(PID_HD, handle, offset, count)`. -/
def fileWrite (offset count : Nat) (page : Bytes) : DiskCalls Bytes := do
  let msg ← Calls.ask ⟨COMMAND_HD, HD_WRITE, p.handle, offset, count, page⟩
  return msg.data

/-- `freeBlock`. -/
def freeBlock (base len : Nat) (page : Bytes) : DiskCalls Bytes := do
  let page ← p.fileRead 1 1 page
  let cid := page.u32 (SuperBlock.freeBlock len)
  let page := page.setU32 SuperBlock.freeSize (add32 (page.u32 SuperBlock.freeSize) (2 ^ len))
  let page := page.setU32 (SuperBlock.freeBlock len) base
  -- the super block first: from here on the list has the extent
  let page ← p.fileWrite 1 1 page
  let page := page.setU32 0 cid
  p.fileWrite (sector base) 1 page

/-- What both branches of `mallocBlock` do with the head of a list. -/
def unlink (len ret : Nat) (page : Bytes) : DiskCalls Bytes := do
  let page ← p.fileRead (sector ret) 1 page
  -- the first word of a free extent is its successor
  let nxt := page.u32 0
  let page ← p.fileRead 1 1 page
  let page := page.setU32 (SuperBlock.freeBlock len) nxt
  let page := page.setU32 SuperBlock.freeSize (sub32 (page.u32 SuperBlock.freeSize) (2 ^ len))
  p.fileWrite 1 1 page

/-- The loop of `mallocBlock` over the halves. -/
def freeHalves (rt len : Nat) : Nat → Bytes → DiskCalls Bytes
  | 0, page => return page
  | l2 + 1, page =>
    if len ≤ l2 then do
      let page ← p.freeBlock (add32 rt (2 ^ l2)) l2 page
      freeHalves rt len l2 page
    else return page

/-- `mallocBlock`. -/
def mallocBlock (len : Nat) (page : Bytes) : DiskCalls (Nat × Bytes) := do
  let page ← p.fileRead 1 1 page
  let ret := page.u32 (SuperBlock.freeBlock len)
  if ret = 0 then
    -- the first longer list that has an extent
    match (List.range' (len + 1) (19 - len)).find? fun l2 =>
        page.u32 (SuperBlock.freeBlock l2) ≠ 0 with
    | some l2 =>
      let rt := page.u32 (SuperBlock.freeBlock l2)
      let page ← p.unlink l2 rt page
      let page ← p.freeHalves rt len l2 page
      return (rt, page)
    | none => return (0, page)
  else
    let page ← p.unlink len ret page
    return (ret, page)

/-- What `createFileBlock` does once it has the two blocks. -/
def writeFile (name : List UInt8) (blk dataBlock : Nat) (page : Bytes) : DiskCalls Bytes := do
  let page ← p.fileWrite (sector dataBlock) 4 (edit (fun fs => fs.memset 0 2048) page)
  -- the file comes after the data it names
  p.fileWrite (sector blk) 4 (edit (fun fs => fs.fillFile name dataBlock) page)

/-- `createFileBlock`. -/
def createFileBlock (name : List UInt8) (page : Bytes) : DiskCalls (Nat × Bytes) := do
  let (blk, page) ← p.mallocBlock 0 page
  if blk = 0 then return (0, page)
  else
    let (dataBlock, page) ← p.mallocBlock 0 page
    let page ← p.writeFile name blk dataBlock page
    return (blk, page)

/-- `seekDataBlock`. -/
def seekDataBlock (file offset : Nat) (page : Bytes) : DiskCalls (Nat × Bytes) := do
  let page ← p.fileRead (sector file) 4 page
  return (NorlitFS.seek page DATA_BLOCK_PTRS 0 offset, page)

/-- The branch for a name that the directory does not have. -/
def addEntry (dirAddr i : Nat) (str : List UInt8) (page : Bytes) : DiskCalls (Nat × Bytes) := do
  let (fb, page) ← p.createFileBlock str page
  -- the new file has used the page, so the directory is read again
  let page ← p.fileRead (sector dirAddr) 4 page
  let page := page.setU32 (DirectoryBlock.address i) fb
  let page := page.setU32 (DirectoryBlock.hash i) (stringHash str)
  let page ← p.fileWrite (sector dirAddr) 4 page
  return (fb, page)

/-- The body of the path loop at the end of a component. -/
def openName (dirAddr : Nat) (str : List UInt8) (page : Bytes) : DiskCalls (Nat × Bytes) := do
  let (dirAddr, page) ← p.seekDataBlock dirAddr 0 page
  let page ← p.fileRead (sector dirAddr) 4 page
  match NorlitFS.scan page (stringHash str) DIR_FILE_PTRS 0 with
  | none => .fail .wild
  | some i =>
    if page.u32 (DirectoryBlock.address i) = 0 then p.addEntry dirAddr i str page
    else return (page.u32 (DirectoryBlock.address i), page)

/-- The path loop. -/
def walk (dirAddr : Nat) (str : List UInt8) : List UInt8 → Bytes → DiskCalls (Nat × Bytes)
  | [], _ => .fail .wild
  | c :: ptr, page =>
    if c = 0 then p.openName dirAddr str page
    else if c = SLASH then do
      let (dirAddr, page) ← p.openName dirAddr str page
      walk dirAddr [] ptr page
    else walk dirAddr (str ++ [c]) ptr page

/-- The path walk of `HD_OPEN`. -/
def openPath (data page : Bytes) : DiskCalls (Nat × Bytes) :=
  if data 1 = 0 then return (p.root, page) else p.walk p.root [] (NorlitFS.pathBytes data) page

/-- One round of the loop: what is sent, and the page. -/
def serve (proc : Nat) (msg : FileMessage) (page : Bytes) :
    DiskCalls (List (Nat × FileMessage) × Bytes) :=
  if msg.signature ≠ COMMAND_HD then return ([], page)
  else if msg.command = HD_OPEN then
    -- no answer is sent
    if msg.data 0 ≠ SLASH then return ([], page)
    else do
      let (dirAddr, page) ← p.openPath msg.data page
      let page ← p.fileRead (sector dirAddr) 4 page
      return ([(proc, { msg with data := page.copy 0 msg.data 0 2048, handle := dirAddr })], page)
  else if msg.command = HD_READ then do
    let (cls, page) ← p.seekDataBlock msg.handle msg.offset page
    let page ← p.fileRead (sector cls) 4 page
    return ([(proc, { msg with data := page.copy 0 msg.data 0 2048 })], page)
  else if msg.command = HD_WRITE then do
    let (cls, page) ← p.seekDataBlock msg.handle msg.offset page
    let page ← p.fileWrite (sector cls) 4 (edit (fun fs => fs.memcpy 0 msg.data 2048) page)
    return ([(proc, msg)], page)
  else return ([], page)

/-- The loop over the messages that arrive. -/
def serveAll : List (Nat × FileMessage) → Bytes → DiskCalls (List (Nat × FileMessage) × Bytes)
  | [], page => return ([], page)
  | (proc, msg) :: rest, page => do
    let (sent, page) ← p.serve proc msg page
    let (sent', page) ← serveAll rest page
    return (sent ++ sent', page)

/-! ## The partition at the other end

Answering from a disk, `run` carries out a program step by step. For each function the result is
that of `NorlitFS` on this disk, with the page as the program left it. Each lemma follows the
definition and uses those of the functions called. -/

/-- The partition answers. -/
def partition (msg : FileMessage) (disk : Bytes) : Except Stop (FileMessage × Bytes) :=
  if msg.command = HD_READ then
    let data := disk.copy (SECTOR_SIZE * msg.offset) msg.data 0 (SECTOR_SIZE * msg.count)
    .ok ({ msg with data }, disk)
  else
    .ok (msg, msg.data.copy 0 disk (SECTOR_SIZE * msg.offset) (SECTOR_SIZE * msg.count))

variable {p} {fs : NorlitFS} {name str ptr : List UInt8} {data : Bytes} {msg : FileMessage}
  {offset count base len rt ret l2 i f g dirAddr proc blk dataBlock : Nat}

/-- What a function of `NorlitFS` leaves, as the end of a run. -/
def left {α : Type} (r : α × NorlitFS) : (α × Bytes) × Bytes := ((r.1, r.2.page), r.2.disk)

theorem run_fileRead {page disk : Bytes} : (p.fileRead offset count page).run partition disk =
    .ok (disk.copy (SECTOR_SIZE * offset) page 0 (SECTOR_SIZE * count), disk) := rfl

theorem run_fileWrite {page disk : Bytes} : (p.fileWrite offset count page).run partition disk =
    .ok (page, page.copy 0 disk (SECTOR_SIZE * offset) (SECTOR_SIZE * count)) := rfl

/-- Two writes, the one of the super block first. -/
theorem run_freeBlock : (p.freeBlock base len fs.page).run partition fs.disk =
    .ok ((fs.freeBlock base len).page, (fs.freeBlock base len).disk) := by
  unfold freeBlock
  rw [Calls.run_bind_of_ok run_fileRead, Calls.run_bind_of_ok run_fileWrite, run_fileWrite]
  unfold NorlitFS.freeBlock NorlitFS.store NorlitFS.fileRead NorlitFS.fileWrite
  dsimp only

/-- Both branches of `mallocBlock` end in this. -/
theorem run_unlink : (p.unlink len ret fs.page).run partition fs.disk =
    .ok ((fs.unlink len ret).page, (fs.unlink len ret).disk) := by
  unfold unlink
  rw [Calls.run_bind_of_ok run_fileRead, Calls.run_bind_of_ok run_fileRead, run_fileWrite]
  unfold NorlitFS.unlink NorlitFS.store NorlitFS.fileRead NorlitFS.fileWrite
  dsimp only

/-- The loop over the halves, by induction on the length that is left. -/
theorem run_freeHalves : (p.freeHalves rt len l2 fs.page).run partition fs.disk =
    .ok ((fs.freeHalves rt len l2).page, (fs.freeHalves rt len l2).disk) := by
  induction l2 generalizing fs with
  | zero => rfl
  | succ l2 ih =>
    rw [freeHalves, NorlitFS.freeHalves]
    split
    · rw [Calls.run_bind_of_ok run_freeBlock]
      exact ih
    · rfl

/-- A list that is not empty, a longer one, or no block at all. -/
theorem run_mallocBlock :
    (p.mallocBlock len fs.page).run partition fs.disk = .ok (left (fs.mallocBlock len)) := by
  unfold mallocBlock NorlitFS.mallocBlock
  rw [Calls.run_bind_of_ok run_fileRead]
  dsimp only
  rw [show fs.disk.copy (SECTOR_SIZE * 1) fs.page 0 (SECTOR_SIZE * 1) = (fs.fileRead 1 1).page
    from rfl]
  -- both branches take a head off, one of them from a longer list
  by_cases hhead : (fs.fileRead 1 1).page.u32 (SuperBlock.freeBlock len) = 0
  · rw [if_pos hhead, if_pos hhead]
    cases (List.range' (len + 1) (19 - len)).find? fun l2 =>
        (fs.fileRead 1 1).page.u32 (SuperBlock.freeBlock l2) ≠ 0 with
    | none => rfl
    | some l2 =>
      dsimp only
      rw [show fs.disk = (fs.fileRead 1 1).disk from rfl, Calls.run_bind_of_ok run_unlink,
        Calls.run_bind_of_ok run_freeHalves]
      rfl
  · rw [if_neg hhead, if_neg hhead, show fs.disk = (fs.fileRead 1 1).disk from rfl,
      Calls.run_bind_of_ok run_unlink]
    rfl

/-- The data block first, then the file. -/
theorem run_writeFile : (p.writeFile name blk dataBlock fs.page).run partition fs.disk =
    .ok ((fs.writeFile name blk dataBlock).page, (fs.writeFile name blk dataBlock).disk) := by
  unfold writeFile
  rw [Calls.run_bind_of_ok run_fileWrite, run_fileWrite]
  rfl

/-- Two blocks and their contents. -/
theorem run_createFileBlock :
    (p.createFileBlock name fs.page).run partition fs.disk = .ok (left (fs.createFileBlock name)) := by
  unfold createFileBlock NorlitFS.createFileBlock
  rw [Calls.run_bind_of_ok run_mallocBlock]
  dsimp only [left]
  -- only the first allocation is tested
  by_cases hblk : (fs.mallocBlock 0).1 = 0
  · rw [if_pos hblk, if_pos hblk]
    rfl
  · rw [if_neg hblk, if_neg hblk, Calls.run_bind_of_ok run_mallocBlock]
    dsimp only [left]
    rw [Calls.run_bind_of_ok run_writeFile]
    rfl

/-- One read, and the table of the file in the page. -/
theorem run_seekDataBlock : (p.seekDataBlock f offset fs.page).run partition fs.disk =
    .ok (left (fs.seekDataBlock f offset)) := by
  unfold seekDataBlock
  rw [Calls.run_bind_of_ok run_fileRead]
  rfl

/-- A new file, and its entry. -/
theorem run_addEntry : (p.addEntry dirAddr i str fs.page).run partition fs.disk =
    .ok (left (fs.addEntry dirAddr i str)) := by
  unfold addEntry NorlitFS.addEntry
  rw [Calls.run_bind_of_ok run_createFileBlock]
  dsimp only [left]
  rw [Calls.run_bind_of_ok run_fileRead, Calls.run_bind_of_ok run_fileWrite]
  unfold NorlitFS.store NorlitFS.fileRead NorlitFS.fileWrite
  rfl

/-- One component of a path. Where the scan leaves the block, both stop. -/
theorem run_openName : (p.openName f str fs.page).run partition fs.disk =
    (fs.openName f str).map left := by
  unfold openName NorlitFS.openName
  rw [Calls.run_bind_of_ok run_seekDataBlock]
  dsimp only [left]
  rw [Calls.run_bind_of_ok run_fileRead]
  -- the state behind both reads, which the two sides share
  set fs' := (fs.seekDataBlock f 0).2.fileRead (sector (fs.seekDataBlock f 0).1) 4 with hfs'
  rw [show (fs.seekDataBlock f 0).2.disk.copy (SECTOR_SIZE * sector (fs.seekDataBlock f 0).1)
    (fs.seekDataBlock f 0).2.page 0 (SECTOR_SIZE * 4) = fs'.page from rfl,
    show (fs.seekDataBlock f 0).2.disk = fs'.disk from rfl]
  cases NorlitFS.scan fs'.page (stringHash str) DIR_FILE_PTRS 0 with
  | none => rfl
  | some i =>
    dsimp only
    by_cases hzero : fs'.page.u32 (DirectoryBlock.address i) = 0
    · rw [if_pos hzero, if_pos hzero, run_addEntry]
      rfl
    · rw [if_neg hzero, if_neg hzero]
      rfl

/-- The path loop, by induction on the bytes that are left. -/
theorem run_walk : (p.walk f str ptr fs.page).run partition fs.disk =
    (fs.walk f str ptr).map left := by
  induction ptr generalizing fs f str with
  | nil => rfl
  | cons c ptr ih =>
    rw [walk, NorlitFS.walk]
    split
    · exact run_openName
    · split
      -- at a slash the component is opened, and the rest follows from there
      · rw [Calls.run_bind, run_openName]
        cases fs.openName f str with
        | error e => rfl
        | ok r => exact ih
      · exact ih

/-- The walk of `HD_OPEN` from the root. -/
theorem run_openPath (hroot : p.root = fs.root) : (p.openPath data fs.page).run partition fs.disk =
    (fs.openPath data).map left := by
  unfold openPath NorlitFS.openPath
  rw [hroot]
  split
  · rfl
  · exact run_walk

/-- **The driver as a program.** With the partition at the other end, a round is a round of the
driver. -/
theorem run_serve (hroot : p.root = fs.root) : (p.serve proc msg fs.page).run partition fs.disk =
    (fs.serve proc msg).map fun r => left (r.2, r.1) := by
  unfold serve NorlitFS.serve
  split
  · rfl
  · split
    · split
      · rfl
      · rw [Calls.run_bind, run_openPath hroot]
        -- where the walk stops, the program stops the same way
        cases fs.openPath msg.data with
        | error e => rfl
        | ok r => rfl
    · split
      · rw [Calls.run_bind_of_ok run_seekDataBlock]
        dsimp only [left]
        rw [Calls.run_bind_of_ok run_fileRead]
        rfl
      · split
        · rw [Calls.run_bind_of_ok run_seekDataBlock]
          dsimp only [left]
          rw [Calls.run_bind_of_ok run_fileWrite]
          rfl
        · rfl

/-! ## The root

Opening files does not change which file is the root, so the programs may take it from their
static variable for a whole run. -/

/-- One component leaves the root. -/
theorem openName_root {r : Nat × NorlitFS} (h : fs.openName f str = .ok r) :
    r.2.root = fs.root := by
  unfold NorlitFS.openName at h
  dsimp only at h
  split at h
  · cases h
  · split at h
    -- a name that is not there is made
    · rw [← Except.ok.inj h]
      exact NorlitFS.createFileBlock_root
    · rw [← Except.ok.inj h]
      rfl

/-- A path leaves the root. -/
theorem walk_root {r : Nat × NorlitFS} (h : fs.walk f str ptr = .ok r) : r.2.root = fs.root := by
  induction ptr generalizing fs f str with
  | nil => cases h
  | cons c ptr ih =>
    rw [NorlitFS.walk] at h
    split at h
    · exact openName_root h
    · split at h
      · obtain ⟨r', hopen, hrest⟩ := bind_eq_ok.mp h
        exact (ih hrest).trans (openName_root hopen)
      · exact ih h

/-- A round leaves the root. -/
theorem serve_root {r : NorlitFS × List (Nat × FileMessage)} (h : fs.serve proc msg = .ok r) :
    r.1.root = fs.root := by
  unfold NorlitFS.serve at h
  split at h
  · rw [← Except.ok.inj h]
  · split at h
    · split at h
      · rw [← Except.ok.inj h]
      -- only an open goes anywhere
      · obtain ⟨r', hpath, hrest⟩ := bind_eq_ok.mp h
        rw [← Except.ok.inj hrest]
        change r'.2.root = fs.root
        unfold NorlitFS.openPath at hpath
        split at hpath
        · rw [← Except.ok.inj hpath]
        · exact walk_root hpath
    · split at h
      · rw [← Except.ok.inj h]
        rfl
      · split at h
        · rw [← Except.ok.inj h]
          rfl
        · rw [← Except.ok.inj h]

/-- **The serving loop.** With the partition at the other end, any sequence of rounds is that of the
model without requests. -/
theorem run_serveAll {reqs : List (Nat × FileMessage)} (hroot : p.root = fs.root) :
    (p.serveAll reqs fs.page).run partition fs.disk =
      (fs.serveAll reqs).map fun r => left (r.2, r.1) := by
  induction reqs generalizing fs with
  | nil => rfl
  | cons req reqs ih =>
    rw [serveAll, NorlitFS.serveAll, Calls.run_bind, run_serve hroot]
    cases hserve : fs.serve req.1 req.2 with
    | error e => rfl
    | ok r =>
      have hrest := ih (hroot.trans (serve_root hserve).symm)
      change (p.serveAll reqs r.1.page >>= _).run partition r.1.disk = _
      rw [Calls.run_bind, hrest]
      change _ = Except.map _ ((r.1.serveAll reqs) >>= _)
      cases r.1.serveAll reqs with
      | error e => rfl
      | ok r' => rfl

end FSProcess

end NorlitOS
