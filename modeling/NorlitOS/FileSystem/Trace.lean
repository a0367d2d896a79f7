import NorlitOS.FileSystem.Server

/-!
# What a request does to the disk and to directories

`Traced` is the driver with a record: the writes it sends to its partition, and the entries of
directories that the path loop looks at or stores to. Its functions are those of the driver on such
a state; with the record left out they are the driver's own (`serve_result`).
-/

namespace NorlitOS

/-- The driver, the first sectors and the lengths of its writes, and the indices of the entries it
has used. -/
structure Traced where
  fs : NorlitFS
  writes : List (Nat × Nat)
  entries : List Nat

namespace Traced

/-! ## The functions of the driver

As in the driver, with the writes and the entries added to the record where they happen. -/

/-- The driver with an empty record. -/
def start (fs : NorlitFS) : Traced := ⟨fs, [], []⟩

/-- What works on the page alone. -/
def edit (t : Traced) (f : NorlitFS → NorlitFS) : Traced := { t with fs := f t.fs }

/-- `fileRead`. -/
def fileRead (t : Traced) (offset count : Nat) : Traced :=
  { t with fs := t.fs.fileRead offset count }

/-- `fileWrite`. -/
def fileWrite (t : Traced) (offset count : Nat) : Traced :=
  { t with fs := t.fs.fileWrite offset count, writes := t.writes ++ [(offset, count)] }

/-- A store of a word through a pointer to the page. -/
def store (t : Traced) (o v : Nat) : Traced := { t with fs := t.fs.store o v }

/-- `filePtr`, used at entry `i`. -/
def use (t : Traced) (i : Nat) : Traced := { t with entries := t.entries ++ [i] }

/-- `freeBlock`. -/
def freeBlock (t : Traced) (base len : Nat) : Traced :=
  let t := t.fileRead 1 1
  let cid := t.fs.page.u32 (SuperBlock.freeBlock len)
  let t := t.store SuperBlock.freeSize (add32 (t.fs.page.u32 SuperBlock.freeSize) (2 ^ len))
  let t := t.store (SuperBlock.freeBlock len) base
  let t := t.fileWrite 1 1
  let t := t.store 0 cid
  t.fileWrite (sector base) 1

/-- What both branches of `mallocBlock` do with the head of a list. -/
def unlink (t : Traced) (len ret : Nat) : Traced :=
  let t := t.fileRead (sector ret) 1
  let nxt := t.fs.page.u32 0
  let t := t.fileRead 1 1
  let t := t.store (SuperBlock.freeBlock len) nxt
  let t := t.store SuperBlock.freeSize (sub32 (t.fs.page.u32 SuperBlock.freeSize) (2 ^ len))
  t.fileWrite 1 1

/-- The loop of `mallocBlock` over the halves. -/
def freeHalves (t : Traced) (rt len : Nat) : Nat → Traced
  | 0 => t
  | l2 + 1 =>
    if len ≤ l2 then (t.freeBlock (add32 rt (2 ^ l2)) l2).freeHalves rt len l2 else t

/-- `mallocBlock`. -/
def mallocBlock (t : Traced) (len : Nat) : Nat × Traced :=
  let t := t.fileRead 1 1
  let ret := t.fs.page.u32 (SuperBlock.freeBlock len)
  if ret = 0 then
    match (List.range' (len + 1) (19 - len)).find? fun l2 =>
        t.fs.page.u32 (SuperBlock.freeBlock l2) ≠ 0 with
    | some l2 =>
      let rt := t.fs.page.u32 (SuperBlock.freeBlock l2)
      (rt, (t.unlink l2 rt).freeHalves rt len l2)
    | none => (0, t)
  else (ret, t.unlink len ret)

/-- What `createFileBlock` does once it has the two blocks. -/
def writeFile (t : Traced) (name : List UInt8) (blk dataBlock : Nat) : Traced :=
  let t := t.edit fun fs => fs.memset 0 2048
  let t := t.fileWrite (sector dataBlock) 4
  let t := t.edit fun fs => fs.fillFile name dataBlock
  t.fileWrite (sector blk) 4

/-- `createFileBlock`. -/
def createFileBlock (t : Traced) (name : List UInt8) : Nat × Traced :=
  let (blk, t) := t.mallocBlock 0
  if blk = 0 then (0, t)
  else
    let (dataBlock, t) := t.mallocBlock 0
    (blk, t.writeFile name blk dataBlock)

/-- `seekDataBlock`. -/
def seekDataBlock (t : Traced) (file offset : Nat) : Nat × Traced :=
  let t := t.fileRead (sector file) 4
  (NorlitFS.seek t.fs.page DATA_BLOCK_PTRS 0 offset, t)

/-- The `for` loop over the entries of a directory. The entry behind the last one of the page is
looked at like any other. -/
def scan (hash : Nat) : Nat → Nat → Traced → Except Stop Nat × Traced
  | 0, i, t => (.error .wild, t.use i)
  | n + 1, i, t =>
    let t := t.use i
    if t.fs.page.u32 (DirectoryBlock.address i) = 0 then (.ok i, t)
    else if t.fs.page.u32 (DirectoryBlock.hash i) = hash then (.ok i, t)
    else scan hash n (i + 1) t

/-- The branch for a name that the directory does not have. -/
def addEntry (t : Traced) (dirAddr i : Nat) (str : List UInt8) : Nat × Traced :=
  let (fb, t) := t.createFileBlock str
  let t := t.fileRead (sector dirAddr) 4
  let t := (t.use i).store (DirectoryBlock.address i) fb
  let t := t.store (DirectoryBlock.hash i) (stringHash str)
  (fb, t.fileWrite (sector dirAddr) 4)

/-- The body of the path loop at the end of a component. -/
def openName (t : Traced) (dirAddr : Nat) (str : List UInt8) : Except Stop Nat × Traced :=
  let (dirAddr, t) := t.seekDataBlock dirAddr 0
  let t := t.fileRead (sector dirAddr) 4
  match scan (stringHash str) DIR_FILE_PTRS 0 t with
  | (.error e, t) => (.error e, t)
  | (.ok i, t) =>
    if t.fs.page.u32 (DirectoryBlock.address i) = 0 then
      let (fb, t) := t.addEntry dirAddr i str
      (.ok fb, t)
    else (.ok (t.fs.page.u32 (DirectoryBlock.address i)), t)

/-- The path loop. -/
def walk (t : Traced) (dirAddr : Nat) (str : List UInt8) : List UInt8 → Except Stop Nat × Traced
  | [] => (.error .wild, t)
  | c :: ptr =>
    if c = 0 then t.openName dirAddr str
    else if c = SLASH then
      match t.openName dirAddr str with
      | (.error e, t) => (.error e, t)
      | (.ok dirAddr, t) => t.walk dirAddr [] ptr
    else t.walk dirAddr (str ++ [c]) ptr

/-- The path walk of `HD_OPEN`. -/
def openPath (t : Traced) (data : Bytes) : Except Stop Nat × Traced :=
  if data 1 = 0 then (.ok t.fs.root, t)
  else t.walk t.fs.root [] (NorlitFS.pathBytes data)

/-- One round of the loop, and what is sent. -/
def serve (t : Traced) (proc : Nat) (msg : FileMessage) :
    Except Stop (List (Nat × FileMessage)) × Traced :=
  if msg.signature ≠ COMMAND_HD then (.ok [], t)
  else if msg.command = HD_OPEN then
    if msg.data 0 ≠ SLASH then (.ok [], t)
    else
      match t.openPath msg.data with
      | (.error e, t) => (.error e, t)
      | (.ok dirAddr, t) =>
        let t := t.fileRead (sector dirAddr) 4
        (.ok [(proc, { t.fs.reply msg with handle := dirAddr })], t)
  else if msg.command = HD_READ then
    let (cls, t) := t.seekDataBlock msg.handle msg.offset
    let t := t.fileRead (sector cls) 4
    (.ok [(proc, t.fs.reply msg)], t)
  else if msg.command = HD_WRITE then
    let (cls, t) := t.seekDataBlock msg.handle msg.offset
    let t := t.edit fun fs => fs.memcpy 0 msg.data 2048
    let t := t.fileWrite (sector cls) 4
    (.ok [(proc, msg)], t)
  else (.ok [], t)

variable {t : Traced} {name str ptr : List UInt8} {data : Bytes} {msg : FileMessage}
  {base len rt l2 ret n i hash f dirAddr proc blk dataBlock : Nat}

/-! ## Without the record

Each function leaves the state that the driver's own leaves, and gives the same value. The proofs
follow the definitions, which differ in the record alone. -/

/-- The value and the state of the driver. -/
def result {α : Type} (r : Except Stop α × Traced) : Except Stop (α × NorlitFS) :=
  r.1.map fun a => (a, r.2.fs)

theorem freeBlock_fs : (t.freeBlock base len).fs = t.fs.freeBlock base len := rfl

theorem unlink_fs : (t.unlink len ret).fs = t.fs.unlink len ret := rfl

/-- The loop over the halves. -/
theorem freeHalves_fs : (t.freeHalves rt len l2).fs = t.fs.freeHalves rt len l2 := by
  induction l2 generalizing t with
  | zero => rfl
  | succ l2 ih =>
    rw [freeHalves, NorlitFS.freeHalves]
    split
    · rw [ih, freeBlock_fs]
    · rfl

/-- Taking a block. -/
theorem mallocBlock_fs :
    ((t.mallocBlock len).1, (t.mallocBlock len).2.fs) = t.fs.mallocBlock len := by
  have hread : (t.fileRead 1 1).fs = t.fs.fileRead 1 1 := rfl
  unfold mallocBlock NorlitFS.mallocBlock
  dsimp only
  rw [hread]
  by_cases hhead : (t.fs.fileRead 1 1).page.u32 (SuperBlock.freeBlock len) = 0
  · rw [if_pos hhead, if_pos hhead]
    cases (List.range' (len + 1) (19 - len)).find? fun l2 =>
        (t.fs.fileRead 1 1).page.u32 (SuperBlock.freeBlock l2) ≠ 0 with
    | none => rfl
    | some l2 =>
      dsimp only
      rw [freeHalves_fs, unlink_fs, hread]
  · rw [if_neg hhead, if_neg hhead]
    rfl

/-- Making a file. -/
theorem createFileBlock_fs :
    ((t.createFileBlock name).1, (t.createFileBlock name).2.fs) = t.fs.createFileBlock name := by
  unfold createFileBlock NorlitFS.createFileBlock
  rw [← mallocBlock_fs]
  dsimp only
  by_cases hblk : (t.mallocBlock 0).1 = 0
  · rw [if_pos hblk, if_pos hblk]
  · rw [if_neg hblk, if_neg hblk, ← mallocBlock_fs]
    rfl

/-- An entry that the scan stops at is one of those it looked at. -/
theorem scan_bounds {page : Bytes} {m : Nat} (h : NorlitFS.scan page hash n i = some m) :
    i ≤ m ∧ m < i + n := by
  induction n generalizing i with
  | zero => exact nomatch h
  | succ n ih =>
    rw [NorlitFS.scan] at h
    split at h
    · obtain rfl := Option.some.inj h
      omega
    · split at h
      · obtain rfl := Option.some.inj h
        omega
      · have hrest := ih h
        omega

/-- The scan uses the entries up to the one it ends at, or one more than there are. -/
theorem scan_eq : scan hash n i t =
    match NorlitFS.scan t.fs.page hash n i with
    | some m => (.ok m, { t with entries := t.entries ++ List.range' i (m + 1 - i) })
    | none => (.error .wild, { t with entries := t.entries ++ List.range' i (n + 1) }) := by
  induction n generalizing i t with
  | zero => rfl
  | succ n ih =>
    have huse : (t.use i).fs = t.fs := rfl
    have hlast : t.use i = { t with entries := t.entries ++ List.range' i (i + 1 - i) } := by
      rw [Nat.add_sub_cancel_left]
      rfl
    rw [scan, NorlitFS.scan, huse]
    by_cases haddr : t.fs.page.u32 (DirectoryBlock.address i) = 0
    · rw [if_pos haddr, if_pos haddr, hlast]
    · rw [if_neg haddr, if_neg haddr]
      by_cases hhash : t.fs.page.u32 (DirectoryBlock.hash i) = hash
      · rw [if_pos hhash, if_pos hhash, hlast]
      · rw [if_neg hhash, if_neg hhash, ih, huse]
        -- entry `i`, and then those of the rest
        have hcons : ∀ k, (t.use i).entries ++ List.range' (i + 1) k =
            t.entries ++ List.range' i (k + 1) := fun k => List.append_assoc _ _ _
        cases hrest : NorlitFS.scan t.fs.page hash n (i + 1) with
        | none =>
          dsimp only
          rw [hcons]
          rfl
        | some m =>
          have hbounds := scan_bounds hrest
          dsimp only
          rw [hcons, show m + 1 - (i + 1) + 1 = m + 1 - i by omega]
          rfl

/-- A new entry. -/
theorem addEntry_fs :
    ((t.addEntry dirAddr i str).1, (t.addEntry dirAddr i str).2.fs) = t.fs.addEntry dirAddr i str := by
  unfold addEntry NorlitFS.addEntry
  dsimp only
  rw [← createFileBlock_fs]
  rfl

/-- The first `n` entries of the directory of `f` have been looked at. -/
def looked (t : Traced) (f n : Nat) : Traced :=
  ⟨(t.fs.seekDataBlock f 0).2.fileRead (sector (t.fs.seekDataBlock f 0).1) 4, t.writes,
    t.entries ++ List.range' 0 n⟩

/-- One component: the entries looked at are those up to where the scan stopped, and one behind
the block where it did not. -/
theorem openName_eq : t.openName f str =
    match NorlitFS.scan (t.looked f 0).fs.page (stringHash str) DIR_FILE_PTRS 0 with
    | none => (.error .wild, t.looked f (DIR_FILE_PTRS + 1))
    | some i =>
      if (t.looked f 0).fs.page.u32 (DirectoryBlock.address i) = 0 then
        (.ok ((t.looked f (i + 1)).addEntry (t.fs.seekDataBlock f 0).1 i str).1,
          ((t.looked f (i + 1)).addEntry (t.fs.seekDataBlock f 0).1 i str).2)
      else
        (.ok ((t.looked f 0).fs.page.u32 (DirectoryBlock.address i)), t.looked f (i + 1)) := by
  have hread : ((t.seekDataBlock f 0).2.fileRead (sector (t.seekDataBlock f 0).1) 4).fs =
    (t.looked f 0).fs := rfl
  unfold openName
  dsimp only
  rw [scan_eq, hread]
  cases NorlitFS.scan (t.looked f 0).fs.page (stringHash str) DIR_FILE_PTRS 0 with
  | none => rfl
  | some i => rfl

/-- The result of a component. -/
theorem openName_result : result (t.openName f str) = t.fs.openName f str := by
  have hread : (t.fs.seekDataBlock f 0).2.fileRead (sector (t.fs.seekDataBlock f 0).1) 4 =
    (t.looked f 0).fs := rfl
  rw [openName_eq]
  unfold NorlitFS.openName
  dsimp only
  rw [hread]
  cases NorlitFS.scan (t.looked f 0).fs.page (stringHash str) DIR_FILE_PTRS 0 with
  | none => rfl
  | some i =>
    dsimp only
    by_cases hzero : (t.looked f 0).fs.page.u32 (DirectoryBlock.address i) = 0
    · rw [if_pos hzero, if_pos hzero]
      exact congrArg Except.ok addEntry_fs
    · rw [if_neg hzero, if_neg hzero]
      rfl

/-- The result of a path, by induction on its bytes. -/
theorem walk_result : result (t.walk f str ptr) = t.fs.walk f str ptr := by
  induction ptr generalizing t f str with
  | nil => rfl
  | cons c ptr ih =>
    rw [walk, NorlitFS.walk]
    split
    · exact openName_result
    · split
      · rw [← openName_result]
        cases t.openName f str with
        | mk r t =>
          cases r with
          | error e => rfl
          | ok g => exact ih
      · exact ih

/-- The result of the walk of `HD_OPEN`. -/
theorem openPath_result : result (t.openPath data) = t.fs.openPath data := by
  unfold openPath NorlitFS.openPath
  split
  · rfl
  · exact walk_result

/-- **The record changes nothing.** With it left out, a round is a round of the driver. -/
theorem serve_result : result (t.serve proc msg) =
    (t.fs.serve proc msg).map fun r => (r.2, r.1) := by
  unfold serve NorlitFS.serve
  split
  · rfl
  · split
    · split
      · rfl
      · rw [← openPath_result]
        cases t.openPath msg.data with
        | mk r t =>
          cases r with
          | error e => rfl
          | ok g => rfl
    · split
      · rfl
      · split
        · rfl
        · rfl

/-- A round that is answered leaves the driver's state. -/
theorem fs_serve {t' : Traced} {sent : List (Nat × FileMessage)}
    (h : t.serve proc msg = (.ok sent, t')) : t.fs.serve proc msg = .ok (t'.fs, sent) := by
  have hmap : (t.fs.serve proc msg).map (fun r => (r.2, r.1)) = .ok (sent, t'.fs) := by
    rw [← serve_result, h]
    rfl
  obtain ⟨r, hserve, heq⟩ := map_eq_ok.mp hmap
  obtain ⟨hsent, hfs⟩ := Prod.mk.inj heq
  rw [hserve, ← hsent, ← hfs]

end Traced

namespace NorlitFS

/-- The writes to the disk in a round, first sector and length. -/
def diskWrites (fs : NorlitFS) (proc : Nat) (msg : FileMessage) : List (Nat × Nat) :=
  ((Traced.start fs).serve proc msg).2.writes

/-- The indices of the entries of directories that a round looks at or stores to. -/
def usedEntries (fs : NorlitFS) (proc : Nat) (msg : FileMessage) : List Nat :=
  ((Traced.start fs).serve proc msg).2.entries

end NorlitFS

end NorlitOS
