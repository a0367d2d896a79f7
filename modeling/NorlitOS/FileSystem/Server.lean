import NorlitOS.FileSystem.Disk

/-!
# The request loop of the file-system process (`norlitfs_bottom`)

A request is a page in another process's name; the answer goes back in the same page. `serve` is
one round of the loop, and gives the messages it sends. What the driver prints is left out.

A directory is the data block of a file: entries of a block address and a name's hash, up to the
first address 0. The scan for a name has no other bound; behind the 256 entries of the block the
message page ends, and the driver with it (`Stop.wild`).
-/

namespace NorlitOS

/-- `FileMessage`, without its reserved bytes. -/
structure FileMessage where
  signature : Nat
  command : Nat
  handle : Nat
  offset : Nat
  count : Nat
  data : Bytes

/-- `COMMAND_HD`. -/
def COMMAND_HD : Nat := 3

/-- `HD_OPEN`. -/
def HD_OPEN : Nat := 1

/-- `HD_READ`. -/
def HD_READ : Nat := 2

/-- `HD_WRITE`. -/
def HD_WRITE : Nat := 3

/-- `HD_FAIL`. -/
def HD_FAIL : Nat := 0

/-- `'/'`. -/
def SLASH : UInt8 := 47

namespace DirectoryBlock

/-- `filePtr[i].address`. -/
def address (i : Nat) : Nat := 8 * i

/-- `filePtr[i].hash`. -/
def hash (i : Nat) : Nat := 8 * i + 4

end DirectoryBlock

namespace NorlitFS

/-- The `for` loop over the entries of a directory, with `n` of them left in the page. -/
def scan (page : Bytes) (hash : Nat) : Nat → Nat → Option Nat
  | 0, _ => none
  | n + 1, i =>
    if page.u32 (DirectoryBlock.address i) = 0 then some i
    else if page.u32 (DirectoryBlock.hash i) = hash then some i
    else scan page hash n (i + 1)

/-- The branch for a name that the directory does not have: `filePtr` is entry `i`. -/
def addEntry (fs : NorlitFS) (dirAddr i : Nat) (str : List UInt8) : Nat × NorlitFS :=
  let (fb, fs) := fs.createFileBlock str
  let fs := fs.fileRead (sector dirAddr) 4
  let fs := fs.store (DirectoryBlock.address i) fb
  let fs := fs.store (DirectoryBlock.hash i) (stringHash str)
  (fb, fs.fileWrite (sector dirAddr) 4)

/-- The body of the path loop at the end of a component: `dirAddr` is the file to look in. -/
def openName (fs : NorlitFS) (dirAddr : Nat) (str : List UInt8) : Except Stop (Nat × NorlitFS) :=
  let (dirAddr, fs) := fs.seekDataBlock dirAddr 0
  let fs := fs.fileRead (sector dirAddr) 4
  match scan fs.page (stringHash str) DIR_FILE_PTRS 0 with
  | none => .error .wild
  | some i =>
    if fs.page.u32 (DirectoryBlock.address i) = 0 then .ok (fs.addEntry dirAddr i str)
    else .ok (fs.page.u32 (DirectoryBlock.address i), fs)

/-- `while(1){c=*ptr++; .. }` over the bytes of the message; `str` is the component so far. -/
def walk (fs : NorlitFS) (dirAddr : Nat) (str : List UInt8) :
    List UInt8 → Except Stop (Nat × NorlitFS)
  | [] => .error .wild
  | c :: ptr =>
    if c = 0 then fs.openName dirAddr str
    else if c = SLASH then do
      let (dirAddr, fs) ← fs.openName dirAddr str
      fs.walk dirAddr [] ptr
    else fs.walk dirAddr (str ++ [c]) ptr

/-- The bytes of the path from `msg->data+1` to the end of the page. -/
def pathBytes (data : Bytes) : List UInt8 := (List.range' 1 2047).map data

/-- The path walk of `HD_OPEN`. -/
def openPath (fs : NorlitFS) (data : Bytes) : Except Stop (Nat × NorlitFS) :=
  if data 1 = 0 then .ok (fs.root, fs) else fs.walk fs.root [] (pathBytes data)

/-- `memcpy(msg->data, page, 2048)`, and the reply. -/
def reply (fs : NorlitFS) (msg : FileMessage) : FileMessage :=
  { msg with data := fs.page.copy 0 msg.data 0 2048 }

/-- One round of the loop: the request `msg` of process `proc`, and what is sent. -/
def serve (fs : NorlitFS) (proc : Nat) (msg : FileMessage) :
    Except Stop (NorlitFS × List (Nat × FileMessage)) :=
  if msg.signature ≠ COMMAND_HD then .ok (fs, [])
  else if msg.command = HD_OPEN then
    if msg.data 0 ≠ SLASH then .ok (fs, [])
    else do
      -- the loop ends at `c == 0`, so that the `if(c)break;` behind it is not taken
      let (dirAddr, fs) ← fs.openPath msg.data
      let fs := fs.fileRead (sector dirAddr) 4
      .ok (fs, [(proc, { fs.reply msg with handle := dirAddr })])
  else if msg.command = HD_READ then
    let (cls, fs) := fs.seekDataBlock msg.handle msg.offset
    let fs := fs.fileRead (sector cls) 4
    .ok (fs, [(proc, fs.reply msg)])
  else if msg.command = HD_WRITE then
    let (cls, fs) := fs.seekDataBlock msg.handle msg.offset
    let fs := fs.memcpy 0 msg.data 2048
    let fs := fs.fileWrite (sector cls) 4
    .ok (fs, [(proc, msg)])
  else .ok (fs, [])

/-- The loop over the messages that arrive. -/
def serveAll (fs : NorlitFS) : List (Nat × FileMessage) →
    Except Stop (NorlitFS × List (Nat × FileMessage))
  | [] => .ok (fs, [])
  | (proc, msg) :: rest => do
    let (fs, sent) ← fs.serve proc msg
    let (fs, sent') ← fs.serveAll rest
    .ok (fs, sent ++ sent')

/-- The driver before its loop: the super block is read, and `root` taken from it. -/
def mount (fs : NorlitFS) : Option NorlitFS :=
  let fs := fs.fileRead 1 1
  if (List.range 8).map fs.page = signature then
    some { fs with root := fs.page.u32 SuperBlock.root }
  else none

end NorlitFS

end NorlitOS
