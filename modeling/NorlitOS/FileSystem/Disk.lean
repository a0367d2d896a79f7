import NorlitOS.Lib.Bytes
import NorlitOS.Machine

/-!
# NorlitFS on its partition (`kernel/driver/filesystem`)

The driver reads and writes its partition through the hard-disk process, four sectors to a block
of 2048 bytes, and every request goes through the `data` of the one page at `FILE_MSG_PAGE`:
`fileRead` returns a pointer to it and leaves alone what it does not read. Here `disk` is the
partition by byte, `page` that data area, and a field of a C structure is its offset.
-/

namespace NorlitOS

/-- The partition, the data of the message page, and the block of the root file. -/
structure NorlitFS where
  disk : Bytes
  page : Bytes
  root : Nat

/-- `SECTOR_SIZE`. -/
def SECTOR_SIZE : Nat := 512

/-- `block*4`: the first sector of a block, in `u32`. -/
def sector (block : Nat) : Nat := block * 4 % 2 ^ 32

/-- `FILE_NAME_SIZE`. -/
def FILE_NAME_SIZE : Nat := 256

/-- `DATA_BLOCK_PTRS`. -/
def DATA_BLOCK_PTRS : Nat := 128

/-- `DIR_FILE_PTRS`. -/
def DIR_FILE_PTRS : Nat := 256

/-! ## Field offsets (`filesystem.h`, packed) -/

namespace SuperBlock

/-- `size`, in blocks. -/
def size : Nat := 8

/-- `root`. -/
def root : Nat := 12

/-- `freeSize`, in blocks. -/
def freeSize : Nat := 16

/-- `freeBlock[len]`. -/
def freeBlock (len : Nat) : Nat := 20 + 4 * len

end SuperBlock

namespace FileBlock

/-- `nameHash`, behind `fileName`. -/
def nameHash : Nat := FILE_NAME_SIZE

/-- `size`. -/
def size : Nat := 260

/-- `attributes`. -/
def attributes : Nat := 264

/-- `dataPtr[i].address`, behind `metaData` and `reserved`. -/
def address (i : Nat) : Nat := 1024 + 8 * i

/-- `dataPtr[i].size`. -/
def extent (i : Nat) : Nat := 1028 + 8 * i

end FileBlock

/-- `stringHash` of `lib.c`. -/
def stringHash (str : List UInt8) : Nat :=
  str.foldl (fun hash c => (hash * 31 + c.toNat) % 2 ^ 32) 0

namespace NorlitFS

/-! ## The file messages (`proclib.c`) -/

/-- `fileRead(PID_HD, handle, offset, count)`. -/
def fileRead (fs : NorlitFS) (offset count : Nat) : NorlitFS :=
  { fs with page := fs.disk.copy (SECTOR_SIZE * offset) fs.page 0 (SECTOR_SIZE * count) }

/-- `fileWrite(PID_HD, handle, offset, count)`. -/
def fileWrite (fs : NorlitFS) (offset count : Nat) : NorlitFS :=
  { fs with disk := fs.page.copy 0 fs.disk (SECTOR_SIZE * offset) (SECTOR_SIZE * count) }

/-- A store of a word through a pointer to the page. -/
def store (fs : NorlitFS) (o v : Nat) : NorlitFS := { fs with page := fs.page.setU32 o v }

/-- `memcpy(data + o, src, n)`. -/
def memcpy (fs : NorlitFS) (o : Nat) (src : Bytes) (n : Nat) : NorlitFS :=
  { fs with page := src.copy 0 fs.page o n }

/-- `memset(data, ch, n)`. -/
def memset (fs : NorlitFS) (ch : UInt8) (n : Nat) : NorlitFS := fs.memcpy 0 (fun _ => ch) n

/-- `strcpy(data, str)`. -/
def strcpy (fs : NorlitFS) (str : List UInt8) : NorlitFS :=
  fs.memcpy 0 (fun i => str.getD i 0) (str.length + 1)

/-! ## Free blocks -/

/-- `freeBlock`: the extent goes to the head of its list. -/
def freeBlock (fs : NorlitFS) (base len : Nat) : NorlitFS :=
  let fs := fs.fileRead 1 1
  let cid := fs.page.u32 (SuperBlock.freeBlock len)
  let fs := fs.store SuperBlock.freeSize (add32 (fs.page.u32 SuperBlock.freeSize) (2 ^ len))
  let fs := fs.store (SuperBlock.freeBlock len) base
  -- the super block first: from here on the list has the extent
  let fs := fs.fileWrite 1 1
  let fs := fs.store 0 cid
  fs.fileWrite (sector base) 1

/-- Both branches of `mallocBlock` take the head of a list off in the same way. -/
def unlink (fs : NorlitFS) (len ret : Nat) : NorlitFS :=
  let fs := fs.fileRead (sector ret) 1
  -- the first word of a free extent is its successor
  let nxt := fs.page.u32 0
  let fs := fs.fileRead 1 1
  let fs := fs.store (SuperBlock.freeBlock len) nxt
  let fs := fs.store SuperBlock.freeSize (sub32 (fs.page.u32 SuperBlock.freeSize) (2 ^ len))
  fs.fileWrite 1 1

/-- `for(l2--;(s32)l2>=(s32)len;l2--)freeBlock(rt+(1<<l2),l2);` with `l2` before the decrement. -/
def freeHalves (fs : NorlitFS) (rt len : Nat) : Nat → NorlitFS
  | 0 => fs
  | l2 + 1 =>
    if len ≤ l2 then (fs.freeBlock (add32 rt (2 ^ l2)) l2).freeHalves rt len l2 else fs

/-- `mallocBlock`: the base of an extent of `2 ^ len` blocks, or 0. -/
def mallocBlock (fs : NorlitFS) (len : Nat) : Nat × NorlitFS :=
  let fs := fs.fileRead 1 1
  let ret := fs.page.u32 (SuperBlock.freeBlock len)
  if ret = 0 then
    -- the first longer list that has an extent; its upper halves are freed again
    match (List.range' (len + 1) (19 - len)).find? fun l2 =>
        fs.page.u32 (SuperBlock.freeBlock l2) ≠ 0 with
    | some l2 =>
      let rt := fs.page.u32 (SuperBlock.freeBlock l2)
      (rt, (fs.unlink l2 rt).freeHalves rt len l2)
    | none => (0, fs)
  else (ret, fs.unlink len ret)

/-! ## Files -/

/-- The loop of `seekDataBlock`, with `n` rounds left. -/
def seek (page : Bytes) : Nat → Nat → Nat → Nat
  | 0, _, _ => 0
  | n + 1, i, offset =>
    -- an extent of no blocks ends the table
    if page.u32 (FileBlock.extent i) = 0 then 0
    else if offset < page.u32 (FileBlock.extent i) then page.u32 (FileBlock.address i)
    else seek page n (i + 1) (offset - page.u32 (FileBlock.extent i))

/-- `seekDataBlock`. -/
def seekDataBlock (fs : NorlitFS) (file offset : Nat) : Nat × NorlitFS :=
  let fs := fs.fileRead (sector file) 4
  (seek fs.page DATA_BLOCK_PTRS 0 offset, fs)

/-- The stores of `createFileBlock` through `fb`, on a page of zeroes. -/
def fillFile (fs : NorlitFS) (name : List UInt8) (dataBlock : Nat) : NorlitFS :=
  let fs := fs.strcpy name
  let fs := fs.store FileBlock.nameHash (stringHash name)
  let fs := fs.store FileBlock.size 0
  let fs := fs.store FileBlock.attributes 0
  let fs := fs.store (FileBlock.address 0) dataBlock
  let fs := fs.store (FileBlock.extent 0) 1
  let fs := fs.store (FileBlock.address 1) 0
  fs.store (FileBlock.extent 1) 0

/-- What `createFileBlock` does once it has the two blocks. -/
def writeFile (fs : NorlitFS) (name : List UInt8) (blk dataBlock : Nat) : NorlitFS :=
  let fs := fs.memset 0 2048
  let fs := fs.fileWrite (sector dataBlock) 4
  -- the page is zero, so the rest of the file block is
  let fs := fs.fillFile name dataBlock
  fs.fileWrite (sector blk) 4

/-- `createFileBlock`. Only the first allocation is checked. -/
def createFileBlock (fs : NorlitFS) (name : List UInt8) : Nat × NorlitFS :=
  let (blk, fs) := fs.mallocBlock 0
  if blk = 0 then (0, fs)
  else
    -- on a full disk this is block 0
    let (dataBlock, fs) := fs.mallocBlock 0
    (blk, fs.writeFile name blk dataBlock)

/-! ## `mkfs` -/

/-- The programs `mkfs` copies from memory to the disk. -/
structure Images where
  hdboot : Bytes
  smpLoader : Bytes
  loader : Bytes
  kernel : Bytes

/-- `ksize`: the blocks of the kernel. -/
def ksize : Nat := (KERNEL_SIZE - 1) / (SECTOR_SIZE * 4) + 1

/-- The loop of `mkfs` that writes the kernel, with `n` blocks left. -/
def copyKernel (kernel : Bytes) : Nat → Nat → NorlitFS → NorlitFS
  | 0, _, fs => fs
  | n + 1, i, fs =>
    let fs := fs.memcpy 0 (fun j => kernel (SECTOR_SIZE * 4 * i + j)) (SECTOR_SIZE * 4)
    copyKernel kernel n (i + 1) (fs.fileWrite (4 * i + 8) 4)

/-- The first block of `mkfs`: the programs. The boot sector of the disk, sector 0 behind handle 0,
is the first component. -/
def copyFiles (img : Images) (mbr : Bytes) (fs : NorlitFS) : Bytes × NorlitFS :=
  let fs := fs.memcpy 0 img.hdboot 512
  let fs := fs.memcpy 512 img.smpLoader 512
  let fs := fs.memcpy 1024 img.loader 1024
  -- block 1
  let fs := fs.fileWrite 4 4
  let fs := fs.memcpy 0 mbr SECTOR_SIZE
  -- its partition table stays
  let fs := fs.memcpy 0 img.hdboot 446
  (fs.page.copy 0 mbr 0 SECTOR_SIZE, copyKernel img.kernel ksize 0 fs)

/-- `"NorlitFS"`. -/
def signature : List UInt8 := [78, 111, 114, 108, 105, 116, 70, 83]

/-- The loop that empties `sb->freeBlock`, with `n` entries left. -/
def clearLists : Nat → Nat → NorlitFS → NorlitFS
  | 0, _, fs => fs
  | n + 1, i, fs => clearLists n (i + 1) (fs.store (SuperBlock.freeBlock i) 0)

/-- The super block before any block is free. The counter `freeSize` keeps what the page holds. -/
def initSuperBlock (fs : NorlitFS) (psize : Nat) : NorlitFS :=
  let fs := fs.memcpy 0 (fun i => signature.getD i 0) 8
  let fs := fs.store SuperBlock.size (psize / 4)
  (clearLists 20 0 fs).fileWrite 1 1

/-- `if(address&sizep){ .. }`: the extent at the low end. -/
def releaseLow (fs : NorlitFS) (len address size : Nat) : NorlitFS × Nat × Nat :=
  if address &&& 2 ^ len ≠ 0 then
    (fs.freeBlock address len, add32 address (2 ^ len), sub32 size (2 ^ len))
  else (fs, address, size)

/-- `if(size&sizep){ .. }`: the extent at the high end. -/
def releaseHigh (fs : NorlitFS) (len address size : Nat) : NorlitFS × Nat :=
  if size &&& 2 ^ len ≠ 0 then
    (fs.freeBlock (sub32 (add32 address size) (2 ^ len)) len, sub32 size (2 ^ len))
  else (fs, size)

/-- The release loop of `mkfs`, with `n` values of `len` left. -/
def release : Nat → Nat → NorlitFS → Nat → Nat → NorlitFS
  | 0, _, fs, _, _ => fs
  | n + 1, len, fs, address, size =>
    if size < 2 ^ len then fs
    else
      let (fs, address, size) := fs.releaseLow len address size
      let (fs, size) := fs.releaseHigh len address size
      release n (len + 1) fs address size

/-- `mkfs` up to the end of its release loop. -/
def format (img : Images) (mbr : Bytes) (fs : NorlitFS) (psize : Nat) : NorlitFS :=
  let (_, fs) := fs.copyFiles img mbr
  let fs := fs.initSuperBlock psize
  release 20 0 fs (ksize + 2) (sub32 (psize / 4) (ksize + 2))

/-- `mkfs`: the release loop, and then the root file. -/
def mkfs (img : Images) (mbr : Bytes) (fs : NorlitFS) (psize : Nat) : Bytes × NorlitFS :=
  let (rootBlock, fs') := (fs.format img mbr psize).createFileBlock [36, 82, 111, 111, 116]
  let fs' := fs'.fileRead 1 1
  let fs' := fs'.store SuperBlock.root rootBlock
  ((fs.copyFiles img mbr).1, fs'.fileWrite 1 1)

end NorlitFS

end NorlitOS
