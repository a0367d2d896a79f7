import NorlitOS.FileSystem.FreeSpace
import NorlitOS.FileSystem.Server
import NorlitOS.Lib.Tree

/-!
# The tree of files

`Tree` is what the file system is about: files, each with the blocks it is made of, its name and,
where it is used as a directory, its entries. `Holds T fs` says that the disk stores `T`: file
blocks as `createFileBlock` writes them, directories as a list of entries and zeroes behind it, all
blocks apart from each other and from the free ones. Every file but the root has one entry that
refers to it.
-/

namespace NorlitOS

open Dyadic

/-- An entry of a directory. -/
structure FileEntry where
  address : Nat
  hash : Nat
  deriving DecidableEq

/-- Files by their file block. A file that is no directory may hold any data. -/
structure Tree where
  files : List Nat
  data : Nat → Nat
  name : Nat → List UInt8
  dir : Nat → Bool
  entries : Nat → List FileEntry

/-- File `f` has an entry for `g` under the hash `h`. -/
def Tree.Edge (T : Tree) (f h g : Nat) : Prop := f ∈ T.files ∧ ⟨g, h⟩ ∈ T.entries f

namespace NorlitFS

variable {fs fs' : NorlitFS} {disk disk' page : Bytes} {L : Nat → List Nat} {T : Tree}
  {f g d b i n h offset : Nat} {name : List UInt8} {es : List FileEntry} {e : FileEntry}

/-! ## Blocks on the disk

Four sectors to a block. As long as block numbers stay below `2 ^ 30` no two blocks share a
sector, in `u32` as in `Nat`. -/

/-- The file block `f` is as `createFileBlock` writes it. -/
def FileAt (disk : Bytes) (f : Nat) (name : List UInt8) (d : Nat) : Prop :=
  ∀ i < 2048, disk (2048 * f + i) = (blank.fillFile name d).page i

/-- Block `d` is a directory: the entries, and zeroes up to its end. -/
structure DirectoryAt (disk : Bytes) (d : Nat) (es : List FileEntry) : Prop where
  length_le : es.length ≤ DIR_FILE_PTRS
  address : ∀ i (hi : i < es.length),
    disk.u32 (2048 * d + DirectoryBlock.address i) = es[i].address
  hash : ∀ i (hi : i < es.length), disk.u32 (2048 * d + DirectoryBlock.hash i) = es[i].hash
  nonzero : ∀ e ∈ es, e.address ≠ 0
  rest : ∀ j, 8 * es.length ≤ j → j < 2048 → disk (2048 * d + j) = 0

/-- Reading block `b`. -/
theorem page_read (hb : b < 2 ^ 30) (hi : i < 2048) :
    (fs.fileRead (sector b) 4).page i = fs.disk (2048 * b + i) := by
  unfold fileRead
  dsimp only
  -- the four sectors of the block fill the page
  rw [sector_of_lt hb, Bytes.copy_of_mem (Nat.zero_le i) (by unfold SECTOR_SIZE; omega),
    Nat.sub_zero]

/-- A word of the block that was read. -/
theorem u32_read (hb : b < 2 ^ 30) (hi : i + 4 ≤ 2048) :
    (fs.fileRead (sector b) 4).page.u32 i = fs.disk.u32 (2048 * b + i) := by
  apply Bytes.u32_congr
  intro j hj
  rw [page_read hb (by omega), Nat.add_assoc]

/-- Writing block `b`. -/
theorem disk_write (hb : b < 2 ^ 30) (hi : i < 2048) :
    (fs.fileWrite (sector b) 4).disk (2048 * b + i) = fs.page i := by
  unfold fileWrite
  dsimp only
  rw [sector_of_lt hb, Bytes.copy_of_mem (by omega) (by unfold SECTOR_SIZE; omega)]
  congr 1
  omega

/-- A word of the block that was written. -/
theorem u32_write (hb : b < 2 ^ 30) (hi : i + 4 ≤ 2048) :
    (fs.fileWrite (sector b) 4).disk.u32 (2048 * b + i) = fs.page.u32 i := by
  apply Bytes.u32_congr
  intro j hj
  rw [Nat.add_assoc]
  exact disk_write hb (by omega)

/-- The other blocks stay. -/
theorem disk_write_other (hb : b < 2 ^ 30) (hi : i / 2048 ≠ b) :
    (fs.fileWrite (sector b) 4).disk i = fs.disk i := by
  unfold fileWrite
  rw [sector_of_lt hb]
  apply Bytes.copy_of_notMem
  unfold SECTOR_SIZE
  omega

/-! ## File blocks

`createFileBlock` fills in a clear page, so every byte of a file block is given by name and data
block. -/

/-- `fillFile` on pages that agree. -/
theorem fillFile_congr (h : ∀ i < 2048, fs.page i = fs'.page i) (hi : i < 2048) :
    (fs.fillFile name d).page i = (fs'.fillFile name d).page i := by
  unfold fillFile store strcpy memcpy Bytes.setU32 Bytes.copy
  simp only [h i hi]

variable (fs name) in
/-- The stores of `fillFile` that `seekDataBlock` reads. -/
theorem fillFile_extents (hd : d < 2 ^ 32) :
    (fs.fillFile name d).page.u32 (FileBlock.address 0) = d ∧
      (fs.fillFile name d).page.u32 (FileBlock.extent 0) = 1 ∧
      (fs.fillFile name d).page.u32 (FileBlock.extent 1) = 0 := by
  unfold fillFile store
  refine ⟨?_, ?_, Bytes.u32_setU32 (by decide)⟩
  · rw [Bytes.u32_setU32_of_ne (by decide), Bytes.u32_setU32_of_ne (by decide),
      Bytes.u32_setU32_of_ne (by decide)]
    exact Bytes.u32_setU32 hd
  · rw [Bytes.u32_setU32_of_ne (by decide), Bytes.u32_setU32_of_ne (by decide)]
    exact Bytes.u32_setU32 (by decide)

/-- A word of a file block is that word of the page. -/
theorem FileAt.u32 (hf : FileAt disk f name d) (hi : i + 4 ≤ 2048) :
    disk.u32 (2048 * f + i) = (blank.fillFile name d).page.u32 i := by
  apply Bytes.u32_congr
  intro j hj
  rw [Nat.add_assoc]
  exact hf (i + j) (by omega)

/-- A file has one data block: offset 0 is in it, and every other offset is not found. -/
theorem FileAt.seek (hf : FileAt fs.disk f name d) (hlt : f < 2 ^ 30) (hd : d < 2 ^ 32) :
    fs.seekDataBlock f offset = (if offset = 0 then d else 0, fs.fileRead (sector f) 4) := by
  obtain ⟨haddr, hone, hzero⟩ := fillFile_extents blank name hd
  have haddr' : (fs.fileRead (sector f) 4).page.u32 (FileBlock.address 0) = d := by
    rw [u32_read hlt (by decide), hf.u32 (by decide), haddr]
  have hone' : (fs.fileRead (sector f) 4).page.u32 (FileBlock.extent 0) = 1 := by
    rw [u32_read hlt (by decide), hf.u32 (by decide), hone]
  have hzero' : (fs.fileRead (sector f) 4).page.u32 (FileBlock.extent 1) = 0 := by
    rw [u32_read hlt (by decide), hf.u32 (by decide), hzero]
  unfold seekDataBlock
  dsimp only
  -- two rounds: the extent of one block, and the end of the table
  rw [show DATA_BLOCK_PTRS = 126 + 1 + 1 from rfl, NorlitFS.seek, NorlitFS.seek, hone', haddr',
    hzero']
  rcases Nat.eq_zero_or_pos offset with rfl | hpos
  · simp
  · rw [if_neg (by decide), if_neg (by omega), if_pos rfl, if_neg (by omega)]

/-! ## The scan of a directory

The scan goes over entries with other hashes and stops at the first with the hash, or at the first
free one. The entries of a tree come first and the rest is zero. -/

/-- The entries end with the address 0. -/
theorem DirectoryAt.terminated (hD : DirectoryAt disk d es) (hlen : es.length < DIR_FILE_PTRS) :
    disk.u32 (2048 * d + DirectoryBlock.address es.length) = 0 := by
  unfold DIR_FILE_PTRS at hlen
  -- behind the entries all bytes are zero
  have hzero : ∀ j < 4, disk (2048 * d + DirectoryBlock.address es.length + j) = 0 := by
    intro j hj
    unfold DirectoryBlock.address
    rw [Nat.add_assoc]
    exact hD.rest _ (by omega) (by omega)
  rw [show (0 : Nat) = Bytes.u32 (fun _ => 0) 0 from rfl]
  exact Bytes.u32_congr hzero

/-- Entries that are in use under other hashes are passed over. -/
theorem scan_skip {m : Nat} (him : i ≤ m) (hm : m ≤ i + n)
    (hskip : ∀ j, i ≤ j → j < m → page.u32 (DirectoryBlock.address j) ≠ 0 ∧
      page.u32 (DirectoryBlock.hash j) ≠ h) : scan page h n i = scan page h (n - (m - i)) m := by
  induction n generalizing i with
  | zero =>
    obtain rfl : i = m := by omega
    simp
  | succ n ih =>
    -- at `m`, or one entry is passed
    rcases Nat.eq_or_lt_of_le him with rfl | hlt
    · simp
    · obtain ⟨hne, hother⟩ := hskip i (Nat.le_refl i) hlt
      rw [scan, if_neg hne, if_neg hother,
        ih hlt (by omega) fun j hj hjm => hskip j (by omega) hjm]
      congr 1
      omega

section Scan

variable (hD : DirectoryAt fs.disk d es) (hd : d < 2 ^ 30)

include hD hd

/-- The file of an entry, in the page. -/
theorem page_address (hi : i < es.length) :
    (fs.fileRead (sector d) 4).page.u32 (DirectoryBlock.address i) = es[i].address := by
  have hlen := hD.length_le
  rw [u32_read hd (by unfold DirectoryBlock.address; unfold DIR_FILE_PTRS at hlen; omega)]
  exact hD.address i hi

/-- The hash of an entry, in the page. -/
theorem page_hash (hi : i < es.length) :
    (fs.fileRead (sector d) 4).page.u32 (DirectoryBlock.hash i) = es[i].hash := by
  have hlen := hD.length_le
  rw [u32_read hd (by unfold DirectoryBlock.hash; unfold DIR_FILE_PTRS at hlen; omega)]
  exact hD.hash i hi

/-- The scan comes to entry `m` if no earlier one has the hash. -/
theorem scan_to {m : Nat} (hm : m ≤ es.length) (hno : ∀ j (hj : j < es.length), j < m → es[j].hash ≠ h) :
    scan (fs.fileRead (sector d) 4).page h DIR_FILE_PTRS 0 =
      scan (fs.fileRead (sector d) 4).page h (DIR_FILE_PTRS - m) m := by
  have hlen := hD.length_le
  refine scan_skip (Nat.zero_le m) (by omega) fun j _ hj => ?_
  rw [page_address hD hd (by omega), page_hash hD hd (by omega)]
  exact ⟨hD.nonzero _ (List.getElem_mem _), hno j (by omega) hj⟩

/-- A name that is there is found at its entry. -/
theorem scan_found (hnd : (es.map FileEntry.hash).Nodup) (hi : i < es.length) (hh : es[i].hash = h) :
    scan (fs.fileRead (sector d) 4).page h DIR_FILE_PTRS 0 = some i := by
  have hlen := hD.length_le
  -- two entries with one hash would be the same entry
  have hfirst : ∀ j (hj : j < es.length), j < i → es[j].hash ≠ h := by
    intro j hj hji heq
    have hget : (es.map FileEntry.hash).get ⟨j, by simpa using hj⟩ =
        (es.map FileEntry.hash).get ⟨i, by simpa using hi⟩ := by simpa using heq.trans hh.symm
    have hinj := List.nodup_iff_injective_get.mp hnd hget
    exact absurd (Fin.mk.inj hinj) (by omega)
  rw [scan_to hD hd hi.le hfirst, show DIR_FILE_PTRS - i = DIR_FILE_PTRS - i - 1 + 1 by omega, scan,
    page_address hD hd hi, page_hash hD hd hi, if_neg (hD.nonzero _ (List.getElem_mem _)),
    if_pos hh]

/-- Behind the entries comes a free one. -/
theorem page_end (hlen : es.length < DIR_FILE_PTRS) :
    (fs.fileRead (sector d) 4).page.u32 (DirectoryBlock.address es.length) = 0 := by
  rw [u32_read hd (by unfold DirectoryBlock.address; unfold DIR_FILE_PTRS at hlen; omega)]
  exact hD.terminated hlen

/-- A name that is not there ends the scan at the first free entry. -/
theorem scan_missing (hno : ∀ e ∈ es, e.hash ≠ h) (hlen : es.length < DIR_FILE_PTRS) :
    scan (fs.fileRead (sector d) 4).page h DIR_FILE_PTRS 0 = some es.length ∧
      (fs.fileRead (sector d) 4).page.u32 (DirectoryBlock.address es.length) = 0 := by
  have hzero := page_end hD hd hlen
  refine ⟨?_, hzero⟩
  rw [scan_to hD hd (Nat.le_refl _) fun j hj _ => hno _ (List.getElem_mem _),
    show DIR_FILE_PTRS - es.length = DIR_FILE_PTRS - es.length - 1 + 1 by omega, scan, if_pos hzero]

/-- In a full directory a name that is not there takes the scan out of the page. -/
theorem scan_full (hno : ∀ e ∈ es, e.hash ≠ h) (hlen : es.length = DIR_FILE_PTRS) :
    scan (fs.fileRead (sector d) 4).page h DIR_FILE_PTRS 0 = none := by
  rw [scan_to hD hd (Nat.le_refl _) fun j hj _ => hno _ (List.getElem_mem _), hlen, Nat.sub_self,
    scan]

end Scan

/-! ## The invariant

`Holds` is what requests rely on and what they keep. The lemmas behind it are the facts about
blocks that proofs need over and over. -/

/-- The disk stores the tree `T`. -/
structure Holds (T : Tree) (fs : NorlitFS) : Prop where
  free : WellFormed fs.disk
  root : fs.root ∈ T.files
  apart : (T.files ++ T.files.map T.data).Nodup
  file_used : ∀ f ∈ T.files, f ∈ blocks \ freeSet fs.disk
  data_used : ∀ f ∈ T.files, T.data f ∈ blocks \ freeSet fs.disk
  fileBlock : ∀ f ∈ T.files, FileAt fs.disk f (T.name f) (T.data f)
  directory : ∀ f ∈ T.files, T.dir f = true → DirectoryAt fs.disk (T.data f) (T.entries f)
  plain : ∀ f ∈ T.files, T.dir f = false → T.entries f = []
  hashes : ∀ f ∈ T.files, ((T.entries f).map FileEntry.hash).Nodup
  child : ∀ f ∈ T.files, ∀ e ∈ T.entries f, e.address ∈ T.files ∧
    e.hash = stringHash (T.name e.address)
  rooted : Rooted T.Edge fs.root
  referenced : ∀ g ∈ T.files, g ≠ fs.root → ∃ f h, T.Edge f h g

namespace Holds

variable (hT : Holds T fs)

include hT

theorem file_lt (hf : f ∈ T.files) : f < 2 ^ 30 := (hT.file_used f hf).1.2

theorem data_lt (hf : f ∈ T.files) : T.data f < 2 ^ 30 := (hT.data_used f hf).1.2

theorem edge_mem (h : T.Edge f n g) : g ∈ T.files := (hT.child f h.1 ⟨g, n⟩ h.2).1

theorem data_ne_file (hf : f ∈ T.files) (hg : g ∈ T.files) : T.data f ≠ g := by
  intro heq
  have hdisj := (List.nodup_append'.mp hT.apart).2.2
  exact hdisj hg (List.mem_map.mpr ⟨f, hf, heq⟩)

theorem data_inj (hf : f ∈ T.files) (hg : g ∈ T.files) (h : T.data f = T.data g) : f = g :=
  List.inj_on_of_nodup_map (List.nodup_append'.mp hT.apart).2.1 hf hg h

/-- A name leads to one file. -/
theorem edge_unique {g' : Nat} (h : T.Edge f n g) (h' : T.Edge f n g') : g = g' := by
  have hinj := List.inj_on_of_nodup_map (hT.hashes f h.1) h.2 h'.2 rfl
  exact congrArg FileEntry.address hinj

/-- `seekDataBlock` on a file of the tree. -/
theorem seek (hf : f ∈ T.files) : fs.seekDataBlock f offset =
    (if offset = 0 then T.data f else 0, fs.fileRead (sector f) 4) :=
  (hT.fileBlock f hf).seek (hT.file_lt hf) ((hT.data_lt hf).trans (by decide))

end Holds

end NorlitFS

end NorlitOS
