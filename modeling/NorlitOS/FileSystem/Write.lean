import NorlitOS.FileSystem.Requests

/-!
# Writing to a file

The block table of a file lists extents; `seekDataBlock` looks for the one that covers an offset.
It returns the extent's first block, whatever the distance of the offset from it, and 0 when no
extent covers the offset; but 0 is also the block of the boot sector and the super block. So a write
lands in the block that covers its offset exactly when that block is the first of an extent.
-/

namespace NorlitOS

namespace NorlitFS

variable {fs fs' : NorlitFS} {disk disk' page : Bytes} {T : Tree} {msg : FileMessage}
  {a b f i n r file offset proc : Nat} {es : List (Nat × Nat)}

/-! ## Extents

The table of a file is a list of extents up to the first of size 0. `locate` finds the extent of
an offset as the source does, by taking sizes off. -/

/-- The entries of a block table from `i` on, up to the first of size 0. -/
def tableFrom (page : Bytes) (n i : Nat) : List (Nat × Nat) :=
  ((List.range' i n).map fun i =>
    (page.u32 (FileBlock.address i), page.u32 (FileBlock.extent i))).takeWhile fun e => e.2 ≠ 0

/-- The extents of a file: their first blocks and sizes. -/
def extents (disk : Bytes) (file : Nat) : List (Nat × Nat) :=
  tableFrom (fun i => disk (2048 * file + i)) DATA_BLOCK_PTRS 0

/-- The extent that an offset is in, and the distance from its first block. -/
def locate : List (Nat × Nat) → Nat → Option (Nat × Nat)
  | [], _ => none
  | (a, n) :: es, offset => if offset < n then some (a, offset) else locate es (offset - n)

/-- The first block of the extent, 0 where there is none. -/
def base (es : List (Nat × Nat)) (offset : Nat) : Nat := (locate es offset).elim 0 Prod.fst

/-- The block of a file that covers an offset. -/
def covering (disk : Bytes) (file offset : Nat) : Option Nat :=
  (locate (extents disk file) offset).map fun e => e.1 + e.2

/-- The blocks of a file are blocks of the partition, and none is the file block itself. -/
structure Placed (disk : Bytes) (file : Nat) : Prop where
  used : file ∈ blocks
  inside : ∀ e ∈ extents disk file, ∀ k < e.2, e.1 + k ∈ blocks ∧ e.1 + k ≠ file

/-- The extent is one of the table, and the offset is inside it. -/
theorem mem_of_locate (h : locate es offset = some (a, r)) : ∃ n, (a, n) ∈ es ∧ r < n := by
  induction es generalizing offset with
  | nil => exact nomatch h
  | cons e es ih =>
    rw [locate] at h
    split at h
    · obtain ⟨rfl, rfl⟩ := Prod.mk.inj (Option.some.inj h)
      exact ⟨e.2, List.mem_cons_self, ‹_›⟩
    · obtain ⟨n, hmem, hr⟩ := ih h
      exact ⟨n, List.mem_cons_of_mem e hmem, hr⟩

/-- `seekDataBlock` finds the extent. -/
theorem seek_eq : seek page n i offset = base (tableFrom page n i) offset := by
  induction n generalizing i offset with
  | zero => rfl
  | succ n ih =>
    unfold tableFrom
    rw [seek, List.range'_succ, List.map_cons]
    split
    · rw [List.takeWhile_cons_of_neg (by simpa using ‹_›)]
      rfl
    · rw [List.takeWhile_cons_of_pos (by simpa using ‹_›)]
      unfold base
      rw [locate]
      split
      · rfl
      · exact ih

/-- The table is part of the block. -/
theorem tableFrom_congr {page' : Bytes} (h : ∀ j < 2048, page j = page' j) (hn : i + n ≤ 128) :
    tableFrom page n i = tableFrom page' n i := by
  unfold tableFrom
  congr 1
  apply List.map_congr_left
  intro k hk
  have hk' := List.mem_range'_1.mp hk
  rw [Bytes.u32_congr fun j hj => h (FileBlock.address k + j) (by unfold FileBlock.address; omega),
    Bytes.u32_congr fun j hj => h (FileBlock.extent k + j) (by unfold FileBlock.extent; omega)]

/-- `seekDataBlock` returns the first block of the extent, or 0. -/
theorem seekDataBlock_eq (hlt : file < 2 ^ 30) :
    (fs.seekDataBlock file offset).1 = base (extents fs.disk file) offset := by
  unfold seekDataBlock
  dsimp only
  rw [seek_eq]
  unfold extents
  rw [tableFrom_congr (fun j hj => page_read hlt hj) (Nat.le_refl 128)]

/-- A file whose block stays keeps its extents. -/
theorem extents_congr (h : ∀ i, i / 2048 = file → disk' i = disk i) :
    extents disk' file = extents disk file := by
  apply tableFrom_congr _ (Nat.le_refl 128)
  intro j hj
  exact h _ (by omega)

/-- What is found is a block of the partition, but not the file block. -/
theorem Placed.base (h : Placed disk file) :
    base (extents disk file) offset < 2 ^ 30 ∧ base (extents disk file) offset ≠ file := by
  unfold NorlitFS.base
  cases hloc : locate (extents disk file) offset with
  | none => exact ⟨by decide, h.used.1.ne⟩
  | some e =>
    obtain ⟨n, hmem, hr⟩ := mem_of_locate (r := e.2) hloc
    obtain ⟨hin, hne⟩ := h.inside (e.1, n) hmem 0 (Nat.zero_lt_of_lt hr)
    exact ⟨hin.2, hne⟩

/-- The files of a tree have one block of data. -/
theorem Holds.extents (hT : Holds T fs) (hf : f ∈ T.files) :
    extents fs.disk f = [(T.data f, 1)] := by
  have hF := hT.fileBlock f hf
  obtain ⟨haddr, hone, hzero⟩ := fillFile_extents blank (T.name f)
    ((hT.data_lt hf).trans (by decide))
  have hpage : NorlitFS.extents fs.disk f =
      tableFrom (blank.fillFile (T.name f) (T.data f)).page DATA_BLOCK_PTRS 0 :=
    tableFrom_congr hF (Nat.le_refl 128)
  rw [hpage]
  unfold tableFrom
  rw [show DATA_BLOCK_PTRS = 126 + 1 + 1 from rfl, List.range'_succ, List.range'_succ,
    List.map_cons, List.map_cons, haddr, hone, hzero]
  simp

/-- The files of a tree have one extent each, their data block. -/
theorem Holds.placed (hT : Holds T fs) (hf : f ∈ T.files) : Placed fs.disk f where
  used := (hT.file_used f hf).1
  inside e he k hk := by
    rw [hT.extents hf, List.mem_singleton] at he
    subst he
    obtain rfl : k = 0 := Nat.lt_one_iff.mp hk
    exact ⟨(hT.data_used f hf).1, hT.data_ne_file hf hf⟩

/-! ## Read and write requests

Both requests seek first. A write puts the payload where the seek leads, so everything depends on
whether that is the block of the offset. -/

variable (proc) in
/-- A request to read is answered with the block that is found. -/
theorem serve_read (hR : Reads msg) (hP : Placed fs.disk msg.handle) : ∃ fs' answer,
    fs.serve proc msg = .ok (fs', [(proc, answer)]) ∧ ∀ i < 2048,
      answer.data i = fs.disk (2048 * base (extents fs.disk msg.handle) msg.offset + i) := by
  refine ⟨_, _, serve_reads hR, fun i hi => ?_⟩
  unfold reply
  dsimp only
  rw [Bytes.copy_of_mem (Nat.zero_le i) (by omega), Nat.zero_add, Nat.sub_zero,
    seekDataBlock_eq hP.used.2, page_read hP.base.1 hi]
  rfl

/-- A request to write. -/
structure Writes (msg : FileMessage) : Prop where
  signature : msg.signature = COMMAND_HD
  command : msg.command = HD_WRITE

/-- What a request to write leaves. -/
def written (fs : NorlitFS) (msg : FileMessage) : NorlitFS :=
  ((fs.seekDataBlock msg.handle msg.offset).2.memcpy 0 msg.data 2048).fileWrite
    (sector (fs.seekDataBlock msg.handle msg.offset).1) 4

/-- A request to write is answered always. -/
theorem serve_writes (hW : Writes msg) : fs.serve proc msg = .ok (fs.written msg, [(proc, msg)]) := by
  unfold serve
  rw [if_neg (not_not.mpr hW.signature), if_neg (by rw [hW.command]; decide),
    if_neg (by rw [hW.command]; decide), if_pos hW.command]
  rfl

section Written

variable (hP : Placed fs.disk msg.handle)

include hP

/-- The block written holds the payload. -/
theorem written_base (hi : i < 2048) :
    (fs.written msg).disk (2048 * base (extents fs.disk msg.handle) msg.offset + i) =
      msg.data i := by
  unfold written
  rw [seekDataBlock_eq hP.used.2, disk_write hP.base.1 hi]
  unfold memcpy
  dsimp only
  rw [Bytes.copy_of_mem (Nat.zero_le i) (by omega), Nat.zero_add, Nat.sub_zero]

/-- All other blocks stay. -/
theorem written_other (hi : i / 2048 ≠ base (extents fs.disk msg.handle) msg.offset) :
    (fs.written msg).disk i = fs.disk i := by
  unfold written
  rw [seekDataBlock_eq hP.used.2]
  exact disk_write_other hP.base.1 hi

/-- The block table is not the block written. -/
theorem written_extents : extents (fs.written msg).disk msg.handle = extents fs.disk msg.handle := by
  apply extents_congr
  intro i hi
  apply written_other hP
  rw [hi]
  exact hP.base.2.symm

/-- A read behind the write gives the payload. -/
theorem written_read {rd : FileMessage} (hR : Reads rd) (hhandle : rd.handle = msg.handle)
    (hoffset : rd.offset = msg.offset) : ∃ fs' answer,
      (fs.written msg).serve proc rd = .ok (fs', [(proc, answer)]) ∧
        ∀ i < 2048, answer.data i = msg.data i := by
  have hP' : Placed (fs.written msg).disk rd.handle := by
    rw [hhandle]
    refine ⟨hP.used, ?_⟩
    rw [written_extents hP]
    exact hP.inside
  obtain ⟨fs', answer, hok, hdata⟩ := serve_read proc hR hP'
  refine ⟨fs', answer, hok, fun i hi => ?_⟩
  rw [hdata i hi, hhandle, hoffset, written_extents hP]
  exact written_base hP hi

end Written

/-! ## Isolation

The block that is written is the right one exactly if the offset is the first of its extent, and
it is a block of the file at all exactly if some extent covers the offset. -/

/-- The request `msg` to write is answered; it changes only the block that covers its offset, and
where there is one, the payload can be read back. -/
def Isolated (fs : NorlitFS) (proc : Nat) (msg : FileMessage) : Prop :=
  ∃ fs', fs.serve proc msg = .ok (fs', [(proc, msg)]) ∧
    (∀ i, fs'.disk i ≠ fs.disk i → covering fs.disk msg.handle msg.offset = some (i / 2048)) ∧
    ((covering fs.disk msg.handle msg.offset).isSome → ∀ rd, Reads rd → rd.handle = msg.handle →
      rd.offset = msg.offset → ∃ fs'' answer, fs'.serve proc rd = .ok (fs'', [(proc, answer)]) ∧
        ∀ i < 2048, answer.data i = msg.data i)

/-- The offset is the first block of an extent of the file. -/
def Begins (disk : Bytes) (file offset : Nat) : Prop :=
  ∃ a, locate (extents disk file) offset = some (a, 0)

/-- The payload is there already: in the first block of the extent, or in block 0 where no extent
covers the offset. -/
def Present (disk : Bytes) (msg : FileMessage) : Prop :=
  ∀ i < 2048, disk (2048 * base (extents disk msg.handle) msg.offset + i) = msg.data i

/-- A block that is both found and covers the offset begins an extent. -/
theorem begins_of_covering (h : covering disk file offset = some b)
    (hb : b = base (extents disk file) offset) : Begins disk file offset := by
  unfold covering at h
  unfold base at hb
  unfold Begins
  cases hloc : locate (extents disk file) offset with
  | none =>
    rw [hloc] at h
    exact nomatch h
  | some e =>
    rw [hloc] at h hb
    have hsum : e.1 + e.2 = b := Option.some.inj h
    have hbase : b = e.1 := hb
    refine ⟨e.1, ?_⟩
    rw [show (0 : Nat) = e.2 by omega]

theorem Begins.covering (h : Begins disk file offset) :
    covering disk file offset = some (base (extents disk file) offset) := by
  obtain ⟨a, hloc⟩ := h
  unfold NorlitFS.covering base
  rw [hloc]
  rfl

section Isolated

variable (hW : Writes msg) (hP : Placed fs.disk msg.handle)

include hW hP

theorem Isolated.begins_or_present (h : fs.Isolated proc msg) :
    Begins fs.disk msg.handle msg.offset ∨ Present fs.disk msg := by
  obtain ⟨fs', hok, hframe, -⟩ := h
  obtain ⟨rfl, -⟩ := Prod.mk.inj (Except.ok.inj ((serve_writes hW).symm.trans hok))
  by_cases hbegins : Begins fs.disk msg.handle msg.offset
  · exact Or.inl hbegins
  · -- a byte that differs would be in the block that covers the offset
    refine Or.inr fun i hi => ?_
    by_contra hne
    have hcov := hframe (2048 * base (extents fs.disk msg.handle) msg.offset + i) (by
      rw [written_base hP hi]
      exact fun heq => hne heq.symm)
    exact hbegins (begins_of_covering hcov (by omega))

theorem isolated_of_frame
    (hframe : ∀ i, (fs.written msg).disk i ≠ fs.disk i →
      covering fs.disk msg.handle msg.offset = some (i / 2048)) : fs.Isolated proc msg :=
  ⟨fs.written msg, serve_writes hW, hframe,
    fun _ _ hR hhandle hoffset => written_read hP hR hhandle hoffset⟩

theorem Begins.isolated (h : Begins fs.disk msg.handle msg.offset) : fs.Isolated proc msg := by
  apply isolated_of_frame hW hP
  intro i hi
  rw [h.covering]
  by_contra hne
  exact hi (written_other hP fun heq => hne (congrArg some heq.symm))

theorem Present.isolated (h : Present fs.disk msg) : fs.Isolated proc msg := by
  apply isolated_of_frame hW hP
  intro i hi
  refine absurd ?_ hi
  by_cases hblock : i / 2048 = base (extents fs.disk msg.handle) msg.offset
  · have hsplit : i = 2048 * base (extents fs.disk msg.handle) msg.offset + i % 2048 := by
      rw [← hblock]
      omega
    have hlt : i % 2048 < 2048 := Nat.mod_lt i (by decide)
    rw [hsplit, written_base hP hlt]
    exact (h _ hlt).symm
  · exact written_other hP hblock

/-- **Writes are isolated** when they begin an extent or change nothing, and only then. -/
theorem write_isolated_iff :
    fs.Isolated proc msg ↔ Begins fs.disk msg.handle msg.offset ∨ Present fs.disk msg := by
  constructor
  · exact Isolated.begins_or_present hW hP
  · intro h
    cases h with
    | inl hbegins => exact hbegins.isolated hW hP
    | inr hpresent => exact hpresent.isolated hW hP

end Isolated

/-- The first byte of the partition. -/
theorem fresh_zero : fresh.disk 0 = 0 := by
  obtain ⟨hwf, height⟩ := fresh_space
  obtain ⟨d, hC⟩ := createFileBlock_created [36, 82, 111, 111, 116] hwf
    (by rw [height]; decide)
  have hcreated := hC.untouched 0 (Or.inl (by decide)) hwf.zero_notMem
  have hfreed : (blank.freeBlock 24 3).disk 0 = blank.disk 0 :=
    freeBlock_untouched (F := {24}) (by decide) (Set.mem_singleton 24) (by decide) 0
      (Or.inl (by decide)) (by simp)
  exact hcreated.trans hfreed

/-- A block of ones for block `offset` of the root. -/
def ones (offset : Nat) : FileMessage :=
  { request HD_WRITE offset fun _ => 1 with handle := fresh.root }

theorem write_isolated_iff_fresh : fresh.Isolated 7 (ones 0) ↔
    Begins fresh.disk fresh.root 0 ∨ Present fresh.disk (ones 0) := by
  obtain ⟨⟨T, hS⟩, -⟩ := fresh_stores
  exact write_isolated_iff ⟨rfl, rfl⟩ (hS.1.placed hS.1.root)

/-- The root is one block long; a write at offset 1 goes to block 0. -/
theorem not_isolated_fresh : ∃ T, fresh.Stores T ∧ fresh.root ∈ T.files ∧
    ¬ fresh.Isolated 7 (ones 1) := by
  obtain ⟨⟨T, hS⟩, -⟩ := fresh_stores
  refine ⟨T, hS, hS.1.root, fun h => ?_⟩
  have hnone : locate (extents fresh.disk fresh.root) 1 = none := by
    rw [hS.1.extents hS.1.root]
    rfl
  have hor := h.begins_or_present ⟨rfl, rfl⟩ (hS.1.placed hS.1.root)
  cases hor with
  | inl hbegins =>
    obtain ⟨a, hloc⟩ := hbegins
    exact nomatch hnone.symm.trans hloc
  | inr hpresent =>
    have hone := hpresent 0 (by decide)
    unfold base at hone
    rw [show locate (extents fresh.disk (ones 1).handle) (ones 1).offset = none from hnone] at hone
    have hzero := fresh_zero
    exact absurd (hzero.symm.trans hone) (by decide)

end NorlitFS

end NorlitOS
