import NorlitOS.FileSystem.Create

/-!
# Opening a name

`openName` looks one component up in a directory, and makes a file for it when it is not there.
Looking up leaves the disk alone. A new file is two blocks that were free, and one more entry at
the end of the directory: the tree grows by a leaf.
-/

namespace NorlitOS

/-- The tree with a new file `g` in the directory `f`. -/
def Tree.insert (T : Tree) (f g d : Nat) (name : List UInt8) : Tree where
  files := g :: T.files
  data := Function.update T.data g d
  name := Function.update T.name g name
  dir := Function.update T.dir g true
  entries := Function.update (Function.update T.entries g []) f
    (T.entries f ++ [⟨g, stringHash name⟩])

namespace NorlitFS

variable {fs fs' fs₁ : NorlitFS} {disk disk' : Bytes} {T T' : Tree} {f g d a b i n : Nat}
  {name : List UInt8} {es : List FileEntry}

theorem stringHash_lt : stringHash name < 2 ^ 32 := by
  unfold stringHash
  induction name using List.reverseRecOn with
  | nil => decide
  | append_singleton str c =>
    rw [List.foldl_append]
    exact Nat.mod_lt _ (by decide)

/-! ## Blocks that stay

A block whose bytes do not change holds what it held, whichever of the three kinds of contents
that is. -/

/-- The block of a file. -/
theorem FileAt.of_same (h : FileAt disk f name d)
    (hsame : ∀ i, i / 2048 = f → disk' i = disk i) : FileAt disk' f name d := by
  intro i hi
  rw [hsame _ (by omega)]
  exact h i hi

/-- A word of a block. -/
theorem u32_of_same (hsame : ∀ i, i / 2048 = b → disk' i = disk i) (hi : i + 4 ≤ 2048) :
    disk'.u32 (2048 * b + i) = disk.u32 (2048 * b + i) := by
  apply Bytes.u32_congr
  intro j hj
  exact hsame _ (by omega)

/-- The table of a directory. -/
theorem DirectoryAt.of_same (h : DirectoryAt disk d es)
    (hsame : ∀ i, i / 2048 = d → disk' i = disk i) : DirectoryAt disk' d es := by
  have hlen := h.length_le
  unfold DIR_FILE_PTRS at hlen
  refine ⟨h.length_le, fun i hi => ?_, fun i hi => ?_, h.nonzero, fun j hj hj' => ?_⟩
  · rw [u32_of_same hsame (by unfold DirectoryBlock.address; omega)]
    exact h.address i hi
  · rw [u32_of_same hsame (by unfold DirectoryBlock.hash; omega)]
    exact h.hash i hi
  · rw [hsame _ (by omega)]
    exact h.rest j hj hj'

/-- A block of zeroes is an empty directory. -/
theorem directoryAt_nil (h : ∀ i < 2048, disk (2048 * d + i) = 0) : DirectoryAt disk d [] where
  length_le := Nat.zero_le _
  address _ hi := absurd hi (Nat.not_lt_zero _)
  hash _ hi := absurd hi (Nat.not_lt_zero _)
  nonzero _ he := absurd he List.not_mem_nil
  rest j _ hj := h j hj

/-- Only the disk and the root matter. -/
theorem Holds.of_disk (hT : Holds T fs) (hdisk : fs'.disk = fs.disk) (hroot : fs'.root = fs.root) :
    Holds T fs' := by
  obtain ⟨disk', page', root'⟩ := fs'
  obtain rfl : disk' = fs.disk := hdisk
  obtain rfl : root' = fs.root := hroot
  exact { hT with }

/-! ## The tree grows

`Grown` says what a new file does to the disk, and `Holds.grow` that the disk then holds the tree
with one leaf more. The clauses of `Holds` are asked first of the new file, then of the old ones,
for which the new blocks being free before is what counts. -/

/-- On the disk of `fs'` there is a new file `g` in the directory `f`. -/
structure Grown (T : Tree) (fs : NorlitFS) (f g d : Nat) (name : List UInt8) (fs' : NorlitFS) :
    Prop where
  root : fs'.root = fs.root
  free : WellFormed fs'.disk
  file_mem : g ∈ freeSet fs.disk
  data_mem : d ∈ freeSet fs.disk
  ne : d ≠ g
  rest : freeSet fs'.disk = freeSet fs.disk \ {g, d}
  counter : fs'.disk.u32 counterAt + 2 = fs.disk.u32 counterAt
  fileBlock : FileAt fs'.disk g name d
  data : ∀ i < 2048, fs'.disk (2048 * d + i) = 0
  directory : DirectoryAt fs'.disk (T.data f) (T.entries f ++ [⟨g, stringHash name⟩])
  same : ∀ i, i / 2048 ∉ freeSet fs.disk → i / 2048 ≠ T.data f → (i < 528 ∨ 612 ≤ i) →
    fs'.disk i = fs.disk i

section Insert

variable (hf : f ∈ T.files) (hg : g ∉ T.files)

include hg

/-- The old files keep their data blocks. -/
theorem insert_data (ha : a ∈ T.files) : (T.insert f g d name).data a = T.data a :=
  Function.update_of_ne (ne_of_mem_of_not_mem ha hg) _ _

theorem insert_name (ha : a ∈ T.files) : (T.insert f g d name).name a = T.name a :=
  Function.update_of_ne (ne_of_mem_of_not_mem ha hg) _ _

/-- The old files stay directories, or plain. -/
theorem insert_dir (ha : a ∈ T.files) : (T.insert f g d name).dir a = T.dir a :=
  Function.update_of_ne (ne_of_mem_of_not_mem ha hg) _ _

theorem insert_entries (ha : a ∈ T.files) (haf : a ≠ f) :
    (T.insert f g d name).entries a = T.entries a := by
  unfold Tree.insert
  dsimp only
  rw [Function.update_of_ne haf, Function.update_of_ne (ne_of_mem_of_not_mem ha hg)]

omit hg in
/-- The directory gets the new entry at its end. -/
theorem insert_entries_self :
    (T.insert f g d name).entries f = T.entries f ++ [⟨g, stringHash name⟩] :=
  Function.update_self _ _ _

include hf

theorem insert_entries_new : (T.insert f g d name).entries g = [] := by
  unfold Tree.insert
  dsimp only
  rw [Function.update_of_ne (ne_of_mem_of_not_mem hf hg).symm, Function.update_self]

/-- The new tree has one edge more. -/
theorem insert_edge : (T.insert f g d name).Edge a n b ↔
    T.Edge a n b ∨ (a = f ∧ n = stringHash name ∧ b = g) := by
  unfold Tree.Edge
  change a ∈ g :: T.files ∧ _ ↔ _
  rw [List.mem_cons]
  rcases eq_or_ne a f with rfl | haf
  · rw [insert_entries_self, List.mem_append, List.mem_singleton, FileEntry.mk.injEq]
    simp only [hf, or_true, true_and]
    tauto
  · rcases eq_or_ne a g with rfl | hag
    · rw [insert_entries_new hf hg]
      simp [haf, hg]
    · constructor
      · intro h
        have ha := h.1.resolve_left hag
        exact Or.inl ⟨ha, insert_entries hg ha haf ▸ h.2⟩
      · intro h
        cases h with
        | inl h => exact ⟨Or.inr h.1, (insert_entries hg h.1 haf).symm ▸ h.2⟩
        | inr h => exact absurd h.1 haf

end Insert

section Grow

variable (hG : Grown T fs f g d name fs')

include hG

/-- The block of the new file was free, so no file had it. -/
theorem Grown.file_notMem (hT : Holds T fs) : g ∉ T.files := fun h => (hT.file_used g h).2 hG.file_mem

theorem Grown.data_notMem (hT : Holds T fs) (ha : a ∈ T.files) : T.data a ≠ g ∧ T.data a ≠ d ∧ a ≠ g ∧ a ≠ d := by
  have hfile := (hT.file_used a ha).2
  have hdata := (hT.data_used a ha).2
  exact ⟨fun heq => hdata (heq ▸ hG.file_mem), fun heq => hdata (heq ▸ hG.data_mem),
    fun heq => hfile (heq ▸ hG.file_mem), fun heq => hfile (heq ▸ hG.data_mem)⟩

/-- Blocks in use but for the directory stay. -/
theorem Grown.same_block (hb : b ∈ blocks \ freeSet fs.disk) (hne : b ≠ T.data f) :
    ∀ i, i / 2048 = b → fs'.disk i = fs.disk i := by
  intro i hi
  have hpos := hb.1.1
  exact hG.same i (hi ▸ hb.2) (hi ▸ hne) (Or.inr (by omega))

theorem Grown.still_used (hb : b ∈ blocks \ freeSet fs.disk) : b ∈ blocks \ freeSet fs'.disk :=
  ⟨hb.1, fun h => hb.2 (hG.rest ▸ h).1⟩

theorem Grown.new_used (hT : Holds T fs) : g ∈ blocks \ freeSet fs'.disk ∧ d ∈ blocks \ freeSet fs'.disk := by
  rw [hG.rest]
  exact ⟨⟨hT.free.mem_blocks hG.file_mem, fun h => h.2 (Or.inl rfl)⟩,
    ⟨hT.free.mem_blocks hG.data_mem, fun h => h.2 (Or.inr rfl)⟩⟩

/-- The two new blocks were free, the old ones were not. -/
theorem Grown.apart (hT : Holds T fs) :
    ((T.insert f g d name).files ++ (T.insert f g d name).files.map (T.insert f g d name).data).Nodup := by
  have hg := hG.file_notMem hT
  have hself : (T.insert f g d name).data g = d := Function.update_self _ _ _
  have hmap : T.files.map (T.insert f g d name).data = T.files.map T.data :=
    List.map_congr_left fun a ha => insert_data hg ha
  -- :: the files, then their data blocks, with `g` and `d` each at the head of its part
  change (g :: (T.files ++ List.map _ (g :: T.files))).Nodup
  rw [List.map_cons, hself, hmap, List.nodup_cons, List.nodup_middle, List.nodup_cons]
  refine ⟨?_, ?_, hT.apart⟩
  · rw [List.mem_append, List.mem_cons]
    intro h
    rcases h with h | h | h
    · exact hg h
    · exact hG.ne h.symm
    · obtain ⟨a, ha, heq⟩ := List.mem_map.mp h
      exact (hG.data_notMem hT ha).1 heq
  · rw [List.mem_append]
    intro h
    rcases h with h | h
    · exact (hG.data_notMem hT h).2.2.2 rfl
    · obtain ⟨a, ha, heq⟩ := List.mem_map.mp h
      exact (hG.data_notMem hT ha).2.1 heq

omit hG in
/-- The new name is not in the directory yet. -/
theorem insert_hashes (hT : Holds T fs) (hf : f ∈ T.files) (hg : g ∉ T.files)
    (hno : ∀ e ∈ T.entries f, e.hash ≠ stringHash name) (ha : a ∈ T.files) :
    (((T.insert f g d name).entries a).map FileEntry.hash).Nodup := by
  rcases eq_or_ne a f with rfl | haf
  · rw [insert_entries_self, List.map_append, List.map_cons, List.map_nil]
    refine List.nodup_append'.mpr ⟨hT.hashes _ hf, List.nodup_singleton _, ?_⟩
    rw [List.disjoint_singleton]
    intro h
    obtain ⟨e, he, heq⟩ := List.mem_map.mp h
    exact hno e he heq
  · rw [insert_entries hg ha haf]
    exact hT.hashes a ha

/-- The directory of an old file, with the new entry when the file is `f`. -/
theorem Grown.directoryAt (hT : Holds T fs) (hf : f ∈ T.files) (ha : a ∈ T.files)
    (hd : T.dir a = true) : DirectoryAt fs'.disk (T.data a) ((T.insert f g d name).entries a) := by
  rcases eq_or_ne a f with rfl | haf
  · rw [insert_entries_self]
    exact hG.directory
  · rw [insert_entries (hG.file_notMem hT) ha haf]
    exact (hT.directory a ha hd).of_same (hG.same_block (hT.data_used a ha)
      fun heq => haf (hT.data_inj ha hf heq))

/-- **Growing.** The new disk stores the new tree. -/
theorem Holds.grow (hT : Holds T fs) (hf : f ∈ T.files) (hdir : T.dir f = true)
    (hno : ∀ e ∈ T.entries f, e.hash ≠ stringHash name) : Holds (T.insert f g d name) fs' := by
  have hg := hG.file_notMem hT
  have hself : (T.insert f g d name).data g = d := Function.update_self _ _ _
  have hname : (T.insert f g d name).name g = name := Function.update_self _ _ _
  have hedge : ∀ {a n b}, (T.insert f g d name).Edge a n b ↔
      T.Edge a n b ∨ (a = f ∧ n = stringHash name ∧ b = g) := insert_edge hf hg
  constructor
  -- every clause is asked of the new file `g` first, then of the old ones
  case free => exact hG.free
  case root =>
    rw [hG.root]
    exact List.mem_cons_of_mem g hT.root
  case apart => exact hG.apart hT
  case file_used =>
    intro a ha
    rcases List.mem_cons.mp ha with rfl | ha
    · exact (hG.new_used hT).1
    · exact hG.still_used (hT.file_used a ha)
  case data_used =>
    intro a ha
    rcases List.mem_cons.mp ha with rfl | ha
    · rw [hself]
      exact (hG.new_used hT).2
    · rw [insert_data hg ha]
      exact hG.still_used (hT.data_used a ha)
  case fileBlock =>
    intro a ha
    rcases List.mem_cons.mp ha with rfl | ha
    · rw [hself, hname]
      exact hG.fileBlock
    · rw [insert_data hg ha, insert_name hg ha]
      exact (hT.fileBlock a ha).of_same
        (hG.same_block (hT.file_used a ha) (hT.data_ne_file hf ha).symm)
  case directory =>
    intro a ha hd
    rcases List.mem_cons.mp ha with rfl | ha
    · rw [hself, insert_entries_new hf hg]
      exact directoryAt_nil hG.data
    · rw [insert_dir hg ha] at hd
      rw [insert_data hg ha]
      exact hG.directoryAt hT hf ha hd
  case plain =>
    intro a ha hd
    rcases List.mem_cons.mp ha with rfl | ha
    · exact insert_entries_new hf hg
    · rw [insert_dir hg ha] at hd
      have haf : a ≠ f := by
        rintro rfl
        exact Bool.false_ne_true (hd.symm.trans hdir)
      rw [insert_entries hg ha haf]
      exact hT.plain a ha hd
  case hashes =>
    intro a ha
    rcases List.mem_cons.mp ha with rfl | ha
    · rw [insert_entries_new hf hg]
      exact List.nodup_nil
    · exact insert_hashes hT hf hg hno ha
  case child =>
    intro a ha e he
    -- the only new edge goes from `f` to `g`
    have hnew := hedge.mp (show (T.insert f g d name).Edge a e.hash e.address from ⟨ha, he⟩)
    rcases hnew with hold | ⟨-, hhash, haddr⟩
    · obtain ⟨hmem, hhash⟩ := hT.child a hold.1 e hold.2
      rw [insert_name hg hmem]
      exact ⟨List.mem_cons_of_mem g hmem, hhash⟩
    · rw [hhash, haddr, hname]
      exact ⟨List.mem_cons_self, rfl⟩
  case rooted =>
    rw [hG.root]
    refine hT.rooted.insert ?_ ?_ hedge
    · rintro rfl
      exact hg hT.root
    · exact fun a n h => hg (hT.edge_mem h)
  case referenced =>
    intro b hb hne
    rw [hG.root] at hne
    rcases List.mem_cons.mp hb with rfl | hb
    · exact ⟨f, stringHash name, hedge.mpr (Or.inr ⟨rfl, rfl, rfl⟩)⟩
    · obtain ⟨a, n, h⟩ := hT.referenced b hb hne
      exact ⟨a, n, hedge.mpr (Or.inl h)⟩

end Grow

/-! ## `openName`

The directory is read into the page, which is then scanned. An entry with the hash is the file.
The first free entry is where a new file goes, and a full table without the hash leads the scan
behind the block. -/

/-- The directory of `f` in the page. -/
def readDirectory (fs : NorlitFS) (T : Tree) (f : Nat) : NorlitFS :=
  (fs.fileRead (sector f) 4).fileRead (sector (T.data f)) 4

theorem readDirectory_disk : (fs.readDirectory T f).disk = fs.disk := rfl

theorem readDirectory_root : (fs.readDirectory T f).root = fs.root := rfl

section OpenName

variable (hT : Holds T fs) (hf : f ∈ T.files) (hdir : T.dir f = true)

include hT hf

/-- What `openName` does, with the directory read through the tree. -/
theorem openName_eq : fs.openName f name =
    match scan (fs.readDirectory T f).page (stringHash name) DIR_FILE_PTRS 0 with
    | none => .error .wild
    | some i =>
      if (fs.readDirectory T f).page.u32 (DirectoryBlock.address i) = 0 then
        .ok ((fs.readDirectory T f).addEntry (T.data f) i name)
      else .ok ((fs.readDirectory T f).page.u32 (DirectoryBlock.address i),
        fs.readDirectory T f) := by
  unfold openName
  rw [hT.seek hf, if_pos rfl]
  rfl

include hdir

/-- A name that is there: its file, and nothing is written. -/
theorem openName_found (hE : T.Edge f (stringHash name) g) :
    fs.openName f name = .ok (g, fs.readDirectory T f) := by
  have hD : DirectoryAt (fs.fileRead (sector f) 4).disk (T.data f) (T.entries f) :=
    hT.directory f hf hdir
  obtain ⟨i, hi, hentry⟩ := List.getElem_of_mem hE.2
  have hscan := scan_found hD (hT.data_lt hf) (hT.hashes f hf) hi (by rw [hentry])
  have haddr := page_address hD (hT.data_lt hf) hi
  rw [hentry] at haddr
  have hne : g ≠ 0 := hD.nonzero _ hE.2
  rw [openName_eq hT hf]
  unfold readDirectory
  rw [hscan]
  dsimp only
  rw [haddr, if_neg hne]

/-- In a full directory, a name that is not there ends the driver. -/
theorem openName_full (hno : ∀ e ∈ T.entries f, e.hash ≠ stringHash name)
    (hlen : (T.entries f).length = DIR_FILE_PTRS) : fs.openName f name = .error .wild := by
  have hD : DirectoryAt (fs.fileRead (sector f) 4).disk (T.data f) (T.entries f) :=
    hT.directory f hf hdir
  rw [openName_eq hT hf]
  unfold readDirectory
  rw [scan_full hD (hT.data_lt hf) hno hlen]

/-- A name that is not there gets an entry behind the others. -/
theorem openName_missing (hno : ∀ e ∈ T.entries f, e.hash ≠ stringHash name)
    (hlen : (T.entries f).length < DIR_FILE_PTRS) : fs.openName f name =
      .ok ((fs.readDirectory T f).addEntry (T.data f) (T.entries f).length name) := by
  have hD : DirectoryAt (fs.fileRead (sector f) 4).disk (T.data f) (T.entries f) :=
    hT.directory f hf hdir
  obtain ⟨hscan, hzero⟩ := scan_missing hD (hT.data_lt hf) hno hlen
  rw [openName_eq hT hf]
  unfold readDirectory
  rw [hscan]
  dsimp only
  rw [if_pos hzero]

end OpenName

/-! ## The new entry

`addEntry` makes the two blocks first and writes the entry last. The directory's block is neither
of them, so writing it back keeps the file that was just made. -/

/-- The two stores of `addEntry`. -/
theorem DirectoryAt.append {fs₁ : NorlitFS} (hD : DirectoryAt fs₁.disk d es) (hd : d < 2 ^ 30)
    (hlen : es.length < DIR_FILE_PTRS) (hg : g ≠ 0) (hlt : g < 2 ^ 32) (hn : n < 2 ^ 32) :
    DirectoryAt ((((fs₁.fileRead (sector d) 4).store (DirectoryBlock.address es.length) g).store
      (DirectoryBlock.hash es.length) n).fileWrite (sector d) 4).disk d (es ++ [⟨g, n⟩]) := by
  have hlen' : (es ++ [(⟨g, n⟩ : FileEntry)]).length = es.length + 1 := by simp
  set fs₂ := ((fs₁.fileRead (sector d) 4).store (DirectoryBlock.address es.length) g).store
    (DirectoryBlock.hash es.length) n with hfs₂
  unfold DIR_FILE_PTRS at hlen
  have hword : ∀ i, i + 4 ≤ 2048 →
      (fs₂.fileWrite (sector d) 4).disk.u32 (2048 * d + i) = fs₂.page.u32 i :=
    fun i hi => u32_write hd hi
  -- the two words of the new entry, and those in front of it
  have haddr : fs₂.page.u32 (DirectoryBlock.address es.length) = g := by
    refine (Bytes.u32_setU32_of_ne ?_).trans (Bytes.u32_setU32 hlt)
    unfold DirectoryBlock.address DirectoryBlock.hash
    omega
  have hhash : fs₂.page.u32 (DirectoryBlock.hash es.length) = n := Bytes.u32_setU32 hn
  have hold : ∀ i, i + 4 ≤ 8 * es.length → fs₂.page.u32 i = fs₁.disk.u32 (2048 * d + i) := by
    intro i hi
    refine (Bytes.u32_setU32_of_ne ?_).trans ((Bytes.u32_setU32_of_ne ?_).trans
      (u32_read hd (by omega)))
    · unfold DirectoryBlock.hash
      omega
    · unfold DirectoryBlock.address
      omega
  refine ⟨?_, fun i hi => ?_, fun i hi => ?_, fun e he => ?_, fun j hj hj' => ?_⟩
  · unfold DIR_FILE_PTRS
    omega
  · rw [hword _ (by unfold DirectoryBlock.address; omega)]
    rcases Nat.lt_or_ge i es.length with hlt' | hge
    · rw [List.getElem_append_left hlt', hold _ (by unfold DirectoryBlock.address; omega)]
      exact hD.address i hlt'
    · obtain rfl : i = es.length := by omega
      rw [haddr, List.getElem_append_right (Nat.le_refl _)]
      simp
  · rw [hword _ (by unfold DirectoryBlock.hash; omega)]
    rcases Nat.lt_or_ge i es.length with hlt' | hge
    · rw [List.getElem_append_left hlt', hold _ (by unfold DirectoryBlock.hash; omega)]
      exact hD.hash i hlt'
    · obtain rfl : i = es.length := by omega
      rw [hhash, List.getElem_append_right (Nat.le_refl _)]
      simp
  · rcases List.mem_append.mp he with he | he
    · exact hD.nonzero e he
    · rw [List.mem_singleton.mp he]
      exact hg
  · -- behind the new entry the table is as it was
    rw [hlen'] at hj
    rw [disk_write hd hj']
    refine (Bytes.setU32_of_notMem ?_).trans ((Bytes.setU32_of_notMem ?_).trans
      ((page_read hd hj').trans (hD.rest j (by omega) hj')))
    · unfold DirectoryBlock.hash
      omega
    · unfold DirectoryBlock.address
      omega

variable (name) in
/-- **A new file.** With two free blocks, `addEntry` makes the tree grow by one file. -/
theorem addEntry_grown (hT : Holds T fs) (hf : f ∈ T.files) (hdir : T.dir f = true)
    (hlen : (T.entries f).length < DIR_FILE_PTRS) (hspace : 2 ≤ fs.disk.u32 counterAt) :
    ∃ d, Grown T fs f ((fs.readDirectory T f).addEntry (T.data f) (T.entries f).length name).1 d name
      ((fs.readDirectory T f).addEntry (T.data f) (T.entries f).length name).2 := by
  obtain ⟨d, hC⟩ := createFileBlock_created name (show WellFormed (fs.readDirectory T f).disk from hT.free)
    hspace
  have hroot : ((fs.readDirectory T f).createFileBlock name).2.root = fs.root := createFileBlock_root
  rw [readDirectory_disk] at hC
  set g := ((fs.readDirectory T f).createFileBlock name).1 with hg
  set fs₁ := ((fs.readDirectory T f).createFileBlock name).2 with hfs₁
  have hdef : (fs.readDirectory T f).addEntry (T.data f) (T.entries f).length name =
      (g, (((fs₁.fileRead (sector (T.data f)) 4).store
        (DirectoryBlock.address (T.entries f).length) g).store
        (DirectoryBlock.hash (T.entries f).length) (stringHash name)).fileWrite
        (sector (T.data f)) 4) := rfl
  set fs₂ := ((fs₁.fileRead (sector (T.data f)) 4).store
    (DirectoryBlock.address (T.entries f).length) g).store
    (DirectoryBlock.hash (T.entries f).length) (stringHash name) with hfs₂
  have hd := hT.data_lt hf
  have hused := hT.data_used f hf
  have hpos := hused.1.1
  have hgb := hT.free.mem_blocks hC.file_mem
  have hother : ∀ i, i / 2048 ≠ T.data f → (fs₂.fileWrite (sector (T.data f)) 4).disk i =
      fs₁.disk i := fun i hi => disk_write_other hd hi
  -- the directory is neither free nor one of the new blocks
  have hnotFree : T.data f ∉ freeSet fs₁.disk := fun h => hused.2 (hC.rest ▸ h).1
  have hne : ∀ b ∈ freeSet fs.disk, b ≠ T.data f := fun b hb heq => hused.2 (heq ▸ hb)
  have hsuper : ∀ i, 528 ≤ i → i < 612 → (fs₂.fileWrite (sector (T.data f)) 4).disk i =
      fs₁.disk i := fun i _ hi => hother i (by omega)
  have hfree : ∀ i, i / 2048 ∈ freeSet fs₁.disk → (fs₂.fileWrite (sector (T.data f)) 4).disk i =
      fs₁.disk i := fun i hi => hother i fun heq => hnotFree (heq ▸ hi)
  obtain ⟨hwf, hset, hcount⟩ := hC.free.of_same hsuper hfree
  have hD : DirectoryAt fs₁.disk (T.data f) (T.entries f) := by
    refine (hT.directory f hf hdir).of_same fun i hi => ?_
    exact hC.untouched i (Or.inr (by omega)) (hi ▸ hused.2)
  rw [hdef]
  dsimp only
  refine ⟨d, hroot, hwf, hC.file_mem, hC.data_mem, hC.ne, hset.trans hC.rest, ?_, ?_, ?_, ?_, ?_⟩
  · rw [hcount]
    exact hC.counter
  · exact hC.fileBlock.of_same fun i hi => hother i (hi ▸ hne g hC.file_mem)
  · intro i hi
    rw [hother _ (by
      rw [show (2048 * d + i) / 2048 = d by omega]
      exact hne d hC.data_mem)]
    exact hC.data i hi
  · exact hD.append hd hlen hgb.1.ne' (hgb.2.trans (by decide)) stringHash_lt
  · intro i hfree hi hsuper
    rw [hother i hi]
    exact hC.untouched i hsuper hfree

end NorlitFS

end NorlitOS
