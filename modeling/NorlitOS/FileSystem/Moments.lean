import NorlitOS.FileSystem.Program
import NorlitOS.FileSystem.Volume

/-!
# The disk at every moment of a round

A round asks the disk several times, and the driver can be stopped between any two requests. Up to
the last one of a new file only free blocks and the list heads are written, so that what the
directories lead to is there at every moment; the entry of the new file is the last thing written. The
requests themselves stay inside the partition.
-/

namespace NorlitOS

open Dyadic

namespace FSProcess

open NorlitFS

variable {p : FSProcess} {fs fs₀ fs' : NorlitFS} {disk disk₀ disk' page : Bytes} {F : Set Nat}
  {I J : Bytes → Prop} {L : Nat → List Nat} {T T' : Tree} {C : Nat → Content}
  {V V₁ : Volume Nat Nat Content} {req : Nat × FileMessage} {α β : Type} {x : DiskCalls α} {a : α}
  {next : α → DiskCalls β} {name str : List UInt8} {msg : FileMessage}
  {b c d f g size offset count base len rt ret l2 i k proc : Nat}

/-! ## Requests inside the partition

`Keeps` is about all moments of a program at once: whenever it asks, the disk has the property,
and the request is for sectors of the partition. It composes along the program as its runs do. -/

/-- A request of the driver for sectors of a partition of `size` sectors. -/
structure Bounded (p : FSProcess) (size : Nat) (msg : FileMessage) : Prop where
  signature : msg.signature = COMMAND_HD
  command : msg.command = HD_READ ∨ msg.command = HD_WRITE
  handle : msg.handle = p.handle
  inside : msg.offset + msg.count ≤ size
  pos : 0 < msg.count
  few : msg.count ≤ 4

/-- Whenever the program asks, the disk has `I` and the request stays inside the partition. -/
def Keeps (p : FSProcess) (size : Nat) (I : Bytes → Prop) (x : DiskCalls α) (disk : Bytes) : Prop :=
  x.Safe (Calls.Answers partition) (fun disk msg => I disk ∧ p.Bounded size msg) disk

/-- A weaker property holds at every moment too. -/
theorem Keeps.mono (hIJ : ∀ disk, I disk → J disk) (h : p.Keeps size I x disk) :
    p.Keeps size J x disk :=
  Calls.Safe.mono (fun disk _ hI => ⟨hIJ disk hI.1, hI.2⟩) h

/-- One program behind another, from the disk that the first one leaves. -/
theorem Keeps.seq (h : p.Keeps size I x disk) (hrun : x.run partition disk = .ok (a, disk'))
    (hf : p.Keeps size I (next a) disk') : p.Keeps size I (x >>= next) disk :=
  Calls.Safe.seq h hrun hf

/-- A program that does not ask keeps anything. -/
theorem keeps_pure : p.Keeps size I (pure a : DiskCalls α) disk := trivial

/-- The sectors from `offset` on are in the partition. -/
structure Sectors (size offset count : Nat) : Prop where
  inside : offset + count ≤ size
  pos : 0 < count
  few : count ≤ 4

theorem keeps_fileRead (hI : I disk) (h : Sectors size offset count) :
    p.Keeps size I (p.fileRead offset count page) disk :=
  ⟨⟨hI, rfl, Or.inl rfl, rfl, h.inside, h.pos, h.few⟩, fun _ _ _ => trivial⟩

/-- One write; the disk it leaves is that of the next moment. -/
theorem keeps_fileWrite (hI : I disk) (h : Sectors size offset count) :
    p.Keeps size I (p.fileWrite offset count page) disk :=
  ⟨⟨hI, rfl, Or.inr rfl, rfl, h.inside, h.pos, h.few⟩, fun _ _ _ => trivial⟩

/-- A block that fits has its four sectors in the partition. -/
theorem sectors_of_fits (h : Fits size b) (hlt : b < 2 ^ 30) : Sectors size (sector b) 4 := by
  unfold Fits at h
  unfold sector
  rw [Nat.mod_eq_of_lt (by omega)]
  exact ⟨by omega, by decide, Nat.le_refl 4⟩

/-- Its first sector. -/
theorem sector_of_fits (h : Fits size b) (hlt : b < 2 ^ 30) : Sectors size (sector b) 1 := by
  have hin := (sectors_of_fits h hlt).inside
  exact ⟨by omega, by decide, by decide⟩

/-- The super block is in every partition. -/
theorem sectors_super (h : 4 ≤ size) : Sectors size 1 1 := ⟨by omega, by decide, by decide⟩

/-! ## The free lists

All moments of the edits of the lists. What changes on the disk are the super block and free
blocks, so that everything else is `Untouched` at each of them. -/

/-- A write of the super block that changes the counter and the heads only. -/
theorem untouched_super (hpage : ∀ i < 512, (i < 16 ∨ 100 ≤ i) → page i = disk (512 + i)) :
    Untouched F disk (page.copy 0 disk (SECTOR_SIZE * 1) (SECTOR_SIZE * 1)) := by
  intro i hi _
  unfold SECTOR_SIZE
  by_cases hin : 512 * 1 ≤ i ∧ i < 512 * 1 + 512 * 1
  · rw [Bytes.copy_of_mem hin.1 hin.2, hpage _ (by omega) (by omega),
      show 512 + (0 + (i - 512 * 1)) = i by omega]
  · exact Bytes.copy_of_notMem (by omega)

section Lists

variable (hsize : 4 ≤ size) (hI : Untouched F disk₀ fs.disk)

include hsize hI

/-- An extent is given back with two writes. -/
theorem keeps_freeBlock (hlen : len < 20) (hlt : base < 2 ^ 30) (hfit : Fits size base) :
    p.Keeps size (Untouched F disk₀) (p.freeBlock base len fs.page) fs.disk := by
  have hsuper := sectors_super hsize
  unfold freeBlock
  refine (keeps_fileRead hI hsuper).seq run_fileRead ?_
  refine (keeps_fileWrite hI hsuper).seq run_fileWrite ?_
  -- the head points to the extent already, its link is not yet written
  refine keeps_fileWrite (hI.trans (untouched_super fun i hi hout => ?_)) (sector_of_fits hfit hlt)
  rw [Bytes.setU32_of_notMem (by unfold SuperBlock.freeBlock; omega),
    Bytes.setU32_of_notMem (by unfold SuperBlock.freeSize; omega),
    Bytes.copy_of_mem (Nat.zero_le i) (by unfold SECTOR_SIZE; omega)]
  rfl

omit hI in
/-- An extent is taken off with a read and a write. -/
theorem keeps_unlink (hI : I fs.disk) (hlt : ret < 2 ^ 30) (hfit : Fits size ret) :
    p.Keeps size I (p.unlink len ret fs.page) fs.disk := by
  have hsuper := sectors_super hsize
  unfold unlink
  refine (keeps_fileRead hI (sector_of_fits hfit hlt)).seq run_fileRead ?_
  refine (keeps_fileRead hI hsuper).seq run_fileRead ?_
  exact keeps_fileWrite hI hsuper

variable (hF : F ⊆ blocks) (hfits : ∀ b ∈ F, Fits size b)

include hF hfits

/-- The halves go back one after the other. -/
theorem keeps_freeHalves (hl2 : l2 ≤ 20) (ha : 2 ^ l2 ∣ rt) (hin : block l2 rt ⊆ F) :
    p.Keeps size (Untouched F disk₀) (p.freeHalves rt len l2 fs.page) fs.disk := by
  induction l2 generalizing fs with
  | zero => exact keeps_pure
  | succ l2 ih =>
    rw [freeHalves]
    split
    -- the upper half is given back and the lower one goes on
    · obtain ⟨hunion, -⟩ := block_halves ha
      have hlo : block l2 rt ⊆ F := (hunion ▸ Set.subset_union_left).trans hin
      have hhi : rt + 2 ^ l2 ∈ F := by
        apply hin
        rw [hunion]
        exact Or.inr (self_mem_block l2 _)
      have hlt := (hF hhi).2
      have hadd : add32 rt (2 ^ l2) = rt + 2 ^ l2 := add32_of_lt (by omega)
      rw [hadd]
      refine (keeps_freeBlock hsize hI (by omega) hlt (hfits _ hhi)).seq run_freeBlock ?_
      exact ih (hI.trans (freeBlock_untouched (by omega) hhi hlt)) (by omega)
        ((pow_dvd_pow 2 (Nat.le_succ l2)).trans ha) hlo
    · exact keeps_pure

/-- The whole of `mallocBlock`, from the search to the halves. -/
theorem keeps_mallocBlock (h : Ahead c fs.disk L) (hL : Extents.region L ⊆ F) (hlen : len < 20) :
    p.Keeps size (Untouched F disk₀) (p.mallocBlock len fs.page) fs.disk := by
  have hsuper := sectors_super hsize
  have hread : Untouched F disk₀ (fs.fileRead 1 1).disk := hI
  -- the head of a list is a free block
  have hhead : ∀ k < 20, ∀ ret l, L k = ret :: l → ret ∈ F ∧ block k ret ⊆ F ∧ 2 ^ k ∣ ret := by
    intro k _ ret l hl
    have hmem : ret ∈ L k := hl ▸ List.mem_cons_self
    have hsub := (Extents.block_subset_region hmem).trans hL
    exact ⟨hsub (self_mem_block k ret), hsub, h.extents.aligned k ret hmem⟩
  unfold mallocBlock
  refine (keeps_fileRead hI hsuper).seq run_fileRead ?_
  rw [show fs.disk.copy (SECTOR_SIZE * 1) fs.page 0 (SECTOR_SIZE * 1) = (fs.fileRead 1 1).page
    from rfl, show fs.disk = (fs.fileRead 1 1).disk from rfl]
  dsimp only
  simp only [page_freeBlock hlen]
  cases hl : L len with
  | cons ret l =>
    obtain ⟨hmem, -, -⟩ := hhead len hlen ret l hl
    rw [h.head_eq hlen hl, if_neg (hF hmem).1.ne']
    exact (keeps_unlink hsize hread (hF hmem).2 (hfits _ hmem)).seq run_unlink keeps_pure
  | nil =>
    rw [if_pos ((h.head_eq_zero_iff hlen).mpr hl)]
    cases hfind : (List.range' (len + 1) (19 - len)).find? fun l2 =>
        decide ((fs.fileRead 1 1).page.u32 (SuperBlock.freeBlock l2) ≠ 0) with
    | none => exact keeps_pure
    | some l2 =>
      -- a larger extent is taken, and its upper halves go back
      have hmem := List.mem_range'_1.mp (List.mem_of_find?_eq_some hfind)
      have hk : l2 < 20 := by omega
      have hne := List.find?_some hfind
      simp only [page_freeBlock hk, decide_eq_true_eq] at hne
      obtain ⟨rt, l, hl2⟩ := List.exists_cons_of_ne_nil
        fun hnil => hne ((h.head_eq_zero_iff hk).mpr hnil)
      obtain ⟨hrt, hblock, ha⟩ := hhead l2 hk rt l hl2
      simp only [page_freeBlock hk, h.head_eq hk hl2]
      refine (keeps_unlink hsize hread (hF hrt).2 (hfits _ hrt)).seq run_unlink ?_
      have hI' : Untouched F disk₀ ((fs.fileRead 1 1).unlink l2 rt).disk :=
        hread.trans (unlink_untouched hk)
      exact (keeps_freeHalves hsize hI' hF hfits hk.le ha hblock).seq run_freeHalves keeps_pure

/-! ## A new file

The blocks of a new file were free, so that whatever is written into them can not be seen from the
directories. Only the entry in its directory makes it a file. -/

omit hsize in
/-- The block of its data is wiped, and then its own is written. -/
theorem keeps_writeFile (hg : g < 2 ^ 30) (hgfits : Fits size g) (hd : d ∈ F) :
    p.Keeps size (Untouched F disk₀) (p.writeFile name g d fs.page) fs.disk := by
  have hlt := (hF hd).2
  unfold writeFile
  refine (keeps_fileWrite hI (sectors_of_fits (hfits d hd) hlt)).seq run_fileWrite ?_
  refine keeps_fileWrite (hI.trans fun i _ hi => ?_) (sectors_of_fits hgfits hg)
  have hother : ((fs.memset 0 2048).fileWrite (sector d) 4).disk i = fs.disk i :=
    disk_write_other hlt fun heq => hi (heq ▸ hd)
  exact hother

/-- Two blocks are taken and written. -/
theorem keeps_createFileBlock (h : Ahead c fs.disk L) (hL : Extents.region L ⊆ F)
    (hspace : 2 ≤ Extents.total 20 L) :
    p.Keeps size (Untouched F disk₀) (p.createFileBlock name fs.page) fs.disk := by
  -- the first of the two blocks
  rcases mallocBlock_one h with ⟨-, htotal, -⟩ | ⟨L₁, hC⟩
  · omega
  have htotal := hC.total
  -- and the second one
  rcases mallocBlock_one hC.lists with ⟨-, htotal', -⟩ | ⟨L₂, hC'⟩
  · omega
  have hg := hL hC.mem
  have hL₁ : Extents.region L₁ ⊆ F := (hC.region ▸ Set.sdiff_subset).trans hL
  have hd := hL₁ hC'.mem
  have hI₁ : Untouched F disk₀ (fs.mallocBlock 0).2.disk := hI.trans (hC.untouched.mono hL)
  unfold createFileBlock
  refine (keeps_mallocBlock hsize hI hF hfits h hL (by decide)).seq run_mallocBlock ?_
  dsimp only [left]
  rw [if_neg (hF hg).1.ne']
  refine (keeps_mallocBlock hsize hI₁ hF hfits hC.lists hL₁ (by decide)).seq run_mallocBlock ?_
  dsimp only [left]
  exact (keeps_writeFile (hI₁.trans (hC'.untouched.mono hL₁)) hF hfits (hF hg).2 (hfits _ hg)
    hd).seq run_writeFile keeps_pure

end Lists

/-! ## The tree

What is needed of the disk so that its files can be found and read: the blocks of the tree and
nothing of the free lists. A driver that starts from such a disk finds every file. -/

/-- The disk stores the tree `T`, whatever is in its free lists. -/
structure Stored (T : Tree) (r : Nat) (disk : Bytes) : Prop where
  root : r ∈ T.files
  apart : (T.files ++ T.files.map T.data).Nodup
  file_mem : ∀ f ∈ T.files, f ∈ blocks
  data_mem : ∀ f ∈ T.files, T.data f ∈ blocks
  fileBlock : ∀ f ∈ T.files, FileAt disk f (T.name f) (T.data f)
  directory : ∀ f ∈ T.files, T.dir f = true → DirectoryAt disk (T.data f) (T.entries f)
  plain : ∀ f ∈ T.files, T.dir f = false → T.entries f = []
  hashes : ∀ f ∈ T.files, ((T.entries f).map FileEntry.hash).Nodup
  child : ∀ f ∈ T.files, ∀ e ∈ T.entries f, e.address ∈ T.files ∧
    e.hash = stringHash (T.name e.address)
  rooted : Rooted T.Edge r
  referenced : ∀ g ∈ T.files, g ≠ r → ∃ f h, T.Edge f h g

/-- The free blocks and the words of the lists are no part of the tree. -/
theorem stored_of_untouched (hT : Holds T fs) (h : Untouched (freeSet fs.disk) fs.disk disk) :
    Stored T fs.root disk := by
  have hsame : ∀ b ∈ blocks \ freeSet fs.disk, ∀ i, i / 2048 = b → disk i = fs.disk i := by
    intro b hb i hi
    have hpos := hb.1.1
    exact h i (Or.inr (by omega)) (hi ▸ hb.2)
  exact {
    root := hT.root
    apart := hT.apart
    file_mem := fun f hf => (hT.file_used f hf).1
    data_mem := fun f hf => (hT.data_used f hf).1
    fileBlock := fun f hf => (hT.fileBlock f hf).of_same (hsame f (hT.file_used f hf))
    directory := fun f hf hdir =>
      (hT.directory f hf hdir).of_same (hsame _ (hT.data_used f hf))
    plain := hT.plain
    hashes := hT.hashes
    child := hT.child
    rooted := hT.rooted
    referenced := hT.referenced }

/-- In the partition the disk stores the files of the volume `V`, whatever is in its free lists, and
starts as that of `fs₀`. -/
structure Standing (size : Nat) (V : Volume Nat Nat Content) (fs₀ : NorlitFS) (disk : Bytes) : Prop where
  header : ∀ i < 528, disk i = fs₀.disk i
  files : ∃ T, Stored T fs₀.root disk ∧ (∀ f ∈ T.files, Fits size f ∧ Fits size (T.data f)) ∧
    V.file = T.resolve fs₀.root ∧
      ∀ g ∈ T.files, T.entries g = [] → HasContent disk (T.data g) (V.content g)

/-- As long as only free blocks and the heads of the lists change, the files stand. -/
theorem standing_of_untouched (hsame : SameHeader fs₀ fs) (hT : Holds T fs) (hC : Contents fs T C)
    (hlies : Lies size T fs.disk) (h : Untouched (freeSet fs.disk) fs.disk disk) :
    Standing size (hT.volume C) fs₀ disk := by
  refine ⟨fun i hi => ?_, T, hsame.root ▸ stored_of_untouched hT h,
    fun f hf => ⟨hlies.file f hf, hlies.data f hf⟩, ?_, fun g hg hleaf i hi => ?_⟩
  · have hzero : i / 2048 = 0 := by omega
    rw [h i (Or.inl hi) (hzero ▸ hT.free.zero_notMem)]
    exact hsame.disk i hi
  · rw [← hsame.root]
    rfl
  · have hused := hT.data_used g hg
    have hpos := hused.1.1
    have hblock : disk (2048 * T.data g + i) = fs.disk (2048 * T.data g + i) := by
      apply h _ (Or.inr (by omega))
      rw [show (2048 * T.data g + i) / 2048 = T.data g by omega]
      exact hused.2
    exact hblock.trans (hC g hg hleaf i hi)

/-! ## Opening a path -/

section Directory

variable (hT : Holds T fs) (hf : f ∈ T.files) (hlies : Lies size T fs.disk)

include hT hf hlies

/-- The directory of `f` is read first. -/
theorem keeps_openName_of_directory (hI : I fs.disk) (hrest : p.Keeps size I
      (match scan (fs.readDirectory T f).page (stringHash str) DIR_FILE_PTRS 0 with
        | none => .fail .wild
        | some i =>
          if (fs.readDirectory T f).page.u32 (DirectoryBlock.address i) = 0 then
            p.addEntry (T.data f) i str (fs.readDirectory T f).page
          else pure ((fs.readDirectory T f).page.u32 (DirectoryBlock.address i),
            (fs.readDirectory T f).page)) fs.disk) :
    p.Keeps size I (p.openName f str fs.page) fs.disk := by
  unfold openName
  refine Keeps.seq ?_ run_seekDataBlock ?_
  · unfold seekDataBlock
    exact (keeps_fileRead hI (sectors_of_fits (hlies.file f hf) (hT.file_lt hf))).seq run_fileRead keeps_pure
  · rw [hT.seek hf, if_pos rfl]
    exact (keeps_fileRead hI (sectors_of_fits (hlies.data f hf) (hT.data_lt hf))).seq run_fileRead hrest

/-- The new file is written in free blocks, and after it the entry. -/
theorem keeps_addEntry (hspace : 2 ≤ fs.disk.u32 counterAt) :
    p.Keeps size (Untouched (freeSet fs.disk) fs.disk) (p.addEntry (T.data f) i str fs.page)
      fs.disk := by
  have hsize := hlies.size_le hf
  have hdata := sectors_of_fits (hlies.data f hf) (hT.data_lt hf)
  obtain ⟨L, hL⟩ := hT.free
  rw [hL.counter] at hspace
  have hset := hL.freeSet_eq
  have hF : freeSet fs.disk ⊆ blocks := fun b hb => hT.free.mem_blocks hb
  obtain ⟨d, L', hB⟩ := createFileBlock_built str (freeLists_iff.mp hL) hspace
  have hI : Untouched (freeSet fs.disk) fs.disk (fs.createFileBlock str).2.disk :=
    hset ▸ hB.untouched
  unfold addEntry
  refine (keeps_createFileBlock hsize Untouched.refl hF hlies.free (freeLists_iff.mp hL)
    hset.symm.subset hspace).seq run_createFileBlock ?_
  dsimp only [left]
  refine (keeps_fileRead hI hdata).seq run_fileRead ?_
  exact (keeps_fileWrite hI hdata).seq run_fileWrite keeps_pure

/-- A name that is there: nothing is written. -/
theorem keeps_found (hdir : T.dir f = true) (hE : T.Edge f (stringHash str) g) (hI : I fs.disk) :
    p.Keeps size I (p.openName f str fs.page) fs.disk := by
  have hD : DirectoryAt (fs.fileRead (sector f) 4).disk (T.data f) (T.entries f) :=
    hT.directory f hf hdir
  obtain ⟨i, hi, hentry⟩ := List.getElem_of_mem hE.2
  have hscan := scan_found hD (hT.data_lt hf) (hT.hashes f hf) hi (by rw [hentry])
  have haddr := page_address hD (hT.data_lt hf) hi
  rw [hentry] at haddr
  apply keeps_openName_of_directory hT hf hlies hI
  unfold readDirectory
  rw [hscan]
  dsimp only
  rw [haddr, if_neg (hD.nonzero _ hE.2)]
  exact keeps_pure

/-- A name that is not there: until its entry is written, only free blocks and the list heads are. -/
theorem keeps_made (hdir : T.dir f = true) (hno : ∀ e ∈ T.entries f, e.hash ≠ stringHash str)
    (hlen : (T.entries f).length < DIR_FILE_PTRS) (hspace : 2 ≤ fs.disk.u32 counterAt) :
    p.Keeps size (Untouched (freeSet fs.disk) fs.disk) (p.openName f str fs.page) fs.disk := by
  have hD : DirectoryAt (fs.fileRead (sector f) 4).disk (T.data f) (T.entries f) :=
    hT.directory f hf hdir
  obtain ⟨hscan, hzero⟩ := scan_missing hD (hT.data_lt hf) hno hlen
  have hread : Holds T (fs.readDirectory T f) := hT.of_disk readDirectory_disk readDirectory_root
  have hadd : p.Keeps size (Untouched (freeSet fs.disk) fs.disk)
      (p.addEntry (T.data f) (T.entries f).length str (fs.readDirectory T f).page) fs.disk :=
    keeps_addEntry hread hf hlies hspace
  apply keeps_openName_of_directory hT hf hlies Untouched.refl
  unfold readDirectory at hadd ⊢
  rw [hscan]
  dsimp only
  rw [if_pos hzero]
  exact hadd

end Directory

/-- One component. -/
theorem keeps_openName {w w' : Place} (hE : Enters w str w') (hw : w.Valid)
    (hlies : Lies size w.tree w.fs.disk) :
    p.Keeps size (Untouched (freeSet w.fs.disk) w.fs.disk) (p.openName w.file str w.fs.page)
      w.fs.disk := by
  cases hE with
  | found hdir hE => exact keeps_found hw.holds hw.mem hlies hdir hE Untouched.refl
  | made hdir hno hlen hG =>
    have hcounter := hG.counter
    exact keeps_made hw.holds hw.mem hlies hdir hno hlen (by
      dsimp only
      omega)

/-! ## Paths

The path loop is taken apart into its components, of which each opens one name. After any number
of them a prefix of the path has been opened. -/

/-- The path loop, component by component. -/
def openNames (p : FSProcess) (dirAddr : Nat) : List (List UInt8) → Bytes → DiskCalls (Nat × Bytes)
  | [], page => return (dirAddr, page)
  | str :: names, page => do
    let (dirAddr, page) ← p.openName dirAddr str page
    p.openNames dirAddr names page

/-- The loop over the characters is the loop over the components. -/
theorem walk_eq {q rest : List UInt8} (hq : ∀ c ∈ q, c ≠ 0) :
    p.walk f str (q ++ 0 :: rest) page = p.openNames f (components str q) page := by
  induction q generalizing page f str with
  | nil =>
    rw [List.nil_append, walk, if_pos rfl, components, openNames]
    exact Calls.bind_pure.symm
  | cons c q ih =>
    obtain ⟨hc, hq⟩ := List.forall_mem_cons.mp hq
    rw [List.cons_append, walk, if_neg hc, components]
    split
    · rw [openNames]
      exact congrArg (p.openName f str page >>= ·) (funext fun r => ih hq)
    · exact ih hq

/-- The path of a request is the list of its names. -/
theorem openPath_eq {data : Bytes} (h : Terminated data) :
    p.openPath data page = p.openNames p.root (names data) page := by
  unfold openPath
  rcases path_cases h with ⟨hzero, hnames⟩ | ⟨hne, q, rest, hbytes, hq, hnames⟩
  · rw [if_pos hzero, hnames, openNames]
  · rw [if_neg hne, hbytes, hnames]
    exact walk_eq hq

/-- A run of the program is a step of the model, name by name. -/
theorem run_openNames {names : List (List UInt8)} : (p.openNames f names fs.page).run partition fs.disk =
    (fs.openNames f names).map left := by
  induction names generalizing fs f with
  | nil => rfl
  | cons str names ih =>
    rw [openNames, NorlitFS.openNames, Calls.run_bind, run_openName]
    cases fs.openName f str with
    | error e => rfl
    | ok r => exact ih

/-- Part of the path `q` has been opened. -/
def Opening (size : Nat) (V : Volume Nat Nat Content) (q : List Nat) (fs₀ : NorlitFS)
    (disk : Bytes) : Prop :=
  ∃ q' h V₁, q' <+: q ∧ V.Opens volumeKind q' h V₁ ∧ Standing size V₁ fs₀ disk

/-- **Opening a path.** At every moment an initial part of it has been opened. Induction on the
components. -/
theorem keeps_openNames {w w' : Place} {names : List (List UInt8)} {q : List Nat}
    (hrun : Run Enters w names w') (hw : w.Valid) (hlies : Lies size w.tree w.fs.disk)
    (hq : w.tree.resolve w.fs.root q = some w.file) (hC : Contents w.fs w.tree C)
    (hO : V.Opens volumeKind q w.file (hw.holds.volume C)) (hsame : SameHeader fs₀ w.fs) :
    p.Keeps size (Opening size V (q ++ names.map stringHash) fs₀)
      (p.openNames w.file names w.fs.page) w.fs.disk := by
  induction hrun generalizing q C with
  | nil w => exact keeps_pure
  | @cons w w₁ w' str names first rest ih =>
    obtain ⟨C₁, hC₁, hO₁⟩ := opens_of_enters first hw hq hC
    have hrest := ih (first.valid hw) (first.lies hw hlies) hO₁.found hC₁ (hO.trans hO₁)
      (hsame.trans (first.header hw))
    rw [List.append_assoc] at hrest
    have hstep : (p.openName w.file str w.fs.page).run partition w.fs.disk =
        .ok (left (w₁.file, w₁.fs)) := by
      rw [run_openName, first.openName_eq hw]
      rfl
    refine Keeps.seq (Keeps.mono (fun disk hI => ?_) (keeps_openName first hw hlies)) hstep hrest
    exact ⟨q, w.file, _, List.prefix_append _ _, hO, standing_of_untouched hsame hw.holds hC hlies hI⟩

/-! ## Rounds

At every moment of a round the disk stores a volume in which the request is done in part. For a
path that may be any prefix of it; a write is one request to the disk. -/

/-- The request has been done in part: of a path, a first piece has been opened; a write is done as a
whole or not at all. -/
inductive Partly (V : Volume Nat Nat Content) :
    Volume.Request Nat Nat Content → Volume Nat Nat Content → Prop where
  | start (r : Volume.Request Nat Nat Content) : Partly V r V
  | openPath {q q' : List Nat} {h : Nat} {V₁ : Volume Nat Nat Content} (hpre : q' <+: q)
      (hO : V.Opens volumeKind q' h V₁) : Partly V (.openPath q) V₁
  | write {h : Nat} {c : Content} {V₁ : Volume Nat Nat Content} (hW : V.Writes h c V₁) :
      Partly V (.write h c) V₁

/-- The disk stores a volume in which the request has been done in part. -/
def Meanwhile (size : Nat) (V : Volume Nat Nat Content) (msg : FileMessage) (fs₀ : NorlitFS)
    (disk : Bytes) : Prop :=
  ∃ ask V₁, Means msg ask ∧ Partly V ask V₁ ∧ Standing size V₁ fs₀ disk

theorem standing_of_represents (hR : Represents size fs V) (hsame : SameHeader fs₀ fs) :
    Standing size V fs₀ fs.disk := by
  obtain ⟨T, C, hT, rfl, hC, hlies⟩ := hR
  exact standing_of_untouched hsame hT hC hlies Untouched.refl

/-- A request that has been done as a whole has been done in part. -/
theorem Partly.of_step {sent : FileMessage} (h : VolumeStep V req sent V₁) :
    ∃ ask, Means req.2 ask ∧ Partly V ask V₁ := by
  obtain ⟨ask, a, hmeans, -, hstep⟩ := h
  refine ⟨ask, hmeans, ?_⟩
  cases hstep with
  | openPath hO => exact .openPath (List.prefix_refl _) hO
  | read _ _ => exact .start _
  | write hW => exact .write hW

section Serve

variable (hroot : p.root = fs.root) (hR : Represents size fs V)

include hroot hR

/-- A round that opens a path. -/
theorem keeps_opens (hO : Opens req.2) (hroom : V.Room volumeKind (hashes req.2.data)) :
    p.Keeps size (Opening size V (hashes req.2.data) fs) (p.serve req.1 req.2 fs.page) fs.disk := by
  obtain ⟨T, C, hT, rfl, hC, hlies⟩ := hR
  obtain ⟨w', hrun⟩ := opens_run hT hroom
  have hw : Place.Valid ⟨fs, T, fs.root⟩ := ⟨hT, hT.root⟩
  obtain ⟨C', hC', hopens⟩ := opens_of_run (q := []) hrun hw rfl hC
  have hlast := (valid_of_run hrun hw).holds
  have hmem := (valid_of_run hrun hw).mem
  have hstep : (p.openNames fs.root (names req.2.data) fs.page).run partition fs.disk =
      .ok (left (w'.file, w'.fs)) := by
    rw [run_openNames, openNames_of_run hrun hw]
    rfl
  unfold serve
  rw [if_neg (not_not.mpr hO.signature), if_pos hO.command, if_neg (not_not.mpr hO.absolute),
    openPath_eq hO.terminated, hroot]
  refine Keeps.seq ?_ hstep ?_
  -- the walk, and the read of the file it ends at
  · exact keeps_openNames (q := []) hrun hw hlies rfl hC (.refl rfl) .refl
  · have hfits := (lies_of_run hrun hw hlies).file _ hmem
    have hstands := standing_of_untouched (header_of_run hrun hw) hlast hC'
      (lies_of_run hrun hw hlies) Untouched.refl
    refine (keeps_fileRead ?_ (sectors_of_fits hfits (hlast.file_lt hmem))).seq run_fileRead
      keeps_pure
    exact ⟨_, w'.file, _, List.prefix_refl _, hopens, hstands⟩

omit hroot in
/-- The file block and the data block of a file are read, whatever the offset. -/
theorem keeps_seek {q : List Nat} (hq : V.file q = some msg.handle) (hzero : msg.offset = 0) :
    p.Keeps size (Standing size V fs) (p.seekDataBlock msg.handle msg.offset fs.page) fs.disk ∧
      Sectors size (sector (fs.seekDataBlock msg.handle msg.offset).1) 4 := by
  have hstands := standing_of_represents hR .refl
  obtain ⟨T, C, hT, rfl, hC, hlies⟩ := hR
  have hmem := resolve_mem hT hq
  constructor
  · unfold seekDataBlock
    refine (keeps_fileRead hstands ?_).seq run_fileRead keeps_pure
    exact sectors_of_fits (hlies.file _ hmem) (hT.file_lt hmem)
  · rw [hT.seek hmem, if_pos hzero]
    exact sectors_of_fits (hlies.data _ hmem) (hT.data_lt hmem)

omit hroot in
/-- A round that reads. -/
theorem keeps_reads {q : List Nat} (hrd : Reads req.2) (hzero : req.2.offset = 0)
    (hq : V.file q = some req.2.handle) :
    p.Keeps size (Standing size V fs) (p.serve req.1 req.2 fs.page) fs.disk := by
  obtain ⟨hseek, hsectors⟩ := keeps_seek (p := p) hR hq hzero
  unfold serve
  rw [if_neg (not_not.mpr hrd.signature), if_neg (by rw [hrd.command]; decide), if_pos hrd.command]
  refine hseek.seq run_seekDataBlock ?_
  exact (keeps_fileRead (standing_of_represents hR .refl) hsectors).seq run_fileRead keeps_pure

omit hroot in
/-- A round that writes. -/
theorem keeps_writes {q : List Nat} (hW : Writes req.2) (hzero : req.2.offset = 0)
    (hq : V.file q = some req.2.handle) :
    p.Keeps size (Standing size V fs) (p.serve req.1 req.2 fs.page) fs.disk := by
  obtain ⟨hseek, hsectors⟩ := keeps_seek (p := p) hR hq hzero
  unfold serve
  rw [if_neg (not_not.mpr hW.signature), if_neg (by rw [hW.command]; decide),
    if_neg (by rw [hW.command]; decide), if_pos hW.command]
  refine hseek.seq run_seekDataBlock ?_
  exact (keeps_fileWrite (standing_of_represents hR .refl) hsectors).seq run_fileWrite keeps_pure

/-- **A round.** Whenever the driver asks, the request has been done in part. -/
theorem keeps_serve (hP : Permits V req) :
    p.Keeps size (Meanwhile size V req.2 fs) (p.serve req.1 req.2 fs.page) fs.disk := by
  obtain ⟨ask, hmeans, hallows⟩ := hP
  have hstart : ∀ disk, Standing size V fs disk → Meanwhile size V req.2 fs disk :=
    fun disk hstands => ⟨ask, V, hmeans, .start ask, hstands⟩
  -- the three kinds of requests, each with what its round writes
  cases hask : ask with
  | openPath q =>
    rw [hask] at hmeans hallows
    cases hmeans with
    | openPath hO =>
      refine (keeps_opens hroot hR hO hallows).mono fun disk hopening => ?_
      obtain ⟨q', h, V₁, hpre, hopens, hstands⟩ := hopening
      exact ⟨_, V₁, .openPath hO, .openPath hpre hopens, hstands⟩
  | read h =>
    rw [hask] at hmeans hallows
    cases hmeans with
    | read hrd hzero =>
      obtain ⟨q, hq⟩ := hallows
      exact (keeps_reads hR hrd hzero hq).mono hstart
  | write h c =>
    rw [hask] at hmeans hallows
    cases hmeans with
    | write hW hzero =>
      obtain ⟨q, hq, -⟩ := hallows
      exact (keeps_writes hR hW hzero hq).mono hstart

end Serve

end FSProcess

end NorlitOS
