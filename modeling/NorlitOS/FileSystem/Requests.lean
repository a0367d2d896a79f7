import NorlitOS.FileSystem.Open

/-!
# Sequences of requests

A request to open a path, or to read, finds a file system whose disk stores a tree of directories
and leaves one. `child` and `missing` say of the disk itself what a component leads to and how much
of a path there is; where the disk stores a tree they are the tree's own.
-/

namespace NorlitOS

namespace NorlitFS

variable {fs fs' : NorlitFS} {T T' : Tree} {f g h proc : Nat} {hs : List Nat} {msg : FileMessage}
  {name : List UInt8}

/-! ## The directories on the disk

These read the disk as the driver does, with no tree in mind, so that a condition on the state
before a request can be stated with them. The lemmas identify them with the tree's own notions. -/

/-- The directory of `f` as it is on the disk. -/
def directory (fs : NorlitFS) (f : Nat) : Bytes :=
  (fs.fileRead (sector (fs.seekDataBlock f 0).1) 4).page

/-- The file that the directory of `f` has under the hash `h`. -/
def child (fs : NorlitFS) (f h : Nat) : Option Nat :=
  match scan (fs.directory f) h DIR_FILE_PTRS 0 with
  | none => none
  | some i =>
    if (fs.directory f).u32 (DirectoryBlock.address i) = 0 then none
    else some ((fs.directory f).u32 (DirectoryBlock.address i))

/-- How many components of a path are not there. -/
def missing (fs : NorlitFS) (f : Nat) : List Nat → Nat
  | [] => 0
  | h :: hs =>
    match fs.child f h with
    | some g => fs.missing g hs
    | none => hs.length + 1

/-- The files that paths lead to. -/
inductive Reached (fs : NorlitFS) : Nat → Prop where
  | root : Reached fs fs.root
  | child {f g h : Nat} (hf : Reached fs f) (hg : fs.child f h = some g) : Reached fs g

/-- Every directory has fewer than 256 entries. -/
def Small (fs : NorlitFS) : Prop :=
  ∀ f, Reached fs f → ∃ i < DIR_FILE_PTRS, (fs.directory f).u32 (DirectoryBlock.address i) = 0

/-- The disk stores a tree, and every file of it is a directory. -/
def Stores (fs : NorlitFS) (T : Tree) : Prop := Holds T fs ∧ ∀ f ∈ T.files, T.dir f = true

section Tree

variable (hT : Holds T fs) (hf : f ∈ T.files)

include hT hf

/-- The directory is the data block of the file. -/
theorem directory_eq : fs.directory f = (fs.fileRead (sector (T.data f)) 4).page := by
  unfold directory
  rw [hT.seek hf, if_pos rfl]

/-- The scan finds the child in the tree. -/
theorem child_eq (hdir : T.dir f = true) : fs.child f h = T.child f h := by
  have hD := hT.directory f hf hdir
  have hd := hT.data_lt hf
  unfold child
  rw [directory_eq hT hf]
  cases hchild : T.child f h with
  | some g =>
    have hE := Tree.edge_of_child hf hchild
    obtain ⟨i, hi, hentry⟩ := List.getElem_of_mem hE.2
    rw [scan_found hD hd (hT.hashes f hf) hi (by rw [hentry])]
    dsimp only
    rw [page_address hD hd hi, hentry, if_neg (hD.nonzero _ hE.2)]
  | none =>
    have hno := Tree.child_eq_none hchild
    -- a scan without success ends behind the last entry, or at the end of the table
    rcases Nat.lt_or_eq_of_le hD.length_le with hlt | heq
    · obtain ⟨hscan, hzero⟩ := scan_missing hD hd hno hlt
      rw [hscan]
      exact if_pos hzero
    · rw [scan_full hD hd hno heq]

/-- A table has a free entry exactly if the directory has fewer than 256. -/
theorem length_lt_iff (hdir : T.dir f = true) : (T.entries f).length < DIR_FILE_PTRS ↔
    ∃ i < DIR_FILE_PTRS, (fs.directory f).u32 (DirectoryBlock.address i) = 0 := by
  have hD := hT.directory f hf hdir
  have hd := hT.data_lt hf
  rw [directory_eq hT hf]
  constructor
  · intro hlt
    exact ⟨_, hlt, page_end hD hd hlt⟩
  · intro hex
    obtain ⟨i, hi, hzero⟩ := hex
    refine Nat.lt_of_not_le fun hle => ?_
    have hi' : i < (T.entries f).length := by omega
    rw [page_address hD hd hi'] at hzero
    exact hD.nonzero _ (List.getElem_mem hi') hzero

end Tree

/-- The length of the missing part is that of the tree. -/
theorem missing_eq (hS : fs.Stores T) (hf : f ∈ T.files) : fs.missing f hs = T.missing f hs := by
  induction hs generalizing f with
  | nil => rfl
  | cons n hs ih =>
    rw [missing, Tree.missing, child_eq hS.1 hf (hS.2 f hf)]
    cases hchild : T.child f n with
    | none => rfl
    | some g => exact ih (hS.1.edge_mem (Tree.edge_of_child hf hchild))

/-- What a path leads to is a file of the tree. -/
theorem Reached.mem (hS : fs.Stores T) (hR : Reached fs f) : f ∈ T.files := by
  induction hR with
  | root => exact hS.1.root
  | child _ hg ih =>
    -- what the driver reads is the tree's own child
    rw [child_eq hS.1 ih (hS.2 _ ih)] at hg
    exact hS.1.edge_mem (Tree.edge_of_child ih hg)

/-- So every directory has room for one entry more. -/
theorem Small.length_lt (hsmall : Small fs) (hS : fs.Stores T) (hR : Reached fs f) :
    (T.entries f).length < DIR_FILE_PTRS :=
  (length_lt_iff hS.1 (hR.mem hS) (hS.2 f (hR.mem hS))).mpr (hsmall f hR)

/-- Only the disk and the root matter. -/
theorem Small.of_disk (hsmall : Small fs) (hS : fs.Stores T) (hdisk : fs'.disk = fs.disk)
    (hroot : fs'.root = fs.root) : Small fs' := by
  have hS' : fs'.Stores T := ⟨hS.1.of_disk hdisk hroot, hS.2⟩
  intro f hR
  have hR' : Reached fs f := by
    induction hR with
    | root => exact hroot ▸ .root
    | child _ hg ih =>
      have hf := ih.mem hS
      rw [child_eq hS'.1 hf (hS.2 _ hf)] at hg
      exact ih.child ((child_eq hS.1 hf (hS.2 _ hf)).trans hg)
  have hf := hR'.mem hS
  exact (length_lt_iff hS'.1 hf (hS.2 f hf)).mp (hsmall.length_lt hS hR')

/-- Where the directories are small, every path can be walked. -/
theorem Small.walkable (hsmall : Small fs) (hS : fs.Stores T) (hR : Reached fs f) :
    T.Walkable f hs := by
  induction hs generalizing f with
  | nil => trivial
  | cons n hs ih =>
    refine ⟨hS.2 f (hR.mem hS), ?_⟩
    cases hchild : T.child f n with
    | none => exact hsmall.length_lt hS hR
    | some g =>
      apply ih
      exact hR.child ((child_eq hS.1 (hR.mem hS) (hS.2 f (hR.mem hS))).trans hchild)

/-! ## Requests

A request to open walks the path and makes what is missing, a request to read leaves the disk
alone. Both find a tree and leave one. -/

/-- The hashes of the components of a path. -/
def hashes (data : Bytes) : List Nat := (names data).map stringHash

/-- There are two free blocks for every component that is not there. -/
def Enough (fs : NorlitFS) (data : Bytes) : Prop :=
  2 * fs.missing fs.root (hashes data) ≤ fs.disk.u32 counterAt

/-- A request to open an absolute path. -/
structure Opens (msg : FileMessage) : Prop where
  signature : msg.signature = COMMAND_HD
  command : msg.command = HD_OPEN
  absolute : msg.data 0 = SLASH
  terminated : Terminated msg.data

/-- A request to read. -/
structure Reads (msg : FileMessage) : Prop where
  signature : msg.signature = COMMAND_HD
  command : msg.command = HD_READ

/-- The answer to a request to open that finds `g`. -/
def opened (fs : NorlitFS) (g : Nat) (msg : FileMessage) : FileMessage :=
  { (fs.fileRead (sector g) 4).reply msg with handle := g }

/-- A request to open, with its path taken apart. -/
theorem serve_opens (hO : Opens msg) : fs.serve proc msg =
    fs.openNames fs.root (names msg.data) >>= fun r =>
      .ok (r.2.fileRead (sector r.1) 4, [(proc, r.2.opened r.1 msg)]) := by
  unfold serve
  rw [if_neg (not_not.mpr hO.signature), if_pos hO.command, if_neg (not_not.mpr hO.absolute),
    openPath_eq hO.terminated]
  rfl

/-- A request to read. -/
theorem serve_reads (hR : Reads msg) : fs.serve proc msg =
    .ok ((fs.seekDataBlock msg.handle msg.offset).2.fileRead
      (sector (fs.seekDataBlock msg.handle msg.offset).1) 4,
      [(proc, ((fs.seekDataBlock msg.handle msg.offset).2.fileRead
        (sector (fs.seekDataBlock msg.handle msg.offset).1) 4).reply msg)]) := by
  unfold serve
  rw [if_neg (not_not.mpr hR.signature), if_neg (by rw [hR.command]; decide), if_pos hR.command]

variable (proc) in
/-- An open request whose path can be walked is answered with the file at its end. -/
theorem serve_opened (hT : Holds T fs) (hO : Opens msg) (hwalk : T.Walkable fs.root (hashes msg.data))
    (hspace : 2 * T.missing fs.root (hashes msg.data) ≤ fs.disk.u32 counterAt) :
    ∃ g fs₁ T', fs.serve proc msg =
        .ok (fs₁.fileRead (sector g) 4, [(proc, fs₁.opened g msg)]) ∧
      Opened T fs fs.root (hashes msg.data) g fs₁ T' := by
  obtain ⟨g, fs₁, T', hok, hopened⟩ := openNames_opened hT hT.root hwalk hspace
  refine ⟨g, fs₁, T', ?_, hopened⟩
  rw [serve_opens hO, hok, ok_bind]

/-- Reading leaves the tree as it is. -/
theorem Holds.fileRead {offset count : Nat} (hT : Holds T fs) :
    Holds T (fs.fileRead offset count) := hT.of_disk rfl rfl

/-- The directories stay directories, and the new files are. -/
theorem Opened.stores (hO : Opened T fs f hs g fs' T') (hS : fs.Stores T) : fs'.Stores T' := by
  refine ⟨hO.holds, fun a ha => ?_⟩
  by_cases hold : a ∈ T.files
  · rw [hO.grows.dir a hold]
    exact hS.2 a hold
  · exact hO.grows.dirs a ha hold

/-! ## The first file

A partition with nothing but free blocks gets a root. It is the smallest disk that stores a tree,
and the runs of the examples begin with it. -/

/-- A root made by `createFileBlock`. -/
def withRoot (fs : NorlitFS) (name : List UInt8) : NorlitFS :=
  { (fs.createFileBlock name).2 with root := (fs.createFileBlock name).1 }

variable (name) in
/-- It is a tree of one empty directory. -/
theorem withRoot_stores (h : WellFormed fs.disk) (hspace : 2 ≤ fs.disk.u32 counterAt) :
    (∃ T, (fs.withRoot name).Stores T ∧ ∀ f, T.entries f = []) ∧
      Small (fs.withRoot name) := by
  obtain ⟨d, hC⟩ := createFileBlock_created name h hspace
  set g := (fs.createFileBlock name).1 with hg
  have hgb := h.mem_blocks hC.file_mem
  have hdb := h.mem_blocks hC.data_mem
  -- the tree has no edges, so most clauses are about the root alone
  have hno : ∀ a n b, ¬ Tree.Edge ⟨[g], fun _ => d, fun _ => name, fun _ => true, fun _ => []⟩ a n b :=
    fun a n b hE => List.not_mem_nil hE.2
  have hholds : Holds ⟨[g], fun _ => d, fun _ => name, fun _ => true, fun _ => []⟩
      (fs.withRoot name) := by
    refine ⟨hC.free, List.mem_singleton_self g, ?_, fun f hf => ?_, fun f _ => ?_, fun f hf => ?_,
      fun f _ _ => directoryAt_nil hC.data, fun _ _ _ => rfl, fun _ _ => List.nodup_nil,
      fun f _ e he => absurd he List.not_mem_nil, ⟨fun a n => hno a n _, fun hE => absurd hE (hno _ _ _)⟩,
      fun f hf hne => absurd (List.mem_singleton.mp hf) hne⟩
    · simpa using hC.ne.symm
    · rw [List.mem_singleton.mp hf]
      refine ⟨hgb, ?_⟩
      change g ∉ freeSet (fs.createFileBlock name).2.disk
      rw [hC.rest]
      exact fun hmem => hmem.2 (Or.inl rfl)
    · refine ⟨hdb, ?_⟩
      change d ∉ freeSet (fs.createFileBlock name).2.disk
      rw [hC.rest]
      exact fun hmem => hmem.2 (Or.inr rfl)
    · rw [List.mem_singleton.mp hf]
      exact hC.fileBlock
  have hS : (fs.withRoot name).Stores
      ⟨[g], fun _ => d, fun _ => name, fun _ => true, fun _ => []⟩ := ⟨hholds, fun _ _ => rfl⟩
  refine ⟨⟨_, hS, fun _ => rfl⟩, fun f hR => ?_⟩
  exact (length_lt_iff hholds (hR.mem hS) rfl).mp (Nat.succ_pos 255)

variable (name) in
theorem withRoot_counter (h : WellFormed fs.disk) (hspace : 2 ≤ fs.disk.u32 counterAt) :
    (fs.withRoot name).disk.u32 counterAt + 2 = fs.disk.u32 counterAt := by
  obtain ⟨d, hC⟩ := createFileBlock_created name h hspace
  exact hC.counter

/-- A partition of eight blocks with a root. -/
def fresh : NorlitFS := (blank.freeBlock 24 3).withRoot [36, 82, 111, 111, 116]

theorem fresh_space : WellFormed (blank.freeBlock 24 3).disk ∧
    (blank.freeBlock 24 3).disk.u32 counterAt = 8 := by
  obtain ⟨hwf, hfreed⟩ := blank_freeLists.freed blank_admits
  exact ⟨hwf, hfreed.counter⟩

/-- The new root has no entries, and so room for a first one. -/
theorem fresh_empty : (∃ T, fresh.Stores T ∧ ∀ f, T.entries f = []) ∧ Small fresh :=
  withRoot_stores _ fresh_space.1 (by rw [fresh_space.2]; decide)

theorem fresh_stores : (∃ T, fresh.Stores T) ∧ Small fresh := by
  obtain ⟨⟨T, hS, -⟩, hsmall⟩ := fresh_empty
  exact ⟨⟨T, hS⟩, hsmall⟩

/-- Six blocks are left. -/
theorem fresh_counter : fresh.disk.u32 counterAt = 6 := by
  have hcounter := withRoot_counter [36, 82, 111, 111, 116] fresh_space.1
    (by rw [fresh_space.2]; decide)
  rw [fresh_space.2] at hcounter
  exact Nat.add_right_cancel hcounter

/-- At most the whole path is missing. -/
theorem missing_le_length : fs.missing f hs ≤ hs.length := by
  induction hs generalizing f with
  | nil => exact Nat.le_refl 0
  | cons n hs ih =>
    rw [missing]
    cases fs.child f n with
    | none => exact Nat.le_refl _
    | some g => exact ih.trans (Nat.le_succ _)

/-- So two blocks for every component are enough. -/
theorem enough_of_length {data : Bytes} (h : 2 * (hashes data).length ≤ fs.disk.u32 counterAt) :
    fs.Enough data :=
  (Nat.mul_le_mul_left 2 missing_le_length).trans h

/-- A request with the handle 0. -/
def request (command offset : Nat) (data : Bytes) : FileMessage :=
  ⟨COMMAND_HD, command, 0, offset, 0, data⟩

/-- The bytes of a path. -/
def pathData (path : List UInt8) : Bytes := fun i => path.getD i 0

/-! ## Runs

`Stores` is the invariant. A request that is served keeps it, as long as there are two blocks for
each component to be made and no directory gets full. -/

/-- What clients ask: to open a path for which there is space, or to read. -/
def Asks (fs : NorlitFS) (msg : FileMessage) : Prop :=
  (Opens msg ∧ fs.Enough msg.data) ∨ Reads msg

/-- A request is served and every directory keeps fewer than 256 entries. -/
def Serves (fs : NorlitFS) (req : Nat × FileMessage) (fs' : NorlitFS) : Prop :=
  fs.Asks req.2 ∧ Small fs' ∧ ∃ sent, fs.serve req.1 req.2 = .ok (fs', sent)

/-- The request `msg` of `proc` gets one answer, the disk then stores a tree of directories, and the
handle of an opened path is a file of it. -/
def Answered (fs : NorlitFS) (proc : Nat) (msg : FileMessage) : Prop :=
  ∃ fs' T answer, fs.serve proc msg = .ok (fs', [(proc, answer)]) ∧ fs'.Stores T ∧
    (Opens msg → answer.handle ∈ T.files)

variable (proc) in
/-- One request. -/
theorem Stores.answered (hS : fs.Stores T) (hsmall : Small fs) (hask : fs.Asks msg) :
    fs.Answered proc msg := by
  cases hask with
  | inl hopen =>
    obtain ⟨hO, hspace⟩ := hopen
    unfold Enough at hspace
    rw [missing_eq hS hS.1.root] at hspace
    obtain ⟨g, fs₁, T', hok, hopened⟩ :=
      serve_opened proc hS.1 hO (hsmall.walkable hS .root) hspace
    have hS' := hopened.stores hS
    exact ⟨_, T', _, hok, ⟨hS'.1.fileRead, hS'.2⟩, fun _ => hopened.mem⟩
  | inr hread =>
    refine ⟨_, T, _, serve_reads hread, ⟨hS.1.of_disk rfl rfl, hS.2⟩, fun hO => ?_⟩
    have hcommand := hO.command.symm.trans hread.command
    exact absurd hcommand (by decide)

/-- **Tree integrity.** From a disk that stores a tree of directories, every sequence of requests
leads to such a disk, and every request on it is answered with a file of the tree. -/
theorem run_tree {reqs : List (Nat × FileMessage)} (hstart : ∃ T, fs.Stores T) (hsmall : Small fs)
    (hrun : Run Serves fs reqs fs') :
    (∃ T, fs'.Stores T ∧ ∀ f, Reached fs' f →
      f ∈ T.files ∧ (T.entries f).length < DIR_FILE_PTRS) ∧
    ∀ proc msg, fs'.Asks msg → fs'.Answered proc msg := by
  have hinv : (∃ T, fs'.Stores T) ∧ Small fs' := by
    refine hrun.invariant (I := fun fs => (∃ T, fs.Stores T) ∧ Small fs) ?_ ⟨hstart, hsmall⟩
    intro fs req fs' hI hstep
    obtain ⟨⟨T, hS⟩, hsmall⟩ := hI
    obtain ⟨hask, hsmall', sent, hok⟩ := hstep
    obtain ⟨fs₁, T', answer, hok', hS', -⟩ := hS.answered req.1 hsmall hask
    obtain ⟨rfl, -⟩ := Prod.mk.inj (Except.ok.inj (hok.symm.trans hok'))
    exact ⟨⟨T', hS'⟩, hsmall'⟩
  obtain ⟨⟨T, hS⟩, hsmall'⟩ := hinv
  refine ⟨⟨T, hS, fun f hR => ⟨hR.mem hS, hsmall'.length_lt hS hR⟩⟩, fun proc msg hask => ?_⟩
  exact hS.answered proc hsmall' hask

/-! ## A first path

A name that the root does not have is created, and takes two blocks. -/

variable (proc) in
/-- A name that the root does not have. -/
theorem Stores.serve_missing {str : List UInt8} (hS : fs.Stores T) (hp : Opens msg)
    (hstr : names msg.data = [str]) (hno : ∀ e ∈ T.entries fs.root, e.hash ≠ stringHash str)
    (hlen : (T.entries fs.root).length < DIR_FILE_PTRS) (hspace : 2 ≤ fs.disk.u32 counterAt) :
    ∃ fs' g d sent, fs.serve proc msg = .ok (fs', sent) ∧ fs'.Stores (T.insert fs.root g d str) ∧
      fs'.root = fs.root ∧ fs'.disk.u32 counterAt + 2 = fs.disk.u32 counterAt := by
  have hroot := hS.1.root
  have hdir := hS.2 _ hroot
  obtain ⟨d, hG⟩ := addEntry_grown str hS.1 hroot hdir hlen hspace
  have hstep := openName_missing hS.1 hroot hdir hno hlen
  set r := (fs.readDirectory T fs.root).addEntry (T.data fs.root) (T.entries fs.root).length str
    with hr
  have hT' : Holds (T.insert fs.root r.1 d str) (r.2.fileRead (sector r.1) 4) :=
    (Holds.grow hG hS.1 hroot hdir hno).fileRead
  have hgrows := hG.extension hS.1 hroot
  refine ⟨r.2.fileRead (sector r.1) 4, r.1, d, [(proc, r.2.opened r.1 msg)], ?_, ⟨hT', ?_⟩, hG.root,
    hG.counter⟩
  · rw [serve_opens hp, hstr, openNames, hstep]
    rfl
  · intro f hf
    by_cases hold : f ∈ T.files
    · rw [hgrows.dir f hold]
      exact hS.2 f hold
    · exact hgrows.dirs f hf hold

variable (proc) in
/-- A name in an empty tree. -/
theorem Stores.serve_first {str : List UInt8} (hS : fs.Stores T) (hnil : ∀ f, T.entries f = [])
    (hp : Opens msg) (hstr : names msg.data = [str]) (hspace : 2 ≤ fs.disk.u32 counterAt) :
    ∃ fs' sent, fs.serve proc msg = .ok (fs', sent) ∧ Small fs' ∧
      fs'.disk.u32 counterAt + 2 = fs.disk.u32 counterAt := by
  have hno : ∀ e ∈ T.entries fs.root, e.hash ≠ stringHash str := by
    rw [hnil]
    exact fun _ he => absurd he List.not_mem_nil
  have hlen : (T.entries fs.root).length < DIR_FILE_PTRS := by
    rw [hnil]
    exact Nat.succ_pos 255
  obtain ⟨fs', g, d, sent, hok, hS', -, hcounter⟩ := hS.serve_missing proc hp hstr hno hlen hspace
  have hshort : ∀ f, ((T.insert fs.root g d str).entries f).length < DIR_FILE_PTRS := by
    intro f
    unfold Tree.insert
    dsimp only
    rw [hnil fs.root, Function.update_apply, Function.update_apply, hnil f]
    split
    · exact (by decide : 1 < DIR_FILE_PTRS)
    · split
      · exact (by decide : 0 < DIR_FILE_PTRS)
      · exact (by decide : 0 < DIR_FILE_PTRS)
  refine ⟨fs', sent, hok, fun f hR => ?_, hcounter⟩
  have hf := hR.mem hS'
  exact (length_lt_iff hS'.1 hf (hS'.2 f hf)).mp (hshort f)

/-- A request to open `str` in the root. -/
def openInRoot (str : List UInt8) : FileMessage := request HD_OPEN 0 (pathData (SLASH :: str))

/-- The root is read and `/a` is created; then it can be opened. -/
theorem run_tree_fresh : ∃ fs', Run Serves fresh
    [(7, request HD_READ 0 fun _ => 0), (7, openInRoot [97])] fs' ∧
      fs'.Answered 7 (openInRoot [97]) := by
  obtain ⟨⟨T, hS, hnil⟩, hsmall⟩ := fresh_empty
  have hR : Reads (request HD_READ 0 fun _ => 0) := ⟨rfl, rfl⟩
  have hO : Opens (openInRoot [97]) := ⟨rfl, rfl, rfl, by decide⟩
  set fs₁ := (fresh.seekDataBlock 0 0).2.fileRead (sector (fresh.seekDataBlock 0 0).1) 4 with hfs₁
  -- a read leaves the disk alone, and with it the directories and the free blocks
  have hS₁ : fs₁.Stores T := ⟨hS.1.of_disk rfl rfl, hS.2⟩
  have hsmall₁ : Small fs₁ := hsmall.of_disk hS rfl rfl
  have hsix : fs₁.disk.u32 counterAt = 6 := fresh_counter
  obtain ⟨fs₂, sent, hserve, hsmall₂, hfour⟩ := hS₁.serve_first 7 hnil hO
    (show names (openInRoot [97]).data = [[97]] by decide) (by rw [hsix]; decide)
  have hspace : ∀ fs : NorlitFS, 2 ≤ fs.disk.u32 counterAt → fs.Enough (openInRoot [97]).data := by
    intro fs h
    apply enough_of_length
    rwa [show hashes (openInRoot [97]).data = [97] by decide]
  have hrun : Run Serves fresh [(7, request HD_READ 0 fun _ => 0), (7, openInRoot [97])] fs₂ :=
    .cons ⟨Or.inr hR, hsmall₁, _, serve_reads hR⟩
      (.single ⟨Or.inl ⟨hO, hspace fs₁ (by rw [hsix]; decide)⟩, hsmall₂, sent, hserve⟩)
  exact ⟨fs₂, hrun, (run_tree ⟨T, hS⟩ hsmall hrun).2 7 _
    (Or.inl ⟨hO, hspace fs₂ (by rw [hsix] at hfour; omega)⟩)⟩

end NorlitFS

end NorlitOS
