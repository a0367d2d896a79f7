import NorlitOS.FileSystem.Requests

/-!
# Running out of space

Of the two allocations of `createFileBlock` only the first is checked, and its caller does not
check the block it returns. A file that cannot be made is therefore noticed in one case only, and
the path loop goes on in every case: with what was returned for a file, 0 or not.
-/

namespace NorlitOS

namespace NorlitFS

variable {fs : NorlitFS} {T : Tree} {f proc : Nat} {name str : List UInt8}
  {names : List (List UInt8)} {msg : FileMessage}

/-- One of the two allocations of `createFileBlock` fails. -/
def Lacks (fs : NorlitFS) : Prop :=
  (fs.mallocBlock 0).1 = 0 ∨ ((fs.mallocBlock 0).2.mallocBlock 0).1 = 0

/-- A file that cannot be made leaves the disk alone. -/
def CreatesAtomically (fs : NorlitFS) (name : List UInt8) : Prop :=
  fs.Lacks → (fs.createFileBlock name).1 = 0 ∧ (fs.createFileBlock name).2.disk = fs.disk

/-- Where a component needs a file that cannot be made, the directory stays as it is, and the walk
does not go on with block 0. -/
def WalksAtomically (fs : NorlitFS) (f : Nat) : List (List UInt8) → Prop
  | [] => True
  | str :: names =>
    (fs.child f (stringHash str) = none → fs.Lacks →
      ∀ g fs', fs.openName f str = .ok (g, fs') → g ≠ 0 ∧ ∀ i < 2048,
        fs'.disk (2048 * (fs.seekDataBlock f 0).1 + i) =
          fs.disk (2048 * (fs.seekDataBlock f 0).1 + i)) ∧
    ∀ g fs', fs.openName f str = .ok (g, fs') → fs'.WalksAtomically g names

/-- The walk of a request does so, and no request to open is answered with the handle 0. -/
def OpensAtomically (fs : NorlitFS) (proc : Nat) (msg : FileMessage) : Prop :=
  fs.WalksAtomically fs.root (NorlitFS.names msg.data) ∧
    ∀ fs' sent, fs.serve proc msg = .ok (fs', sent) → ∀ a ∈ sent, a.2.handle ≠ 0

/-! ## `createFileBlock`

With two free blocks the file is made, with none nothing happens. With one free block that block
is lost, and the file gets block 0 for its data. -/

theorem lacks_iff (h : WellFormed fs.disk) : fs.Lacks ↔ fs.disk.u32 counterAt < 2 := by
  unfold Lacks
  rcases mallocBlock_zero h with ⟨hz, hcounter, -⟩ | hG
  · exact iff_of_true (Or.inl hz) (by omega)
  · have hcounter := hG.counter
    rw [or_iff_right (hG.ne_zero h)]
    rcases mallocBlock_zero hG.free with ⟨hz, hcounter', -⟩ | hG'
    · exact iff_of_true hz (by omega)
    · have hcounter' := hG'.counter
      exact iff_of_false (hG'.ne_zero hG.free) (by omega)

theorem createsAtomically_iff (h : WellFormed fs.disk) :
    fs.CreatesAtomically name ↔ fs.disk.u32 counterAt ≠ 1 := by
  unfold CreatesAtomically
  rw [lacks_iff h]
  constructor
  · intro hatomic hone
    obtain ⟨hmem, -⟩ := createFileBlock_single name h hone
    have hpos := (h.mem_blocks hmem).1
    exact hpos.ne' (hatomic (by omega)).1
  · intro hne hlt
    exact createFileBlock_failed h (by omega)

/-- What `createFileBlock` returns is 0 or a block. -/
theorem createFileBlock_lt (h : WellFormed fs.disk) : (fs.createFileBlock name).1 < 2 ^ 32 := by
  have hblock : ∀ b ∈ freeSet fs.disk, b < 2 ^ 32 :=
    fun b hb => (h.mem_blocks hb).2.trans (by decide)
  rcases Nat.lt_or_ge (fs.disk.u32 counterAt) 2 with hlt | hge
  · rcases Nat.eq_zero_or_pos (fs.disk.u32 counterAt) with hz | hpos
    · rw [(createFileBlock_failed h hz).1]
      decide
    · exact hblock _ (createFileBlock_single _ h (by omega)).1
  · obtain ⟨d, hC⟩ := createFileBlock_created name h hge
    exact hblock _ hC.file_mem

/-! ## The walk

A walk needs two blocks for each component that is missing. It does not stop when a file could not
be made. -/

section Walk

variable (hT : Holds T fs) (hf : f ∈ T.files) (hdir : T.dir f = true)

include hT hf

/-- The new entry is on the disk, whatever `createFileBlock` returned. -/
theorem addEntry_address (hlen : (T.entries f).length < DIR_FILE_PTRS) :
    ((fs.readDirectory T f).addEntry (T.data f) (T.entries f).length str).2.disk.u32
        (2048 * T.data f + DirectoryBlock.address (T.entries f).length) =
      ((fs.readDirectory T f).addEntry (T.data f) (T.entries f).length str).1 := by
  have hlt : ((fs.readDirectory T f).createFileBlock str).1 < 2 ^ 32 := createFileBlock_lt hT.free
  have hd := hT.data_lt hf
  unfold DIR_FILE_PTRS at hlen
  unfold addEntry
  dsimp only
  rw [u32_write hd (by unfold DirectoryBlock.address; omega)]
  refine (Bytes.u32_setU32_of_ne ?_).trans (Bytes.u32_setU32 hlt)
  unfold DirectoryBlock.address DirectoryBlock.hash
  omega

include hdir

/-- An entry is added, or 0 is returned. -/
theorem not_openName_atomic (hno : ∀ e ∈ T.entries f, e.hash ≠ stringHash str)
    (hlen : (T.entries f).length < DIR_FILE_PTRS) :
    ¬ ∀ g fs', fs.openName f str = .ok (g, fs') → g ≠ 0 ∧ ∀ i < 2048,
      fs'.disk (2048 * (fs.seekDataBlock f 0).1 + i) =
        fs.disk (2048 * (fs.seekDataBlock f 0).1 + i) := by
  intro hall
  have hd := hT.data_lt hf
  obtain ⟨hne, hsame⟩ := hall _ _ (openName_missing hT hf hdir hno hlen)
  rw [hT.seek hf, if_pos rfl] at hsame
  -- the address of the new entry would be the 0 that was there
  have hword : ((fs.readDirectory T f).addEntry (T.data f) (T.entries f).length str).2.disk.u32
      (2048 * T.data f + DirectoryBlock.address (T.entries f).length) =
        fs.disk.u32 (2048 * T.data f + DirectoryBlock.address (T.entries f).length) := by
    apply Bytes.u32_congr
    intro j hj
    rw [Nat.add_assoc]
    apply hsame
    unfold DirectoryBlock.address
    unfold DIR_FILE_PTRS at hlen
    omega
  rw [addEntry_address hT hf hlen, (hT.directory f hf hdir).terminated hlen] at hword
  exact hne hword

end Walk

/-- The walk is atomic if and only if there are two blocks for every component that is missing. -/
theorem walksAtomically_iff (hT : Holds T fs) (hf : f ∈ T.files)
    (hwalk : T.Walkable f (names.map stringHash)) : fs.WalksAtomically f names ↔
      2 * T.missing f (names.map stringHash) ≤ fs.disk.u32 counterAt := by
  induction names generalizing fs T f with
  | nil => exact iff_of_true trivial (Nat.zero_le _)
  | cons str names ih =>
    rw [List.map_cons] at hwalk ⊢
    obtain ⟨hdir, hwalk⟩ := hwalk
    rw [WalksAtomically, Tree.missing, child_eq hT hf hdir]
    cases hchild : T.child f (stringHash str) with
    | some g =>
      rw [hchild] at hwalk
      -- the component is there: nothing is written
      have hE := Tree.edge_of_child hf hchild
      have hT₁ : Holds T (fs.readDirectory T f) := hT.of_disk readDirectory_disk readDirectory_root
      rw [openName_found hT hf hdir hE]
      dsimp only at hwalk ⊢
      have hrest := ih hT₁ (hT.edge_mem hE) hwalk
      constructor
      · intro h
        exact hrest.mp (h.2 _ _ rfl)
      · intro h
        refine ⟨fun hnone => absurd hnone (Option.some_ne_none g), fun g' fs' hok => ?_⟩
        obtain ⟨rfl, rfl⟩ := Prod.mk.inj (Except.ok.inj hok)
        exact hrest.mpr h
    | none =>
      rw [hchild] at hwalk
      dsimp only at hwalk ⊢
      rw [List.length_map]
      have hno := Tree.child_eq_none hchild
      -- the component is missing, and a new file takes two blocks
      rcases Nat.lt_or_ge (fs.disk.u32 counterAt) 2 with hlt | hge
      · refine iff_of_false (fun h => ?_) (by omega)
        exact not_openName_atomic hT hf hdir hno hwalk (h.1 rfl ((lacks_iff hT.free).mpr hlt))
      · obtain ⟨d, hG⟩ := addEntry_grown str hT hf hdir hwalk hge
        have hstep := openName_missing hT hf hdir hno hwalk
        set r := (fs.readDirectory T f).addEntry (T.data f) (T.entries f).length str with hr
        have hleaf : (T.insert f r.1 d str).entries r.1 = [] :=
          insert_entries_new hf (hG.file_notMem hT)
        have hcounter := hG.counter
        have hrest := ih (Holds.grow hG hT hf hdir hno) List.mem_cons_self
          (Tree.walkable_of_nil (Function.update_self _ _ _) hleaf)
        -- the new file is a leaf, so all the rest is missing
        rw [Tree.missing_of_nil hleaf, List.length_map] at hrest
        rw [hstep]
        constructor
        · intro h
          have hnext := hrest.mp (h.2 _ _ rfl)
          omega
        · intro h
          have hlacks : ¬ fs.Lacks := fun hl => by
            have hlt := (lacks_iff hT.free).mp hl
            omega
          refine ⟨fun _ hl => absurd hl hlacks, fun g' fs' hok => ?_⟩
          obtain ⟨rfl, rfl⟩ := Prod.mk.inj (Except.ok.inj hok)
          exact hrest.mpr (by omega)

/-! ## Requests

So a request to open is all or nothing exactly if there is enough for all of its path. -/

/-- The handle of an open for which there is space is not 0. -/
theorem handle_ne_zero (hS : fs.Stores T) (hsmall : Small fs) (hO : Opens msg)
    (hspace : fs.Enough msg.data) : ∀ fs' sent, fs.serve proc msg = .ok (fs', sent) →
      ∀ a ∈ sent, a.2.handle ≠ 0 := by
  unfold Enough at hspace
  rw [missing_eq hS hS.1.root] at hspace
  obtain ⟨g, fs₁, T', hok, hopened⟩ :=
    serve_opened proc hS.1 hO (hsmall.walkable hS .root) hspace
  intro fs' sent hserve a ha
  obtain ⟨-, rfl⟩ := Prod.mk.inj (Except.ok.inj (hok.symm.trans hserve))
  rw [List.mem_singleton.mp ha]
  exact (hopened.holds.file_used g hopened.mem).1.1.ne'

theorem opensAtomically_iff (hS : fs.Stores T) (hsmall : Small fs) (hO : Opens msg) :
    fs.OpensAtomically proc msg ↔ fs.Enough msg.data := by
  have hwalkable : T.Walkable fs.root (hashes msg.data) := hsmall.walkable hS .root
  have hwalk := walksAtomically_iff hS.1 hS.1.root hwalkable
  rw [← hashes, ← missing_eq hS hS.1.root] at hwalk
  constructor
  · intro h
    exact hwalk.mp h.1
  · intro h
    exact ⟨hwalk.mpr h, handle_ne_zero hS hsmall hO h⟩

/-- **Running out of space** is handled if and only if it does not happen: a single free block is
not left over, and the path has two for each of its missing components. -/
theorem create_open_atomic_iff (hS : fs.Stores T) (hsmall : Small fs) (hO : Opens msg) :
    fs.CreatesAtomically name ∧ fs.OpensAtomically proc msg ↔
      fs.disk.u32 counterAt ≠ 1 ∧ fs.Enough msg.data := by
  rw [createsAtomically_iff hS.1.free, opensAtomically_iff hS hsmall hO]

/-- A request to open `/a`. -/
def openA : FileMessage := request HD_OPEN 0 (pathData [SLASH, 97])

theorem openA_opens : Opens openA := ⟨rfl, rfl, rfl, by decide⟩

theorem create_open_atomic_iff_fresh :
    fresh.CreatesAtomically [97] ∧ fresh.OpensAtomically 7 openA ↔
      fresh.disk.u32 counterAt ≠ 1 ∧ fresh.Enough openA.data := by
  obtain ⟨⟨T, hS⟩, hsmall⟩ := fresh_stores
  exact create_open_atomic_iff hS hsmall openA_opens

/-- A partition of three blocks with a root. -/
def cramped : NorlitFS :=
  ((blank.freeBlock 24 1).freeBlock 28 0).withRoot [36, 82, 111, 111, 116]

theorem cramped_space : WellFormed ((blank.freeBlock 24 1).freeBlock 28 0).disk ∧
    ((blank.freeBlock 24 1).freeBlock 28 0).disk.u32 counterAt = 3 := by
  -- two blocks go back in one piece, a third one alone
  have hpair : Admits blank.disk (.freeBlock 24 1) := by
    refine ⟨by decide, by decide, fun b hb => ?_, ?_⟩
    · have hb' := (Dyadic.mem_block_iff (by decide)).mp hb
      exact ⟨by omega, by omega⟩
    · rw [blank_freeLists.freeSet_eq, Extents.region_empty]
      exact Set.disjoint_empty _
  obtain ⟨hwf, hfreed⟩ := blank_freeLists.freed hpair
  have hsingle : Admits (blank.freeBlock 24 1).disk (.freeBlock 28 0) := by
    refine ⟨by decide, by decide, ?_, ?_⟩
    · rw [Dyadic.block_zero]
      intro b hb
      obtain rfl : b = 28 := hb
      exact ⟨by decide, by decide⟩
    · rw [Dyadic.block_zero, Set.disjoint_singleton_left, hfreed.given, blank_freeLists.freeSet_eq,
        Extents.region_empty, Set.empty_union]
      intro hmem
      have hmem' := (Dyadic.mem_block_iff (by decide)).mp hmem
      omega
  obtain ⟨L, hL⟩ := hwf
  obtain ⟨hwf', hfreed'⟩ := hL.freed hsingle
  refine ⟨hwf', ?_⟩
  rw [hfreed'.counter, hfreed.counter]
  rfl

theorem hashes_openA : hashes openA.data = [97] := by decide

/-- One block is free, and neither `createFileBlock` nor the request leaves it at that. -/
theorem not_atomic_cramped : (∃ T, cramped.Stores T) ∧ Small cramped ∧
    cramped.disk.u32 counterAt = 1 ∧ ¬ cramped.CreatesAtomically [97] ∧
      ¬ cramped.OpensAtomically 7 openA := by
  obtain ⟨hwf, hthree⟩ := cramped_space
  obtain ⟨⟨T, hS, hnil⟩, hsmall⟩ :=
    withRoot_stores [36, 82, 111, 111, 116] hwf (by rw [hthree]; decide)
  have hone : cramped.disk.u32 counterAt = 1 := by
    have hcounter := withRoot_counter [36, 82, 111, 111, 116] hwf (by rw [hthree]; decide)
    rw [hthree] at hcounter
    exact Nat.add_right_cancel hcounter
  have hmissing : cramped.missing cramped.root (hashes openA.data) = 1 := by
    rw [hashes_openA]
    exact (missing_eq hS hS.1.root).trans (Tree.missing_of_nil (hnil _))
  refine ⟨⟨T, hS⟩, hsmall, hone, fun hcreate => ?_, fun hopen => ?_⟩
  · exact (createsAtomically_iff hS.1.free).mp hcreate hone
  · have hspace := (opensAtomically_iff hS hsmall openA_opens).mp hopen
    unfold Enough at hspace
    change 2 * cramped.missing cramped.root (hashes openA.data) ≤ cramped.disk.u32 counterAt at hspace
    rw [hmissing, hone] at hspace
    exact absurd hspace (by decide)

end NorlitFS

end NorlitOS
