import NorlitOS.FileSystem.Open

/-!
# A path, component by component

Opening a component leads to a file that is there, or makes one. `Enters` is that step, with the tree
that the disk stores before and after it, and a path that can be walked is a run of such steps.
-/

namespace NorlitOS

namespace NorlitFS

/-- How far a path has been opened: the file it has come to, and the tree the disk stores. -/
structure Place where
  fs : NorlitFS
  tree : Tree
  file : Nat

/-- One component: its file is there, or it is made at the end of the directory. -/
inductive Enters : Place → List UInt8 → Place → Prop where
  | found {fs : NorlitFS} {T : Tree} {f g : Nat} {str : List UInt8} (hdir : T.dir f = true)
      (hE : T.Edge f (stringHash str) g) : Enters ⟨fs, T, f⟩ str ⟨fs.readDirectory T f, T, g⟩
  | made {fs : NorlitFS} {T : Tree} {f d : Nat} {str : List UInt8} (hdir : T.dir f = true)
      (hno : ∀ e ∈ T.entries f, e.hash ≠ stringHash str)
      (hlen : (T.entries f).length < DIR_FILE_PTRS)
      (hG : Grown T fs f ((fs.readDirectory T f).addEntry (T.data f) (T.entries f).length str).1 d str
        ((fs.readDirectory T f).addEntry (T.data f) (T.entries f).length str).2) :
      Enters ⟨fs, T, f⟩ str
        ⟨((fs.readDirectory T f).addEntry (T.data f) (T.entries f).length str).2,
          T.insert f ((fs.readDirectory T f).addEntry (T.data f) (T.entries f).length str).1 d str,
          ((fs.readDirectory T f).addEntry (T.data f) (T.entries f).length str).1⟩

namespace Place

/-- The disk stores the tree, and the file is in it. -/
structure Valid (w : Place) : Prop where
  holds : Holds w.tree w.fs
  mem : w.file ∈ w.tree.files

end Place

/-- What the driver reads when it starts: the super block in front of its counter, and the root. -/
structure SameHeader (fs fs' : NorlitFS) : Prop where
  root : fs'.root = fs.root
  disk : ∀ i < 528, fs'.disk i = fs.disk i

theorem SameHeader.refl {fs : NorlitFS} : SameHeader fs fs := ⟨rfl, fun _ _ => rfl⟩

theorem SameHeader.trans {fs fs₁ fs' : NorlitFS} (h₁ : SameHeader fs fs₁) (h₂ : SameHeader fs₁ fs') :
    SameHeader fs fs' :=
  ⟨h₂.root.trans h₁.root, fun i hi => (h₂.disk i hi).trans (h₁.disk i hi)⟩

variable {fs fs' : NorlitFS} {disk : Bytes} {T T' : Tree} {f g n size : Nat} {hs : List Nat}
  {str : List UInt8}
  {names : List (List UInt8)} {w w' : Place}

/-! ## What a step leaves

A step leads to a place the next step can start from. The header of the super block, with root and
size in it, stays. -/

namespace Enters

variable (h : Enters w str w') (hw : w.Valid)

include h hw

/-- The next place is one of the tree. -/
theorem valid : w'.Valid := by
  cases h with
  | found hdir hE =>
    exact ⟨hw.holds.of_disk readDirectory_disk readDirectory_root, hw.holds.edge_mem hE⟩
  | made hdir hno hlen hG =>
    exact ⟨Holds.grow hG hw.holds hw.mem hdir hno, List.mem_cons_self⟩

theorem openName_eq : w.fs.openName w.file str = .ok (w'.file, w'.fs) := by
  cases h with
  | found hdir hE => exact openName_found hw.holds hw.mem hdir hE
  | made hdir hno hlen hG => exact openName_missing hw.holds hw.mem hdir hno hlen

/-- The header stays. -/
theorem header : SameHeader w.fs w'.fs := by
  cases h with
  | found hdir hE => exact ⟨readDirectory_root, fun _ _ => rfl⟩
  | made hdir hno hlen hG =>
    refine ⟨hG.root, fun i hi => ?_⟩
    have hzero : i / 2048 = 0 := by omega
    -- the directory that changes is not in block 0
    have hpos := (hw.holds.data_used _ hw.mem).1.1
    apply hG.same i _ _ (Or.inl hi)
    · rw [hzero]
      exact hw.holds.free.zero_notMem
    · rw [hzero]
      exact hpos.ne

/-- No block becomes free. -/
theorem freeSet_subset : freeSet w'.fs.disk ⊆ freeSet w.fs.disk := by
  cases h with
  | found hdir hE => exact subset_rfl
  | made hdir hno hlen hG =>
    change freeSet ((_ : NorlitFS).addEntry _ _ _).2.disk ⊆ _
    rw [hG.rest]
    exact Set.sdiff_subset

end Enters

/-! ## The partition

A tree lies in a partition if its blocks do. New files are made of blocks that were free, and the
free blocks lie in the partition too. -/

/-- Block `b` is in a partition of `size` sectors. -/
def Fits (size b : Nat) : Prop := 4 * (b + 1) ≤ size

/-- All blocks of the tree and all free blocks are in a partition of `size` sectors. -/
structure Lies (size : Nat) (T : Tree) (disk : Bytes) : Prop where
  free : ∀ b ∈ freeSet disk, Fits size b
  file : ∀ f ∈ T.files, Fits size f
  data : ∀ f ∈ T.files, Fits size (T.data f)

/-- A partition with a file has a block at least. -/
theorem Lies.size_le (h : Lies size T disk) (hf : f ∈ T.files) : 4 ≤ size := by
  have hfits := h.file f hf
  unfold Fits at hfits
  omega

/-- A step stays in the partition. -/
theorem Enters.lies (hE : Enters w str w') (hw : w.Valid) (h : Lies size w.tree w.fs.disk) :
    Lies size w'.tree w'.fs.disk := by
  have hsub := hE.freeSet_subset hw
  cases hE with
  | found hdir hE => exact h
  | made hdir hno hlen hG =>
    have hg := hG.file_notMem hw.holds
    refine ⟨fun b hb => h.free b (hsub hb), fun a ha => ?_, fun a ha => ?_⟩
    -- the new file is of blocks that were free, the others are as they were
    · rcases List.mem_cons.mp ha with rfl | ha
      · exact h.free _ hG.file_mem
      · exact h.file a ha
    · rcases List.mem_cons.mp ha with rfl | ha
      · rw [show (Tree.insert _ _ _ _ _).data _ = _ from Function.update_self _ _ _]
        exact h.free _ hG.data_mem
      · rw [insert_data hg ha]
        exact h.data a ha

/-- Every block has sectors below `2 ^ 32`. -/
theorem Holds.lies (hT : Holds T fs) : Lies (2 ^ 32) T fs.disk where
  free b hb := by
    have hlt := (hT.free.mem_blocks hb).2
    unfold Fits
    omega
  file f hf := by
    have hlt := hT.file_lt hf
    unfold Fits
    omega
  data f hf := by
    have hlt := hT.data_lt hf
    unfold Fits
    omega

/-! ## Paths that can be walked

A path is a run of steps, one for each component, and the lemmas on steps become lemmas on paths
by induction. -/

/-- A component of a path that can be walked. -/
theorem exists_enters (hT : Holds T fs) (hf : f ∈ T.files)
    (hwalk : T.Walkable f (stringHash str :: hs))
    (hspace : 2 * T.missing f (stringHash str :: hs) ≤ fs.disk.u32 counterAt) :
    ∃ w', Enters ⟨fs, T, f⟩ str w' ∧ w'.tree.Walkable w'.file hs ∧
      2 * w'.tree.missing w'.file hs ≤ w'.fs.disk.u32 counterAt := by
  obtain ⟨hdir, hwalk⟩ := hwalk
  rw [Tree.missing] at hspace
  cases hchild : T.child f (stringHash str) with
  -- the component is there
  | some g =>
    rw [hchild] at hwalk hspace
    exact ⟨_, .found hdir (Tree.edge_of_child hf hchild), hwalk, hspace⟩
  -- it is made, for which two blocks are needed
  | none =>
    rw [hchild] at hwalk hspace
    dsimp only at hwalk hspace
    have hno := Tree.child_eq_none hchild
    obtain ⟨d, hG⟩ := addEntry_grown str hT hf hdir hwalk (by omega)
    have hcounter := hG.counter
    -- everything below the new leaf is missing
    have hleaf : (T.insert f _ d str).entries _ = [] := insert_entries_new hf (hG.file_notMem hT)
    refine ⟨_, .made hdir hno hwalk hG, Tree.walkable_of_nil (Function.update_self _ _ _) hleaf, ?_⟩
    dsimp only
    rw [Tree.missing_of_nil hleaf]
    omega

/-- **A path that can be walked** is a run. Induction on its components. -/
theorem exists_run_enters (hT : Holds T fs) (hf : f ∈ T.files)
    (hwalk : T.Walkable f (names.map stringHash))
    (hspace : 2 * T.missing f (names.map stringHash) ≤ fs.disk.u32 counterAt) :
    ∃ w', Run Enters ⟨fs, T, f⟩ names w' := by
  induction names generalizing fs T f with
  | nil => exact ⟨_, .nil _⟩
  | cons str names ih =>
    obtain ⟨w₁, hstep, hwalk₁, hspace₁⟩ := exists_enters hT hf hwalk hspace
    have hw₁ := hstep.valid ⟨hT, hf⟩
    obtain ⟨w', hrun⟩ := ih hw₁.holds hw₁.mem hwalk₁ hspace₁
    exact ⟨w', .cons hstep hrun⟩

/-- A path leads to a place of the tree. -/
theorem valid_of_run (hrun : Run Enters w names w') (hw : w.Valid) : w'.Valid :=
  hrun.invariant (fun _ _ _ hw h => h.valid hw) hw

/-- The run is what `openNames` does. -/
theorem openNames_of_run (hrun : Run Enters w names w') (hw : w.Valid) :
    w.fs.openNames w.file names = .ok (w'.file, w'.fs) := by
  induction hrun with
  | nil w => rfl
  | cons first _ ih =>
    rw [openNames, first.openName_eq hw]
    exact ih (first.valid hw)

theorem header_of_run (hrun : Run Enters w names w') (hw : w.Valid) : SameHeader w.fs w'.fs := by
  induction hrun with
  | nil w => exact .refl
  | cons first _ ih => exact (first.header hw).trans (ih (first.valid hw))

/-- A path stays in the partition. -/
theorem lies_of_run (hrun : Run Enters w names w') (hw : w.Valid)
    (h : Lies size w.tree w.fs.disk) : Lies size w'.tree w'.fs.disk := by
  induction hrun with
  | nil w => exact h
  | cons first _ ih => exact ih (first.valid hw) (first.lies hw h)

end NorlitFS

end NorlitOS
