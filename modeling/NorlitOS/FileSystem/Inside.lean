import NorlitOS.FileSystem.Stable
import NorlitOS.HardDisk.Replies

/-!
# Staying inside a directory

The loop over the entries of a directory stops at a free entry or at one with the hash it looks
for, and at nothing else. It uses entries of the block alone if every directory that the path leads
to has one or the other. In a full directory a name that is not there leads the loop behind the
block.
-/

namespace NorlitOS

/-- The names that the path loop looks for: those that a slash or the NUL ends. -/
def sought (str : List UInt8) : List UInt8 → List (List UInt8)
  | [] => []
  | c :: ptr =>
    if c = 0 then [str] else if c = SLASH then str :: sought [] ptr else sought (str ++ [c]) ptr

namespace Traced

variable {t t' : Traced} {name str ptr : List UInt8} {data : Bytes} {msg : FileMessage}
  {base len rt l2 ret n i hash f g dirAddr proc blk dataBlock : Nat}

/-! ## The entries that are used

`Traced` carries the entries of directories that the loop looks at. Making a file uses none of
them but the one that it fills. -/

/-- Splitting blocks looks at no directory. -/
theorem freeHalves_entries : (t.freeHalves rt len l2).entries = t.entries := by
  induction l2 generalizing t with
  | zero => rfl
  | succ l2 ih =>
    rw [freeHalves]
    split
    · rw [ih]
      rfl
    · rfl

/-- Nor does taking a block. -/
theorem mallocBlock_entries : (t.mallocBlock len).2.entries = t.entries := by
  unfold mallocBlock
  dsimp only
  split
  · split
    · dsimp only
      rw [freeHalves_entries]
      rfl
    · rfl
  · rfl

theorem writeFile_entries : (t.writeFile name blk dataBlock).entries = t.entries := rfl

/-- Making a file looks at no entry of a directory. -/
theorem createFileBlock_entries : (t.createFileBlock name).2.entries = t.entries := by
  unfold createFileBlock
  dsimp only
  split
  · exact mallocBlock_entries
  · dsimp only
    rw [writeFile_entries, mallocBlock_entries, mallocBlock_entries]

/-- A new entry is stored where the scan has ended. -/
theorem addEntry_entries : (t.addEntry dirAddr i str).2.entries = t.entries ++ [i] := by
  change (t.createFileBlock str).2.entries ++ [i] = _
  rw [createFileBlock_entries]

/-- The loop adds the entries from 0 up to where it stops. -/
theorem mem_looked (h : i ∈ (t.looked f n).entries) : i ∈ t.entries ∨ i < n := by
  rcases List.mem_append.mp h with hold | hnew
  · exact Or.inl hold
  · have hi := List.mem_range'_1.mp hnew
    exact Or.inr (by omega)

/-- All entries used are in the block. -/
def Inside (t : Traced) : Prop := ∀ i ∈ t.entries, i < DIR_FILE_PTRS

/-- A loop that stops inside the block stays inside. -/
theorem Inside.looked (h : t.Inside) (hn : n ≤ DIR_FILE_PTRS) : (t.looked f n).Inside := by
  intro i hi
  rcases mem_looked hi with hold | hlt
  · exact h i hold
  · omega

variable (t str f) in
/-- One name: the directory ends the loop, or it leaves the block. -/
theorem openName_cases :
    (t.fs.Scannable f (stringHash str) ∧ ∃ g t', t.openName f str = (.ok g, t') ∧
      (t.Inside → t'.Inside)) ∨
    (¬ t.fs.Scannable f (stringHash str) ∧
      t.openName f str = (.error .wild, t.looked f (DIR_FILE_PTRS + 1))) := by
  have hscan : NorlitFS.scan (t.looked f 0).fs.page (stringHash str) DIR_FILE_PTRS 0 = none ↔ _ :=
    NorlitFS.scan_openName
  rw [openName_eq]
  cases hfound : NorlitFS.scan (t.looked f 0).fs.page (stringHash str) DIR_FILE_PTRS 0 with
  | none => exact Or.inr ⟨hscan.mp hfound, rfl⟩
  | some i =>
    have hi : i < DIR_FILE_PTRS := by
      have hbounds := scan_bounds hfound
      omega
    have hscannable : t.fs.Scannable f (stringHash str) := by
      by_contra hnot
      exact nomatch (hscan.mpr hnot).symm.trans hfound
    refine Or.inl ⟨hscannable, ?_⟩
    dsimp only
    split
    · refine ⟨_, _, rfl, fun hin j hj => ?_⟩
      -- a new entry goes into the slot where the scan ended
      rw [addEntry_entries] at hj
      rcases List.mem_append.mp hj with hold | hnew
      · exact hin.looked hi j hold
      · rw [List.mem_singleton.mp hnew]
        exact hi
    · exact ⟨_, _, rfl, fun hin => hin.looked hi⟩

/-- A loop that passes the last entry has left the block. -/
theorem not_inside_looked : ¬ (t.looked f (DIR_FILE_PTRS + 1)).Inside := by
  intro h
  have hlast : DIR_FILE_PTRS ∈ (t.looked f (DIR_FILE_PTRS + 1)).entries :=
    List.mem_append_right _ (List.mem_range'_1.mpr ⟨Nat.zero_le _, by omega⟩)
  exact Nat.lt_irrefl _ (h _ hlast)

/-- The walk stays inside if every directory on its way ends the loop. Induction on the
characters. -/
theorem walk_inside_iff (hin : t.Inside) :
    (t.walk f str ptr).2.Inside ↔ t.fs.Ends f (sought str ptr) := by
  induction ptr generalizing t f str with
  | nil => exact iff_of_true hin trivial
  | cons c ptr ih =>
    rw [walk, sought]
    by_cases hc : c = 0
    · rw [if_pos hc, if_pos hc, NorlitFS.Ends]
      -- the last component
      rcases openName_cases t str f with ⟨hs, g, t', hstep, hkeep⟩ | ⟨hs, hstep⟩
      · rw [hstep]
        exact iff_of_true (hkeep hin) ⟨hs, fun _ _ _ => trivial⟩
      · rw [hstep]
        exact iff_of_false not_inside_looked fun h => hs h.1
    · rw [if_neg hc, if_neg hc]
      by_cases hslash : c = SLASH
      · rw [if_pos hslash, if_pos hslash, NorlitFS.Ends]
        rcases openName_cases t str f with ⟨hs, g, t', hstep, hkeep⟩ | ⟨hs, hstep⟩
        · -- a component is over, and the walk goes on in the file it opened
          have hok : t.fs.openName f str = .ok (g, t'.fs) := by
            rw [← openName_result, hstep]
            rfl
          rw [hstep, hok]
          dsimp only
          rw [ih (hkeep hin)]
          constructor
          · intro h
            refine ⟨hs, fun g' fs' heq => ?_⟩
            obtain ⟨rfl, rfl⟩ := Prod.mk.inj (Except.ok.inj heq)
            exact h
          · intro h
            exact h.2 _ _ rfl
        · rw [hstep]
          exact iff_of_false not_inside_looked fun h => hs h.1
      · rw [if_neg hslash, if_neg hslash]
        exact ih hin

end Traced

namespace NorlitFS

variable {fs fs' : NorlitFS} {T : Tree} {f proc : Nat} {r : Nat × NorlitFS} {str ptr p rest : List UInt8}
  {hs : List Nat} {data : Bytes} {msg : FileMessage} {req : Nat × FileMessage}
  {reqs : List (Nat × FileMessage)}

/-! ## Rounds

One round of the file system with a request to open. Whether it stays inside the blocks is a
question about the path and the state before, `Guarded`, which the walk answers component by
component. -/

/-- The names that `HD_OPEN` looks for. -/
def soughtNames (data : Bytes) : List (List UInt8) :=
  if data 1 = 0 then [] else sought [] (pathBytes data)

/-- Every directory that the path leads to has a free entry or one with the hash. -/
def Guarded (fs : NorlitFS) (msg : FileMessage) : Prop :=
  msg.data 0 = SLASH → fs.Ends fs.root (soughtNames msg.data)

/-- The open fails: there is no answer, or the answer is `HD_FAIL`. -/
def Fails (fs : NorlitFS) (proc : Nat) (msg : FileMessage) : Prop :=
  ∃ fs' sent, fs.serve proc msg = .ok (fs', sent) ∧ ∀ a ∈ sent, a.2.command = HD_FAIL

/-- The round uses entries of the directory blocks alone, and fails where one is full. -/
structure Contained (fs : NorlitFS) (proc : Nat) (msg : FileMessage) : Prop where
  inside : ∀ i ∈ fs.usedEntries proc msg, i < DIR_FILE_PTRS
  fails : ¬ fs.Guarded msg → fs.Fails proc msg

/-- A round with a request to open. -/
structure OpenRound (fs : NorlitFS) (req : Nat × FileMessage) (fs' : NorlitFS) : Prop where
  signature : req.2.signature = COMMAND_HD
  command : req.2.command = HD_OPEN
  served : ∃ sent, fs.serve req.1 req.2 = .ok (fs', sent)

/-- The entries used are inside the blocks exactly for a guarded request. -/
theorem inside_iff (hsig : msg.signature = COMMAND_HD) (hcmd : msg.command = HD_OPEN) :
    (∀ i ∈ fs.usedEntries proc msg, i < DIR_FILE_PTRS) ↔ fs.Guarded msg := by
  have hstart : (Traced.start fs).Inside := fun i hi => absurd hi List.not_mem_nil
  have hpath : ((Traced.start fs).openPath msg.data).2.Inside ↔
      fs.Ends fs.root (soughtNames msg.data) := by
    unfold Traced.openPath soughtNames
    split
    · exact iff_of_true hstart trivial
    · exact Traced.walk_inside_iff hstart
  unfold Guarded usedEntries Traced.serve
  rw [if_neg (not_not.mpr hsig), if_pos hcmd]
  -- a path that is not absolute is not walked at all
  by_cases hslash : msg.data 0 = SLASH
  · rw [if_neg (not_not.mpr hslash), forall_prop_of_true hslash, ← hpath]
    cases (Traced.start fs).openPath msg.data with
    | mk r t =>
      cases r with
      | error e => rfl
      | ok g => rfl
  · rw [if_pos hslash]
    exact iff_of_true hstart fun h => absurd h hslash

/-- A round without a full directory is contained. The round with one is not, whatever it answers.
-/
theorem contained_iff (hsig : msg.signature = COMMAND_HD) (hcmd : msg.command = HD_OPEN) :
    fs.Contained proc msg ↔ fs.Guarded msg :=
  ⟨fun h => (inside_iff hsig hcmd).mp h.inside,
    fun h => ⟨(inside_iff hsig hcmd).mpr h, fun hnot => absurd h hnot⟩⟩

/-- A walk that comes to its end was guarded. -/
theorem ends_of_walk (h : fs.walk f str ptr = .ok r) : fs.Ends f (sought str ptr) := by
  induction ptr generalizing fs f str with
  | nil => cases h
  | cons c ptr ih =>
    rw [walk] at h
    rw [sought]
    by_cases hc : c = 0
    · rw [if_pos hc] at h ⊢
      exact ⟨openName_ok_iff.mp ⟨r, h⟩, fun _ _ _ => trivial⟩
    · rw [if_neg hc] at h ⊢
      by_cases hslash : c = SLASH
      · rw [if_pos hslash] at h ⊢
        -- a walk that goes on has opened the component
        cases hstep : fs.openName f str with
        | error e =>
          rw [hstep] at h
          cases h
        | ok s =>
          rw [hstep, ok_bind] at h
          refine ⟨openName_ok_iff.mp ⟨s, hstep⟩, fun g fs' heq => ?_⟩
          obtain rfl := Except.ok.inj (hstep.symm.trans heq)
          exact ih h
      · rw [if_neg hslash] at h ⊢
        exact ih h

/-- A round that ends has met no full directory without the name. -/
theorem OpenRound.guarded (h : OpenRound fs req fs') : fs.Guarded req.2 := by
  intro hslash
  obtain ⟨sent, hok⟩ := h.served
  unfold serve at hok
  rw [if_neg (not_not.mpr h.signature), if_pos h.command, if_neg (not_not.mpr hslash)] at hok
  unfold soughtNames
  unfold openPath at hok
  split
  · trivial
  · rw [if_neg ‹_›] at hok
    cases hwalk : fs.walk fs.root [] (pathBytes req.2.data) with
    | error e =>
      rw [hwalk] at hok
      exact nomatch hok
    | ok r => exact ends_of_walk hwalk

/-! ## On a tree

On a volume that holds a tree, `Guarded` can be read off the tree: the first component that is not
there has room in its directory. -/

/-- The first name that is not there has room in its directory. -/
def Roomy (fs : NorlitFS) (f : Nat) : List Nat → Prop
  | [] => True
  | h :: hs =>
    match fs.child f h with
    | some g => fs.Roomy g hs
    | none => ∃ i < DIR_FILE_PTRS, (fs.directory f).u32 (DirectoryBlock.address i) = 0

/-- Room on the disk is room in the tree. -/
theorem roomy_iff (hS : fs.Stores T) (hf : f ∈ T.files) : fs.Roomy f hs ↔ T.Walkable f hs := by
  induction hs generalizing f with
  | nil => rfl
  | cons h hs ih =>
    have hdir := hS.2 f hf
    rw [Roomy, Tree.Walkable, child_eq hS.1 hf hdir, and_iff_right hdir]
    cases hchild : T.child f h with
    | some g => exact ih (hS.1.edge_mem (Tree.edge_of_child hf hchild))
    | none => exact (length_lt_iff hS.1 hf hdir).symm

/-- The components as the loop finds them are those of the path. -/
theorem sought_eq (hp : ∀ c ∈ p, c ≠ 0) : sought str (p ++ 0 :: rest) = components str p := by
  induction p generalizing str with
  | nil => exact if_pos rfl
  | cons c p ih =>
    obtain ⟨hc, hp⟩ := List.forall_mem_cons.mp hp
    rw [List.cons_append, sought, if_neg hc, components]
    split
    · rw [ih hp]
    · exact ih hp

/-- The names of a request, if its path is terminated. -/
theorem soughtNames_eq (h : Terminated data) : soughtNames data = names data := by
  unfold soughtNames
  rcases path_cases h with ⟨hzero, hnames⟩ | ⟨hne, p, rest, hbytes, hp, hnames⟩
  · rw [if_pos hzero, hnames]
  · rw [if_neg hne, hbytes, hnames]
    exact sought_eq hp

/-- Where the disk stores a tree and has space for the path, the disk decides. -/
theorem guarded_iff_roomy (hS : fs.Stores T) (hO : Opens msg) (hspace : fs.Enough msg.data) :
    fs.Guarded msg ↔ fs.Roomy fs.root (hashes msg.data) := by
  unfold Enough at hspace
  rw [missing_eq hS hS.1.root] at hspace
  unfold Guarded
  rw [forall_prop_of_true hO.absolute, soughtNames_eq hO.terminated, roomy_iff hS hS.1.root,
    ← openNames_ok_iff]
  constructor
  · intro h
    obtain ⟨r, hok⟩ := h
    exact walkable_of_openNames hS hS.1.root hok
  · intro hwalk
    obtain ⟨g, fs', T', hok, -⟩ := openNames_opened hS.1 hS.1.root hwalk hspace
    exact ⟨_, hok⟩

/-- **Staying inside.** In every run of requests to open, whatever their paths and however much
space there is, the rounds use entries of the directory blocks alone, as every directory they lead
to is guarded; and the next round does if and only if that holds of it, too. -/
theorem contained_along (hrun : Run OpenRound fs reqs fs') (hsig : msg.signature = COMMAND_HD)
    (hcmd : msg.command = HD_OPEN) :
    Run (fun fs req fs' => fs.Guarded req.2 ∧ fs.Contained req.1 req.2 ∧ OpenRound fs req fs')
      fs reqs fs' ∧
    (fs'.Contained proc msg ↔ fs'.Guarded msg) ∧
    ∀ T, fs'.Stores T → Opens msg → fs'.Enough msg.data →
      (fs'.Guarded msg ↔ fs'.Roomy fs'.root (hashes msg.data)) := by
  refine ⟨hrun.mono fun fs req fs' h => ?_, contained_iff hsig hcmd, fun T hS hO hspace =>
    guarded_iff_roomy hS hO hspace⟩
  exact ⟨h.guarded, (contained_iff h.signature h.command).mpr h.guarded, h⟩

/-- `/b` on the new partition, when `/a` has been created. -/
theorem contained_along_fresh : ∃ fs', Run OpenRound fresh [(7, openInRoot [97])] fs' ∧
    (fs'.Contained 7 (openInRoot [98]) ↔ fs'.Guarded (openInRoot [98])) := by
  obtain ⟨⟨T, hS, hnil⟩, -⟩ := fresh_empty
  have hO : Opens (openInRoot [97]) := ⟨rfl, rfl, rfl, by decide⟩
  obtain ⟨fs', sent, hserve, -, -⟩ := hS.serve_first 7 hnil hO
    (show names (openInRoot [97]).data = [[97]] by decide) (by rw [fresh_counter]; decide)
  have hrun : Run OpenRound fresh [(7, openInRoot [97])] fs' := .single ⟨rfl, rfl, sent, hserve⟩
  exact ⟨fs', hrun, (contained_along hrun rfl rfl).2.1⟩

/-! ## A full directory

A run that fills the root of a small volume, entry by entry, up to the last one. The next name
that is not there leads the loop behind the block. -/

/-- A partition of 1024 free blocks with a root. -/
def ample : NorlitFS := (blank.freeBlock 1024 10).withRoot [36, 82, 111, 111, 116]

/-- The volume has 1024 free blocks. -/
theorem ample_space : WellFormed (blank.freeBlock 1024 10).disk ∧
    (blank.freeBlock 1024 10).disk.u32 counterAt = 1024 := by
  have hadmits : Admits blank.disk (.freeBlock 1024 10) := by
    refine ⟨by decide, by decide, fun b hb => ?_, ?_⟩
    · have hb' := (Dyadic.mem_block_iff (by decide)).mp hb
      exact ⟨by omega, by omega⟩
    · rw [blank_freeLists.freeSet_eq, Extents.region_empty]
      exact Set.disjoint_empty _
  obtain ⟨hwf, hfreed⟩ := blank_freeLists.freed hadmits
  exact ⟨hwf, hfreed.counter⟩

/-- The name number `n`, of two characters. -/
def label (n : Nat) : List UInt8 := [UInt8.ofNat (1 + n / 31), UInt8.ofNat (1 + n % 31)]

/-- The labels have different hashes. -/
theorem label_hash {n : Nat} (h : n ≤ DIR_FILE_PTRS) : stringHash (label n) = n + 32 := by
  unfold DIR_FILE_PTRS at h
  unfold label stringHash
  have hchar : ∀ k < 40, (UInt8.ofNat (1 + k)).toNat = 1 + k := by decide
  rw [List.foldl_cons, List.foldl_cons, List.foldl_nil, hchar _ (by omega), hchar _ (by omega)]
  omega

/-- A request with a label is one to open that name in the root. -/
theorem label_opens {n : Nat} (h : n ≤ DIR_FILE_PTRS) :
    Opens (openInRoot (label n)) ∧ names (openInRoot (label n)).data = [label n] := by
  unfold DIR_FILE_PTRS at h
  have hbytes : pathBytes (openInRoot (label n)).data =
    UInt8.ofNat (1 + n / 31) :: UInt8.ofNat (1 + n % 31) :: 0 ::
      (List.range' 4 2044).map (openInRoot (label n)).data := rfl
  have hchar : ∀ k < 40, UInt8.ofNat (1 + k) ≠ 0 ∧ UInt8.ofNat (1 + k) ≠ SLASH := by decide
  obtain ⟨hne, hslash⟩ := hchar (n / 31) (by omega)
  obtain ⟨hne', hslash'⟩ := hchar (n % 31) (by omega)
  refine ⟨⟨rfl, rfl, rfl, ?_⟩, ?_⟩
  · unfold Terminated
    rw [hbytes]
    simp
  · unfold names path
    rw [hbytes, List.takeWhile_cons_of_pos (by simpa using hne),
      List.takeWhile_cons_of_pos (by simpa using hne'), List.takeWhile_cons_of_neg (by simp),
      if_neg (List.cons_ne_nil _ _), components, if_neg hslash, components, if_neg hslash', components]
    rfl

/-- The requests to open the first `n` names. -/
def openLabels (n : Nat) : List (Nat × FileMessage) :=
  (List.range n).map fun k => (7, openInRoot (label k))

/-- Opening one name after the other fills the root. Induction on their number. -/
theorem fill {n : Nat} (hn : n ≤ DIR_FILE_PTRS) :
    ∃ fs' T, Run OpenRound ample (openLabels n) fs' ∧ fs'.Stores T ∧
      (T.entries fs'.root).map FileEntry.hash = (List.range n).map (· + 32) ∧
      fs'.disk.u32 counterAt + 2 * n = 1022 := by
  induction n with
  | zero =>
    obtain ⟨⟨T, hS, hnil⟩, -⟩ := withRoot_stores [36, 82, 111, 111, 116] ample_space.1
      (by rw [ample_space.2]; decide)
    have hcounter := withRoot_counter [36, 82, 111, 111, 116] ample_space.1
      (by rw [ample_space.2]; decide)
    rw [ample_space.2] at hcounter
    refine ⟨ample, T, .nil _, hS, ?_, Nat.add_right_cancel hcounter⟩
    rw [hnil]
    rfl
  | succ n ih =>
    obtain ⟨fs', T, hrun, hS, hhashes, hcounter⟩ := ih (by omega)
    obtain ⟨hopens, hnames⟩ := label_opens (n := n) (by omega)
    have hhash := label_hash (n := n) (by omega)
    have hlen : (T.entries fs'.root).length = n := by
      have hlength := congrArg List.length hhashes
      simpa using hlength
    -- the names so far have other hashes
    have hno : ∀ e ∈ T.entries fs'.root, e.hash ≠ stringHash (label n) := by
      intro e he heq
      have hmem : e.hash ∈ (List.range n).map (· + 32) := hhashes ▸ List.mem_map_of_mem he
      rw [heq, hhash] at hmem
      simp at hmem
    unfold DIR_FILE_PTRS at hn
    obtain ⟨fs₂, g, d, sent, hok, hS₂, hroot, hcounter₂⟩ := hS.serve_missing 7 hopens hnames hno
      (by rw [hlen]; exact hn) (by omega)
    refine ⟨fs₂, T.insert fs'.root g d (label n), ?_, hS₂, ?_, by omega⟩
    · unfold openLabels
      rw [List.range_succ, List.map_append]
      exact hrun.append (.single ⟨rfl, rfl, sent, hok⟩)
    · rw [hroot, insert_entries_self, List.map_append, hhashes, List.range_succ, List.map_append,
        List.map_singleton, List.map_singleton, hhash]

/-- The 257th name. -/
theorem not_contained_full : (∃ T, ample.Stores T) ∧ ∃ fs',
    Run OpenRound ample (openLabels DIR_FILE_PTRS) fs' ∧
      ¬ fs'.Contained 7 (openInRoot (label DIR_FILE_PTRS)) := by
  obtain ⟨⟨T₀, hS₀, -⟩, -⟩ := withRoot_stores [36, 82, 111, 111, 116] ample_space.1
    (by rw [ample_space.2]; decide)
  refine ⟨⟨T₀, hS₀⟩, ?_⟩
  obtain ⟨fs', T, hrun, hS, hhashes, -⟩ := fill (Nat.le_refl DIR_FILE_PTRS)
  obtain ⟨hopens, hnames⟩ := label_opens (Nat.le_refl DIR_FILE_PTRS)
  have hhash := label_hash (Nat.le_refl DIR_FILE_PTRS)
  have hlen : (T.entries fs'.root).length = DIR_FILE_PTRS := by
    have hlength := congrArg List.length hhashes
    simpa using hlength
  -- the directory is full of other names
  have hno : ∀ e ∈ T.entries fs'.root, e.hash ≠ stringHash (label DIR_FILE_PTRS) := by
    intro e he heq
    have hmem : e.hash ∈ (List.range DIR_FILE_PTRS).map (· + 32) :=
      hhashes ▸ List.mem_map_of_mem he
    rw [heq, hhash] at hmem
    simp at hmem
  refine ⟨fs', hrun, fun hcontained => ?_⟩
  have hguarded := (contained_iff rfl rfl).mp hcontained rfl
  rw [soughtNames_eq hopens.terminated, hnames] at hguarded
  obtain ⟨r, hr⟩ := openName_ok_iff.mpr hguarded.1
  rw [openName_full hS.1 hS.1.root (hS.2 _ hS.1.root) hno hlen] at hr
  exact nomatch hr

end NorlitFS

end NorlitOS
