import NorlitOS.FileSystem.Names
import NorlitOS.FileSystem.Trace

/-!
# Opening a path again

A new entry of a directory goes behind the old ones, and no entry goes away. What a path has led to
once it leads to for ever: the walk meets entries that are there, finds the same file, and writes
nothing.
-/

namespace NorlitOS

namespace NorlitFS

variable {fs fs' : NorlitFS} {T : Tree} {f g proc : Nat} {r : Nat × NorlitFS} {str ptr : List UInt8}
  {names : List (List UInt8)} {data : Bytes} {req : Nat × FileMessage}
  {reqs : List (Nat × FileMessage)} {p q : FileMessage}

/-! ## What a walk that ends has met

A walk that comes back has found a NUL. -/

theorem walk_terminated (h : fs.walk f str ptr = .ok r) : 0 ∈ ptr := by
  induction ptr generalizing fs f str with
  | nil => cases h
  | cons c ptr ih =>
    rw [walk] at h
    split at h
    · rename_i hc
      rw [hc]
      exact List.mem_cons_self
    · refine List.mem_cons_of_mem c ?_
      split at h
      · cases hstep : fs.openName f str with
        | error e =>
          rw [hstep] at h
          cases h
        | ok s =>
          rw [hstep, ok_bind] at h
          exact ih h
      · exact ih h

theorem openPath_terminated (h : fs.openPath data = .ok r) : Terminated data := by
  unfold openPath at h
  split at h
  · rename_i hzero
    exact List.mem_map.mpr ⟨1, List.mem_range'_1.mpr (by omega), hzero⟩
  · exact walk_terminated h

/-- A walk that ends did not meet a full directory without the name. -/
theorem walkable_of_openNames (hS : fs.Stores T) (hf : f ∈ T.files)
    (h : fs.openNames f names = .ok r) : T.Walkable f (names.map stringHash) := by
  induction names generalizing fs f with
  | nil => trivial
  | cons str names ih =>
    have hdir := hS.2 f hf
    refine ⟨hdir, ?_⟩
    rw [openNames] at h
    cases hchild : T.child f (stringHash str) with
    | some g =>
      have hE := Tree.edge_of_child hf hchild
      rw [openName_found hS.1 hf hdir hE, ok_bind] at h
      exact ih ⟨hS.1.of_disk readDirectory_disk readDirectory_root, hS.2⟩ (hS.1.edge_mem hE) h
    | none =>
      refine lt_of_le_of_ne (hS.1.directory f hf hdir).length_le fun heq => ?_
      rw [openName_full hS.1 hf hdir (Tree.child_eq_none hchild) heq] at h
      cases h

/-! ## Opening other paths

Requests to open add to the tree and take nothing away, so paths that were there stay. -/

/-- A request to open, by any path for which there is space, is served. -/
structure ServesOpen (fs : NorlitFS) (req : Nat × FileMessage) (fs' : NorlitFS) : Prop where
  signature : req.2.signature = COMMAND_HD
  command : req.2.command = HD_OPEN
  enough : req.2.data 0 = SLASH → fs.Enough req.2.data
  served : ∃ sent, fs.serve req.1 req.2 = .ok (fs', sent)

/-- The tree only grows. -/
theorem ServesOpen.extends_tree (h : ServesOpen fs req fs') (hS : fs.Stores T) :
    ∃ T', fs'.Stores T' ∧ T.Extends T' ∧ fs'.root = fs.root := by
  obtain ⟨sent, hok⟩ := h.served
  by_cases hslash : req.2.data 0 = SLASH
  · -- the walk has returned, so the path ends and every file on it is a directory
    have hterm : Terminated req.2.data := by
      unfold serve at hok
      rw [if_neg (not_not.mpr h.signature), if_pos h.command, if_neg (not_not.mpr hslash)] at hok
      cases hwalk : fs.openPath req.2.data with
      | error e =>
        rw [hwalk] at hok
        exact nomatch hok
      | ok r => exact openPath_terminated hwalk
    have hO : Opens req.2 := ⟨h.signature, h.command, hslash, hterm⟩
    have hwalk : T.Walkable fs.root (hashes req.2.data) := by
      rw [serve_opens hO] at hok
      cases hnames : fs.openNames fs.root (NorlitFS.names req.2.data) with
      | error e =>
        rw [hnames] at hok
        exact nomatch hok
      | ok r => exact walkable_of_openNames hS hS.1.root hnames
    have hspace := h.enough hslash
    unfold Enough at hspace
    rw [missing_eq hS hS.1.root] at hspace
    -- with enough space the tree has grown by the missing components
    obtain ⟨g, fs₁, T', hserve, hopened⟩ := serve_opened req.1 hS.1 hO hwalk hspace
    obtain ⟨rfl, -⟩ := Prod.mk.inj (Except.ok.inj (hok.symm.trans hserve))
    have hS' := hopened.stores hS
    exact ⟨T', ⟨hS'.1.fileRead, hS'.2⟩, hopened.grows, hopened.root⟩
  · -- a path without the slash is left alone
    unfold serve at hok
    rw [if_neg (not_not.mpr h.signature), if_pos h.command, if_pos hslash] at hok
    obtain ⟨rfl, -⟩ := Prod.mk.inj (Except.ok.inj hok)
    exact ⟨T, hS, Tree.Extends.refl, rfl⟩

theorem extends_of_run (hrun : Run ServesOpen fs reqs fs') (hS : fs.Stores T) :
    ∃ T', fs'.Stores T' ∧ T.Extends T' ∧ fs'.root = fs.root := by
  induction hrun generalizing T with
  | nil => exact ⟨T, hS, Tree.Extends.refl, rfl⟩
  | cons first _ ih =>
    obtain ⟨T₁, hS₁, hext₁, hroot₁⟩ := first.extends_tree hS
    obtain ⟨T₂, hS₂, hext₂, hroot₂⟩ := ih hS₁
    exact ⟨T₂, hS₂, hext₁.trans hext₂, hroot₂.trans hroot₁⟩

end NorlitFS

/-! ## Along a path that is there

Every component is found by the scan, so no block is allocated and none is written. -/

namespace Traced

open NorlitFS (Holds DirectoryAt components hashes path names Opens)

variable {t : Traced} {proc : Nat} {data : Bytes} {msg : FileMessage} {T : Tree} {f g : Nat} {str p rest : List UInt8}

theorem openName_found (hT : Holds T t.fs) (hf : f ∈ T.files) (hdir : T.dir f = true)
    (hE : T.Edge f (stringHash str) g) : ∃ n, t.openName f str = (.ok g, t.looked f n) := by
  have hread : (t.looked f 0).fs = t.fs.readDirectory T f := by
    unfold looked
    dsimp only
    rw [hT.seek hf, if_pos rfl]
    rfl
  have hD : DirectoryAt (t.fs.fileRead (sector f) 4).disk (T.data f) (T.entries f) :=
    hT.directory f hf hdir
  obtain ⟨i, hi, hentry⟩ := List.getElem_of_mem hE.2
  have hscan := NorlitFS.scan_found hD (hT.data_lt hf) (hT.hashes f hf) hi (by rw [hentry])
  have haddr := NorlitFS.page_address hD (hT.data_lt hf) hi
  rw [hentry] at haddr
  refine ⟨i + 1, ?_⟩
  rw [openName_eq, hread]
  unfold NorlitFS.readDirectory
  rw [hscan]
  dsimp only
  rw [haddr, if_neg (hD.nonzero _ hE.2)]

theorem looked_stores {n : Nat} (hS : t.fs.Stores T) : (t.looked f n).fs.Stores T :=
  ⟨hS.1.of_disk rfl rfl, hS.2⟩

/-- The walk along components that are there writes nothing. Induction on the characters. -/
theorem walk_found (hS : t.fs.Stores T) (hf : f ∈ T.files) (hp : ∀ c ∈ p, c ≠ 0)
    (hpath : Run T.Edge f ((components str p).map stringHash) g) :
    ∃ t', t.walk f str (p ++ 0 :: rest) = (.ok g, t') ∧ t'.writes = t.writes ∧
      t'.fs.disk = t.fs.disk := by
  induction p generalizing t f str with
  | nil =>
    rw [components, List.map_cons] at hpath
    cases hpath with
    | cons first last =>
      cases last with
      | nil =>
        -- the terminator ends the last component
        obtain ⟨n, hstep⟩ := openName_found hS.1 hf (hS.2 f hf) first
        refine ⟨t.looked f n, ?_, rfl, rfl⟩
        rw [List.nil_append, walk, if_pos rfl, hstep]
  | cons c p ih =>
    obtain ⟨hc, hp⟩ := List.forall_mem_cons.mp hp
    rw [List.cons_append, walk, if_neg hc]
    rw [components] at hpath
    by_cases hslash : c = SLASH
    · rw [if_pos hslash, List.map_cons] at hpath
      rw [if_pos hslash]
      cases hpath with
      | cons first later =>
        obtain ⟨n, hstep⟩ := openName_found hS.1 hf (hS.2 f hf) first
        rw [hstep]
        -- behind the slash the walk goes on with an empty component
        exact ih (looked_stores hS) (hS.1.edge_mem first) hp later
    · rw [if_neg hslash] at hpath
      rw [if_neg hslash]
      exact ih hS hf hp hpath

theorem openPath_found (hS : t.fs.Stores T) (hterm : NorlitFS.Terminated data)
    (hpath : Run T.Edge t.fs.root (hashes data) g) :
    ∃ t', t.openPath data = (.ok g, t') ∧ t'.writes = t.writes ∧ t'.fs.disk = t.fs.disk := by
  unfold hashes at hpath
  unfold openPath
  rcases NorlitFS.path_cases hterm with ⟨hzero, hnames⟩ | ⟨hne, p, rest, hbytes, hp, hnames⟩
  · rw [hnames] at hpath
    cases hpath
    rw [if_pos hzero]
    exact ⟨t, rfl, rfl, rfl⟩
  · rw [hnames] at hpath
    rw [if_neg hne, hbytes]
    exact walk_found hS hS.1.root hp hpath

variable (proc) in
/-- A round that opens a path that is there writes nothing. -/
theorem serve_found (hS : t.fs.Stores T) (hO : Opens msg)
    (hpath : Run T.Edge t.fs.root (hashes msg.data) g) :
    ∃ t' answer, t.serve proc msg = (.ok [(proc, answer)], t') ∧ answer.handle = g ∧
      t'.writes = t.writes ∧ t'.fs.disk = t.fs.disk := by
  obtain ⟨t', hwalk, hwrites, hdisk⟩ := openPath_found hS hO.terminated hpath
  refine ⟨t'.fileRead (sector g) 4, { (t'.fs.fileRead (sector g) 4).reply msg with handle := g }, ?_,
    rfl, hwrites, hdisk⟩
  unfold serve
  rw [if_neg (not_not.mpr hO.signature), if_pos hO.command, if_neg (not_not.mpr hO.absolute), hwalk]
  rfl

end Traced

/-! ## The second open

The path is there after the first open, whatever was opened in between. -/

namespace NorlitFS

variable {fs : NorlitFS} {T : Tree} {proc : Nat} {p : FileMessage}

/-- The path of `p` has led to `g`: opening it, here or behind any run of opens, gives `g` again and
writes nothing. -/
def Settled (fs : NorlitFS) (p : FileMessage) (g : Nat) : Prop :=
  ∀ reqs fs', Run ServesOpen fs reqs fs' → ∀ proc q, Opens q → path q.data = path p.data →
    ∃ fs₂ answer, fs'.serve proc q = .ok (fs₂, [(proc, answer)]) ∧ answer.handle = g ∧
      fs'.diskWrites proc q = [] ∧ fs₂.disk = fs'.disk

theorem settled_of_path {g : Nat} (hS : fs.Stores T) (hpath : Run T.Edge fs.root (hashes p.data) g) :
    fs.Settled p g := by
  intro reqs fs' hrun proc q hq hsame
  obtain ⟨T', hS', hext, hroot⟩ := extends_of_run hrun hS
  have hnames : hashes q.data = hashes p.data := by
    unfold hashes names
    rw [hsame]
  have hpath' : Run T'.Edge fs'.root (hashes q.data) g := by
    rw [hnames, hroot]
    exact hpath.mono fun _ _ _ hE => hext.edge hE
  have hstart : (Traced.start fs').fs.Stores T' := hS'
  obtain ⟨t', answer, hserve, hhandle, hwrites, hdisk⟩ := Traced.serve_found proc hstart hq hpath'
  have hok := Traced.fs_serve hserve
  refine ⟨t'.fs, answer, hok, hhandle, ?_, hdisk⟩
  unfold diskWrites
  rw [hserve]
  exact hwrites

variable (proc) in
/-- **Opening again.** The handle that the first open gives is the one that every later open of the
path gives, whatever is opened between them; the later open writes nothing. -/
theorem open_settled (hstart : ∃ T, fs.Stores T) (hsmall : Small fs) (hp : Opens p)
    (hspace : fs.Enough p.data) :
    ∃ fs' answer, fs.serve proc p = .ok (fs', [(proc, answer)]) ∧ fs'.Settled p answer.handle := by
  obtain ⟨T, hS⟩ := hstart
  unfold Enough at hspace
  rw [missing_eq hS hS.1.root] at hspace
  obtain ⟨g, fs₁, T', hok, hopened⟩ :=
    serve_opened proc hS.1 hp (hsmall.walkable hS .root) hspace
  have hS₁ := hopened.stores hS
  refine ⟨_, _, hok, settled_of_path ⟨hS₁.1.fileRead, hS₁.2⟩ ?_⟩
  change Run T'.Edge fs₁.root _ g
  rw [hopened.root]
  exact hopened.path

/-- `/a` on the new partition. -/
theorem open_settled_fresh : ∃ fs' answer, fresh.serve 7 (openInRoot [97]) = .ok (fs', [(7, answer)]) ∧
    fs'.Settled (openInRoot [97]) answer.handle := by
  obtain ⟨hstart, hsmall⟩ := fresh_stores
  have hspace : fresh.Enough (openInRoot [97]).data := by
    apply enough_of_length
    rw [fresh_counter]
    decide
  exact open_settled 7 hstart hsmall ⟨rfl, rfl, rfl, by decide⟩ hspace

end NorlitFS

end NorlitOS
