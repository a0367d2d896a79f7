import NorlitOS.FileSystem.Accounts
import NorlitOS.FileSystem.Moments

/-!
# Starting again

When the machine stops in the middle of a round, the disk stores a volume in which the request has
been done in part. The driver that starts from this disk finds the super block, and with it the root;
every file of that volume is at its path, and holds what it held. What may be damaged are the free
lists: a block can be lost, and a list can end in the content of a free block.
-/

namespace NorlitOS

open Dyadic

namespace FSProcess

open NorlitFS

variable {p : FSProcess} {fs fs₀ fs' : NorlitFS} {disk page : Bytes} {T : Tree}
  {V V₁ : Volume Nat Nat Content} {req : Nat × FileMessage} {str : List UInt8}
  {f g h n r size offset : Nat}

/-! ## Interrupted rounds

A round that is stopped has made some of its writes, in their order, the last of them perhaps in
part. The disk is then at one of the moments of the round. -/

/-- The answer of a server, as a round. -/
theorem serve_of_answer {sent : FileMessage} (h : answer req fs = .ok (sent, fs')) :
    ∃ proc, fs.serve req.1 req.2 = .ok (fs', [(proc, sent)]) := by
  unfold answer at h
  cases hserve : fs.serve req.1 req.2 with
  | error e =>
    rw [hserve] at h
    cases h
  | ok r =>
    obtain ⟨fs₁, l⟩ := r
    rw [hserve] at h
    match l, h with
    | [(proc, a)], h =>
      obtain ⟨rfl, rfl⟩ := Prod.mk.inj (Except.ok.inj h)
      exact ⟨proc, rfl⟩

/-- The round, with the partition at the other end. -/
theorem gives_serve (hroot : p.root = fs.root) (hR : Represents size fs V) (hP : Permits V req) :
    ∃ proc sent fs' V', VolumeStep V req sent V' ∧ Represents size fs' V' ∧ SameHeader fs fs' ∧
      (p.serve req.1 req.2 fs.page).Gives partition
        (fun disk msg => Meanwhile size V req.2 fs disk ∧ p.Bounded size msg) fs.disk
        ([(proc, sent)], fs'.page) fs'.disk := by
  -- the round as it is without a crash, and what holds at each of its moments
  obtain ⟨sent, fs', V', hok, hstep, hR', hsame⟩ := hR.answered hP
  obtain ⟨proc, hserve⟩ := serve_of_answer hok
  refine ⟨proc, sent, fs', V', hstep, hR', hsame, ?_, keeps_serve hroot hR hP⟩
  rw [run_serve hroot, hserve]
  rfl

/-- **Interrupted rounds.** After every number of requests to the disk, what was asked has been done
in part. -/
theorem meanwhile_after (hroot : p.root = fs.root) (hR : Represents size fs V)
    (hP : Permits V req) : Meanwhile size V req.2 fs
      (Calls.after partition n (p.serve req.1 req.2 fs.page) fs.disk) := by
  obtain ⟨proc, sent, fs', V', hstep, hR', hsame, hgives⟩ := gives_serve hroot hR hP
  obtain ⟨ask, hmeans, hpartly⟩ := Partly.of_step hstep
  exact (hgives.mono fun _ _ h => h.1).after
    ⟨ask, V', hmeans, hpartly, standing_of_represents hR' hsame⟩

/-! ## The files of a stored tree

`Stored` is `Holds` without the free lists. Finding a file needs no more. -/

section Stored

variable (hS : Stored T fs.root fs.disk)

include hS

theorem seek_of_stored (hf : f ∈ T.files) : fs.seekDataBlock f offset =
    (if offset = 0 then T.data f else 0, fs.fileRead (sector f) 4) :=
  (hS.fileBlock f hf).seek (hS.file_mem f hf).2 ((hS.data_mem f hf).2.trans (by decide))

/-- A component that is there. -/
theorem openName_of_stored (hE : T.Edge f (stringHash str) g) :
    fs.openName f str = .ok (g, fs.readDirectory T f) := by
  obtain ⟨hf, hmem⟩ := hE
  -- what has a child is a directory
  have hdir : T.dir f = true := by
    by_contra hplain
    rw [hS.plain f hf (Bool.eq_false_of_not_eq_true hplain)] at hmem
    exact absurd hmem List.not_mem_nil
  have hd := (hS.data_mem f hf).2
  have hD : DirectoryAt (fs.fileRead (sector f) 4).disk (T.data f) (T.entries f) :=
    hS.directory f hf hdir
  obtain ⟨i, hi, hentry⟩ := List.getElem_of_mem hmem
  have haddr := page_address hD hd hi
  rw [hentry] at haddr
  unfold NorlitFS.openName
  rw [seek_of_stored hS hf, if_pos rfl]
  dsimp only
  rw [scan_found hD hd (hS.hashes f hf) hi (by rw [hentry])]
  dsimp only
  rw [haddr, if_neg (hD.nonzero _ hmem)]
  rfl

/-- A path that is there. -/
theorem openNames_of_stored {names : List (List UInt8)} (hf : f ∈ T.files)
    (h : T.resolve f (names.map stringHash) = some g) :
    ∃ page, fs.openNames f names = .ok (g, { fs with page }) := by
  induction names generalizing fs f with
  | nil =>
    rw [List.map_nil, Tree.resolve] at h
    rw [← Option.some.inj h]
    exact ⟨fs.page, rfl⟩
  | cons str names ih =>
    rw [List.map_cons, Tree.resolve] at h
    obtain ⟨f₁, hchild, hrest⟩ := Option.bind_eq_some_iff.mp h
    have hE := Tree.edge_of_child hf hchild
    have hS₁ : Stored T (fs.readDirectory T f).root (fs.readDirectory T f).disk := hS
    obtain ⟨page, hok⟩ := ih hS₁ (hS.child f hf _ hE.2).1 hrest
    refine ⟨page, ?_⟩
    rw [NorlitFS.openNames, openName_of_stored hS hE]
    exact hok

end Stored

/-- All that is in the volume is found: a path leads to its file, a leaf holds its content. -/
structure Recovers (fs : NorlitFS) (V : Volume Nat Nat Content) : Prop where
  opens : ∀ req h, Opens req.2 → V.file (hashes req.2.data) = some h →
    ∃ sent page, answer req fs = .ok (sent, { fs with page }) ∧ sent.handle = h
  reads : ∀ req q, Reads req.2 → req.2.offset = 0 → V.file q = some req.2.handle → V.Leaf q →
    ∃ sent page, answer req fs = .ok (sent, { fs with page }) ∧
      content sent.data = V.content req.2.handle

/-- What a path leads to is a file. -/
theorem Stored.resolve_mem {q : List Nat} (hS : Stored T r disk) (hf : f ∈ T.files)
    (h : T.resolve f q = some g) : g ∈ T.files := by
  induction q generalizing f with
  | nil => exact Option.some.inj h ▸ hf
  | cons n q ih =>
    obtain ⟨f₁, hchild, hrest⟩ := Option.bind_eq_some_iff.mp h
    exact ih (hS.child f hf _ (Tree.edge_of_child hf hchild).2).1 hrest

/-- A leaf of the volume has no entries. -/
theorem entries_of_resolve {q : List Nat} (hV : V.file = T.resolve r)
    (hq : V.file q = some f) (hleaf : V.Leaf q) : T.entries f = [] := by
  rw [hV] at hq
  refine List.eq_nil_iff_forall_not_mem.mpr fun e he => ?_
  have hnone := hleaf e.hash
  rw [hV, resolve_append, hq] at hnone
  have hchild : T.child f e.hash = none := by
    by_contra hsome
    obtain ⟨g, hg⟩ := Option.ne_none_iff_exists'.mp hsome
    change ((T.child f e.hash).bind fun g => some g) = none at hnone
    rw [hg] at hnone
    exact absurd hnone (Option.some_ne_none g)
  exact Tree.child_eq_none hchild e he rfl

/-- What is behind the partition does not count. -/
theorem Standing.of_inside {disk' : Bytes} (h : Standing size V fs₀ disk) (hsize : 4 ≤ size)
    (hsame : ∀ i < SECTOR_SIZE * size, disk' i = disk i) : Standing size V fs₀ disk' := by
  obtain ⟨hheader, T, hS, hfits, hfile, hcontent⟩ := h
  have hblock : ∀ b, Fits size b → ∀ i, i / 2048 = b → disk' i = disk i := by
    intro b hb i hi
    unfold Fits at hb
    exact hsame i (by unfold SECTOR_SIZE; omega)
  have hS' : Stored T fs₀.root disk' := { hS with
    fileBlock := fun f hf => (hS.fileBlock f hf).of_same (hblock f (hfits f hf).1)
    directory := fun f hf hdir => (hS.directory f hf hdir).of_same (hblock _ (hfits f hf).2) }
  refine ⟨fun i hi => ?_, T, hS', hfits, hfile, fun g hg hleaf i hi => ?_⟩
  · exact (hsame i (by unfold SECTOR_SIZE; omega)).trans (hheader i hi)
  · exact (hblock _ (hfits g hg).2 _ (by omega)).trans (hcontent g hg hleaf i hi)

/-- A disk at such a moment still has every file of the volume. -/
theorem Standing.recovers (h : Standing size V fs₀ fs.disk) (hroot : fs.root = fs₀.root) :
    Recovers fs V := by
  obtain ⟨-, T, hS, -, hfile, hcontent⟩ := h
  rw [← hroot] at hS hfile
  constructor
  · intro req h hO hpath
    rw [hfile] at hpath
    obtain ⟨page, hok⟩ := openNames_of_stored hS hS.root hpath
    refine ⟨opened { fs with page } h req.2, (NorlitFS.fileRead { fs with page } (sector h) 4).page,
      answer_of_serve ?_, rfl⟩
    rw [serve_opens hO, hok]
    rfl
  · intro req q hrd hzero hq hleaf
    have hnil := entries_of_resolve hfile hq hleaf
    have hmem := hS.resolve_mem hS.root (hfile ▸ hq)
    refine ⟨_, _, answer_of_serve (serve_reads hrd), funext fun i => ?_⟩
    have hlt := (hS.data_mem _ hmem).2
    rw [seek_of_stored hS hmem, if_pos hzero]
    unfold content reply
    dsimp only
    rw [Bytes.copy_of_mem (Nat.zero_le _) (by omega), Nat.zero_add, Nat.sub_zero,
      page_read hlt i.isLt]
    exact hcontent _ hmem hnil i i.isLt

end FSProcess

/-! ## The next start

The driver that starts looks for the signature and takes the root from the super block. Both are
in the part of the super block that no request writes. -/

namespace NorlitFS

variable {fs fs₀ : NorlitFS}

/-- The driver takes this disk for a file system. -/
def HasSignature (disk : Bytes) : Prop := ∀ i < 8, disk (SECTOR_SIZE + i) = signature.getD i 0

/-- The driver that starts from this disk has the root of `fs`. -/
structure Mounted (fs : NorlitFS) : Prop where
  signature : HasSignature fs.disk
  root : fs.disk.u32 rootAt = fs.root

/-- The start depends on the super block in front of its counter. -/
theorem Mounted.of_header (hM : Mounted fs₀) (hroot : fs.root = fs₀.root)
    (hsame : ∀ i < 528, fs.disk i = fs₀.disk i) : Mounted fs := by
  refine ⟨fun i hi => ?_, ?_⟩
  · rw [hsame _ (by unfold SECTOR_SIZE; omega)]
    exact hM.signature i hi
  · rw [hroot, ← hM.root]
    apply Bytes.u32_congr
    intro j hj
    exact hsame _ (by unfold rootAt SuperBlock.root SECTOR_SIZE; omega)

/-- The super block in the page. -/
theorem super_page {i : Nat} (hi : i < SECTOR_SIZE) :
    (fs.fileRead 1 1).page i = fs.disk (SECTOR_SIZE + i) := by
  unfold NorlitFS.fileRead
  dsimp only
  rw [Bytes.copy_of_mem (Nat.zero_le i) (by omega), Nat.sub_zero, Nat.mul_one]

/-- The signature in the page. -/
theorem super_signature (h : HasSignature fs.disk) :
    (List.range 8).map (fs.fileRead 1 1).page = signature := by
  have hmap : (List.range 8).map (fs.fileRead 1 1).page =
      (List.range 8).map fun i => signature.getD i 0 :=
    List.map_congr_left fun i hi => by
      have hlt := List.mem_range.mp hi
      exact (super_page (hlt.trans (by decide))).trans (h i hlt)
  exact hmap.trans (by decide)

/-- The root in the page. -/
theorem super_root : (fs.fileRead 1 1).page.u32 SuperBlock.root = fs.disk.u32 rootAt := by
  apply Bytes.u32_congr
  intro j hj
  rw [show rootAt + j = SECTOR_SIZE + (SuperBlock.root + j) from Nat.add_assoc _ _ _]
  exact super_page (by unfold SuperBlock.root SECTOR_SIZE; omega)

/-- Starting writes nothing. -/
theorem mount_disk {fs' : NorlitFS} (h : fs.mount = some fs') : fs'.disk = fs.disk := by
  unfold NorlitFS.mount at h
  dsimp only at h
  split at h
  · rw [← Option.some.inj h]
    rfl
  · cases h

/-- With the signature the start succeeds. -/
theorem mount_eq (h : HasSignature fs.disk) :
    fs.mount = some { fs.fileRead 1 1 with root := fs.disk.u32 rootAt } := by
  unfold NorlitFS.mount
  dsimp only
  rw [if_pos (super_signature h), super_root]

end NorlitFS

end NorlitOS
