import NorlitOS.FileSystem.Write

/-!
# Names and their hashes

A directory finds a name by its hash alone. The hashes on the way from the root are therefore what
a file is known by: two paths lead to one file if and only if their components have the same
hashes. Two files have no block in common, but for the block 0 that an offset behind the end of
either leads to.
-/

namespace NorlitOS

namespace NorlitFS

variable {fs fs' : NorlitFS} {T : Tree} {f g h proc : Nat} {hs hs' : List Nat}
  {p q w rd : FileMessage}

/-! ## Paths and files -/

/-- Two paths of a tree lead to one file if and only if their hashes are the same. -/
theorem path_end_iff (hT : Holds T fs) (hp : Run T.Edge fs.root hs g)
    (hq : Run T.Edge fs.root hs' h) : g = h ↔ hs = hs' := by
  constructor
  · intro heq
    rw [← heq] at hq
    exact hT.rooted.labels_unique hp hq
  · intro heq
    rw [← heq] at hq
    have hdet : ∀ {s e t t'}, T.Edge s e t → T.Edge s e t' → t = t' :=
      fun first first' => hT.edge_unique first first'
    exact Run.end_unique @hdet hp hq

theorem Holds.child_of_edge {n : Nat} (hT : Holds T fs) (hE : T.Edge f n g) : T.child f n = some g := by
  cases hchild : T.child f n with
  | none => exact absurd rfl (Tree.child_eq_none hchild ⟨g, n⟩ hE.2)
  | some g' => rw [hT.edge_unique (Tree.edge_of_child hE.1 hchild) hE]

/-- A path that is there can be walked, and nothing of it is missing. -/
theorem walkable_of_path (hT : Holds T fs) (hdir : ∀ f ∈ T.files, T.dir f = true)
    (hp : Run T.Edge f hs g) : T.Walkable f hs ∧ T.missing f hs = 0 := by
  induction hp with
  | nil => exact ⟨trivial, rfl⟩
  | cons first _ ih =>
    rw [Tree.Walkable, Tree.missing, hT.child_of_edge first]
    exact ⟨⟨hdir _ first.1, ih.1⟩, ih.2⟩

/-! ## What a read sees -/

/-- The answer to the read `rd` is the same behind the write `w`. -/
def Unseen (fs : NorlitFS) (proc : Nat) (w rd : FileMessage) : Prop :=
  ∀ fs₁ fs₂ fs₃ a b, fs.serve proc w = .ok (fs₁, [(proc, w)]) →
    fs.serve proc rd = .ok (fs₂, [(proc, a)]) → fs₁.serve proc rd = .ok (fs₃, [(proc, b)]) →
      ∀ i < 2048, b.data i = a.data i

theorem base_eq (hT : Holds T fs) (hf : f ∈ T.files) {offset : Nat} :
    base (extents fs.disk f) offset = if offset = 0 then T.data f else 0 := by
  unfold base
  rw [hT.extents hf, locate]
  split
  · rw [if_pos (by omega)]
    rfl
  · rw [if_neg (by omega)]
    rfl

section Unseen

variable (hT : Holds T fs) (hw : w.handle ∈ T.files) (hr : rd.handle ∈ T.files)

include hT hw hr

/-- The block table of a file is not in the block written through another. -/
theorem written_placed : Placed (fs.written w).disk rd.handle ∧
    extents (fs.written w).disk rd.handle = extents fs.disk rd.handle := by
  have hne : base (extents fs.disk w.handle) w.offset ≠ rd.handle := by
    rw [base_eq hT hw]
    split
    · exact hT.data_ne_file hw hr
    · exact (hT.file_used _ hr).1.1.ne
  have hsame : extents (fs.written w).disk rd.handle = extents fs.disk rd.handle := by
    apply extents_congr
    intro i hi
    apply written_other (hT.placed hw)
    rw [hi]
    exact hne.symm
  have hP := hT.placed hr
  refine ⟨⟨hP.used, ?_⟩, hsame⟩
  rw [hsame]
  exact hP.inside

/-- Reading before and behind a write. -/
theorem unseen_iff_disk (hW : Writes w) (hR : Reads rd) : fs.Unseen proc w rd ↔ ∀ i < 2048,
    (fs.written w).disk (2048 * base (extents fs.disk rd.handle) rd.offset + i) =
      fs.disk (2048 * base (extents fs.disk rd.handle) rd.offset + i) := by
  obtain ⟨hP', hsame⟩ := written_placed hT hw hr
  obtain ⟨fs₂, a, hbefore, ha⟩ := serve_read proc hR (hT.placed hr)
  obtain ⟨fs₃, b, hbehind, hb⟩ := serve_read proc hR hP'
  rw [hsame] at hb
  constructor
  · intro h i hi
    rw [← ha i hi, ← hb i hi]
    exact h _ _ _ _ _ (serve_writes hW) hbefore hbehind i hi
  · intro h fs₁' fs₂' fs₃' a' b' hok hok₂ hok₃ i hi
    obtain ⟨rfl, -⟩ := Prod.mk.inj (Except.ok.inj ((serve_writes hW).symm.trans hok))
    have hsent := (Prod.mk.inj (Except.ok.inj (hbefore.symm.trans hok₂))).2
    have hsent' := (Prod.mk.inj (Except.ok.inj (hbehind.symm.trans hok₃))).2
    obtain rfl : a = a' := by simpa using hsent
    obtain rfl : b = b' := by simpa using hsent'
    rw [ha i hi, hb i hi]
    exact h i hi

/-- Two files share no block but block 0. -/
theorem unseen_iff (hne : w.handle ≠ rd.handle) (hW : Writes w) (hR : Reads rd) :
    fs.Unseen proc w rd ↔
      w.offset = 0 ∨ rd.offset = 0 ∨ ∀ i < 2048, fs.disk i = w.data i := by
  have hP := hT.placed hw
  -- the data blocks of two files differ, and none of them is block 0
  have hdata : T.data w.handle ≠ T.data rd.handle := fun heq => hne (hT.data_inj hw hr heq)
  have hzero : ∀ f ∈ T.files, T.data f ≠ 0 := fun f hf => (hT.data_used f hf).1.1.ne'
  rw [unseen_iff_disk hT hw hr hW hR]
  by_cases hboth : w.offset ≠ 0 ∧ rd.offset ≠ 0
  · -- both are block 0
    obtain ⟨hwo, hro⟩ := hboth
    have hbase : base (extents fs.disk w.handle) w.offset = 0 := by
      rw [base_eq hT hw, if_neg hwo]
    rw [base_eq hT hr, if_neg hro, or_iff_right hwo, or_iff_right hro, ← hbase]
    constructor
    · intro h i hi
      have hi' := (h i hi).symm.trans (written_base hP hi)
      rwa [hbase, Nat.mul_zero, Nat.zero_add] at hi'
    · intro h i hi
      rw [written_base hP hi, hbase, Nat.mul_zero, Nat.zero_add]
      exact (h i hi).symm
  · -- otherwise the two blocks differ, and the write is not seen
    have hapart : base (extents fs.disk rd.handle) rd.offset ≠
        base (extents fs.disk w.handle) w.offset := by
      rw [base_eq hT hw, base_eq hT hr]
      split
      · split
        · exact hdata.symm
        · exact hzero _ hr
      · rw [if_pos (by tauto)]
        exact (hzero _ hw).symm
    refine iff_of_true (fun i hi => written_other hP ?_) (by tauto)
    rw [show (2048 * base (extents fs.disk rd.handle) rd.offset + i) / 2048 =
      base (extents fs.disk rd.handle) rd.offset by omega]
    exact hapart

end Unseen

/-! ## Two paths -/

/-- `p` and then `q` get the handles `g` and `h`, and leave `fs'`. -/
def Handed (fs : NorlitFS) (proc : Nat) (p q : FileMessage) (g h : Nat) (fs' : NorlitFS) : Prop :=
  ∃ fs₁ a b, fs.serve proc p = .ok (fs₁, [(proc, a)]) ∧ fs₁.serve proc q = .ok (fs', [(proc, b)]) ∧
    a.handle = g ∧ b.handle = h

/-- The two handles differ, and the write `w` through either is not seen by the read `rd` through
the other. -/
def Separate (fs : NorlitFS) (proc : Nat) (p q w rd : FileMessage) : Prop :=
  ∀ g h fs', fs.Handed proc p q g h fs' → g ≠ h ∧
    fs'.Unseen proc { w with handle := g } { rd with handle := h } ∧
      fs'.Unseen proc { w with handle := h } { rd with handle := g }

theorem Asks.enough (h : fs.Asks p) (hp : Opens p) : fs.Enough p.data := by
  cases h with
  | inl hopen => exact hopen.2
  | inr hread => exact absurd (hp.command.symm.trans hread.command) (by decide)

theorem Handed.unique {g' h' : Nat} {fs₂ : NorlitFS} (h₁ : fs.Handed proc p q g h fs')
    (h₂ : fs.Handed proc p q g' h' fs₂) : g' = g ∧ h' = h ∧ fs₂ = fs' := by
  obtain ⟨fs₁, a, b, hp, hq, rfl, rfl⟩ := h₁
  obtain ⟨fs₁', a', b', hp', hq', rfl, rfl⟩ := h₂
  obtain ⟨rfl, ha⟩ := Prod.mk.inj (Except.ok.inj (hp.symm.trans hp'))
  obtain ⟨rfl, hb⟩ := Prod.mk.inj (Except.ok.inj (hq.symm.trans hq'))
  obtain rfl : a = a' := by simpa using ha
  obtain rfl : b = b' := by simpa using hb
  exact ⟨rfl, rfl, rfl⟩

variable (proc) in
/-- Opening two paths gives two files of one tree. -/
theorem handed (hS : fs.Stores T) (hsmall : Small fs) (hp : Opens p) (hq : Opens q)
    (hspace : fs.Enough p.data)
    (hnext : ∀ fs₁ T₁ a, fs.serve proc p = .ok (fs₁, [(proc, a)]) → fs₁.Stores T₁ →
      Run T₁.Edge fs₁.root (hashes p.data) a.handle → T₁.Walkable fs₁.root (hashes q.data) ∧
        2 * T₁.missing fs₁.root (hashes q.data) ≤ fs₁.disk.u32 counterAt) :
    ∃ g h fs' T', fs.Handed proc p q g h fs' ∧ Holds T' fs' ∧ g ∈ T'.files ∧ h ∈ T'.files ∧
      Run T'.Edge fs'.root (hashes p.data) g ∧ Run T'.Edge fs'.root (hashes q.data) h := by
  unfold Enough at hspace
  rw [missing_eq hS hS.1.root] at hspace
  obtain ⟨g, fs₁, T₁, hok, hopened⟩ :=
    serve_opened proc hS.1 hp (hsmall.walkable hS .root) hspace
  have hS₁ := hopened.stores hS
  have hpath : Run T₁.Edge fs₁.root (hashes p.data) g := hopened.root.symm ▸ hopened.path
  obtain ⟨hwalk, hspace'⟩ := hnext _ T₁ _ hok ⟨hS₁.1.fileRead, hS₁.2⟩ hpath
  -- the second path is opened on the tree that the first one left
  obtain ⟨h, fs₂, T₂, hok₂, hopened₂⟩ := serve_opened proc hS₁.1.fileRead hq hwalk hspace'
  refine ⟨g, h, _, T₂, ⟨_, _, _, hok, hok₂, rfl, rfl⟩, hopened₂.holds.fileRead,
    hopened₂.grows.files g hopened.mem, hopened₂.mem, ?_, ?_⟩
  · -- the tree only grows, so the first path stays
    have hroot : fs₂.root = fs₁.root := hopened₂.root
    change Run T₂.Edge fs₂.root _ g
    rw [hroot]
    exact hpath.mono fun _ _ _ hE => hopened₂.grows.edge hE
  · have hroot : fs₂.root = fs₁.root := hopened₂.root
    change Run T₂.Edge fs₂.root _ h
    rw [hroot]
    exact hopened₂.path

/-- Once both are open, the hashes decide. -/
theorem Handed.separate_iff_hashes (hH : fs.Handed proc p q g h fs') (hT : Holds T fs') (hg : g ∈ T.files)
    (hh : h ∈ T.files) (hpath : Run T.Edge fs'.root hs g) (hpath' : Run T.Edge fs'.root hs' h)
    (hW : Writes w) (hR : Reads rd) : fs.Separate proc p q w rd ↔ hs ≠ hs' ∧
      (w.offset = 0 ∨ rd.offset = 0 ∨ ∀ i < 2048, fs'.disk i = w.data i) := by
  have hwrites : ∀ g, Writes { w with handle := g } := fun _ => ⟨hW.signature, hW.command⟩
  have hreads : ∀ g, Reads { rd with handle := g } := fun _ => ⟨hR.signature, hR.command⟩
  have hend : g ≠ h ↔ hs ≠ hs' := not_congr (path_end_iff hT hpath hpath')
  have hunseen : ∀ {a b}, a ∈ T.files → b ∈ T.files → a ≠ b →
      (fs'.Unseen proc { w with handle := a } { rd with handle := b } ↔
        w.offset = 0 ∨ rd.offset = 0 ∨ ∀ i < 2048, fs'.disk i = w.data i) :=
    fun ha hb hne => unseen_iff hT ha hb hne (hwrites _) (hreads _)
  constructor
  · intro hsep
    obtain ⟨hne, hsee, -⟩ := hsep g h fs' hH
    exact ⟨hend.mp hne, (hunseen hg hh hne).mp hsee⟩
  · intro hcond g' h' fs₂ hH'
    obtain ⟨rfl, rfl, rfl⟩ := hH.unique hH'
    have hne := hend.mpr hcond.1
    exact ⟨hne, (hunseen hg hh hne).mpr hcond.2, (hunseen hh hg hne.symm).mpr hcond.2⟩

/-- **Paths and files.** Two paths get separate files if and only if the hashes of their components
differ; a write and a read that both miss their files meet in block 0. -/
theorem separate_iff (hstart : ∃ T, fs.Stores T) (hsmall : Small fs) (hp : Opens p) (hq : Opens q)
    (hrun : Run Serves fs [(proc, p), (proc, q)] fs') (hW : Writes w) (hR : Reads rd) :
    fs.Separate proc p q w rd ↔ hashes p.data ≠ hashes q.data ∧
      (w.offset = 0 ∨ rd.offset = 0 ∨ ∀ i < 2048, fs'.disk i = w.data i) := by
  obtain ⟨T, hS⟩ := hstart
  cases hrun with
  | cons first rest =>
    cases rest with
    | cons second rest =>
      cases rest with
      | nil =>
        obtain ⟨hask, hsmall₁, sent, hok⟩ := first
        obtain ⟨hask', -, sent', hok'⟩ := second
        -- the second request is served in the state that the first one leaves
        obtain ⟨g, h, fs₂, T', hH, hT', hg, hh, hpath, hpath'⟩ :=
          handed proc hS hsmall hp hq (hask.enough hp) fun fs₁ T₁ a hserve hS₁ _ => by
            obtain ⟨rfl, -⟩ := Prod.mk.inj (Except.ok.inj (hok.symm.trans hserve))
            have hspace := hask'.enough hq
            unfold Enough at hspace
            rw [missing_eq hS₁ hS₁.1.root] at hspace
            exact ⟨hsmall₁.walkable hS₁ .root, hspace⟩
        obtain rfl : fs₂ = fs' := by
          obtain ⟨fs₁, a, b, hserve, hserve', -, -⟩ := hH
          obtain ⟨rfl, -⟩ := Prod.mk.inj (Except.ok.inj (hok.symm.trans hserve))
          exact (Prod.mk.inj (Except.ok.inj (hserve'.symm.trans hok'))).1
        exact hH.separate_iff_hashes hT' hg hh hpath hpath' hW hR

/-- A request to read the first block. -/
def readFirst : FileMessage := request HD_READ 0 fun _ => 0

/-- The root, and then `/a`. -/
theorem separate_iff_fresh : ∃ fs', fresh.Separate 7 (openInRoot []) (openInRoot [97]) (ones 0) readFirst ↔
    hashes (openInRoot []).data ≠ hashes (openInRoot [97]).data ∧
      ((ones 0).offset = 0 ∨ readFirst.offset = 0 ∨
        ∀ i < 2048, NorlitFS.disk fs' i = (ones 0).data i) := by
  obtain ⟨⟨T, hS, hnil⟩, hsmall⟩ := fresh_empty
  have hroot : Opens (openInRoot []) := ⟨rfl, rfl, rfl, by decide⟩
  have hname : Opens (openInRoot [97]) := ⟨rfl, rfl, rfl, by decide⟩
  have hfirst : fresh.serve 7 (openInRoot []) = .ok (fresh.fileRead (sector fresh.root) 4,
      [(7, fresh.opened fresh.root (openInRoot []))]) := by
    rw [serve_opens hroot, show names (openInRoot []).data = [] by decide]
    rfl
  set fs₁ := fresh.fileRead (sector fresh.root) 4 with hfs₁
  have hS₁ : fs₁.Stores T := ⟨hS.1.fileRead, hS.2⟩
  have hsmall₁ : Small fs₁ := hsmall.of_disk hS rfl rfl
  have hsix : fs₁.disk.u32 counterAt = 6 := fresh_counter
  -- the first name that the root does not have yet
  obtain ⟨fs₂, sent, hsecond, hsmall₂, -⟩ := hS₁.serve_first 7 hnil hname
    (show names (openInRoot [97]).data = [[97]] by decide) (by rw [hsix]; decide)
  have hspace : fresh.Enough (openInRoot []).data := by
    apply enough_of_length
    rw [fresh_counter]
    decide
  have hspace' : fs₁.Enough (openInRoot [97]).data := by
    apply enough_of_length
    rw [hsix]
    decide
  exact ⟨fs₂, separate_iff ⟨T, hS⟩ hsmall hroot hname
    (.cons ⟨Or.inl ⟨hroot, hspace⟩, hsmall₁, _, hfirst⟩
      (.single ⟨Or.inl ⟨hname, hspace'⟩, hsmall₂, sent, hsecond⟩)) ⟨rfl, rfl⟩ ⟨rfl, rfl⟩⟩

/-- `/Aa` and `/BB` are one file. -/
theorem not_separate_fresh : (∃ T, fresh.Stores T) ∧ fresh.Enough (openInRoot [65, 97]).data ∧
    names (openInRoot [65, 97]).data ≠ names (openInRoot [66, 66]).data ∧
      ¬ fresh.Separate 7 (openInRoot [65, 97]) (openInRoot [66, 66]) (ones 0) readFirst := by
  obtain ⟨⟨T, hS⟩, hsmall⟩ := fresh_stores
  have hp : Opens (openInRoot [65, 97]) := ⟨rfl, rfl, rfl, by decide⟩
  have hq : Opens (openInRoot [66, 66]) := ⟨rfl, rfl, rfl, by decide⟩
  have hsame : hashes (openInRoot [65, 97]).data = hashes (openInRoot [66, 66]).data := by decide
  have hspace : fresh.Enough (openInRoot [65, 97]).data := by
    apply enough_of_length
    rw [fresh_counter]
    decide
  refine ⟨⟨T, hS⟩, hspace, by decide, fun hsep => ?_⟩
  obtain ⟨g, h, fs', T', hH, hT', hg, hh, hpath, hpath'⟩ :=
    handed 7 hS hsmall hp hq hspace fun fs₁ T₁ a _ hS₁ hpath => by
      -- the second path is the one that was just opened
      obtain ⟨hwalk, hmissing⟩ := walkable_of_path hS₁.1 hS₁.2 (hsame ▸ hpath)
      exact ⟨hwalk, by omega⟩
  exact ((hH.separate_iff_hashes hT' hg hh hpath hpath' ⟨rfl, rfl⟩ ⟨rfl, rfl⟩).mp hsep).1 hsame

end NorlitFS

end NorlitOS
