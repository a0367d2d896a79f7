import NorlitOS.FileSystem.Enter
import NorlitOS.FileSystem.Names
import NorlitOS.Lib.Calls
import NorlitOS.Lib.Volume

/-!
# The file system as a volume

What clients see of the file system is a volume: the hashes of the components of a path lead to a
handle, and a handle stands for the 2048 bytes of its data block. The driver keeps directories in data
blocks as well, so that a file which has been written is no directory any more, and one that has
entries cannot be read as a file. Every client that is content with the volume is served by the
driver (`client_runs`).
-/

namespace NorlitOS

/-- What a file holds: one block. -/
abbrev Content : Type := Fin 2048 → UInt8

/-- Two blocks for a file, 256 entries for a directory, and zeroes in a new file. -/
def volumeKind : Volume.Kind Content := ⟨2, DIR_FILE_PTRS, fun _ => 0⟩

/-- The data of a message as the content of a file. -/
def content (data : Bytes) : Content := fun i => data i

namespace Tree

/-- The file that a path leads to. -/
def resolve (T : Tree) : Nat → List Nat → Option Nat
  | f, [] => some f
  | f, n :: q => (T.child f n).bind fun g => T.resolve g q

/-- The tree in which `h` is no directory. -/
def setPlain (T : Tree) (h : Nat) : Tree := { T with dir := Function.update T.dir h false }

end Tree

namespace NorlitFS

variable {fs fs' : NorlitFS} {T T' : Tree} {f g h n size : Nat} {q r : List Nat} {str : List UInt8}
  {msg : FileMessage} {C : Nat → Content}

/-! ## Paths

The tree is what a path is resolved in. Since hashes in a directory are distinct, a path leads to
one file at most. -/

/-- Resolving a path is following its edges. -/
theorem resolve_eq_some_iff (hT : Holds T fs) (hf : f ∈ T.files) :
    T.resolve f q = some h ↔ Run T.Edge f q h := by
  induction q generalizing f with
  | nil =>
    constructor
    · intro heq
      rw [← Option.some.inj heq]
      exact .nil f
    · intro hrun
      cases hrun
      rfl
  | cons n q ih =>
    rw [Tree.resolve, Option.bind_eq_some_iff]
    constructor
    · intro hex
      obtain ⟨g, hchild, hrest⟩ := hex
      have hE := Tree.edge_of_child hf hchild
      exact .cons hE ((ih (hT.edge_mem hE)).mp hrest)
    · intro hrun
      -- the first edge is the one that `child` finds, as hashes are distinct
      cases hrun with
      | cons first rest =>
        exact ⟨_, hT.child_of_edge first, (ih (hT.edge_mem first)).mpr rest⟩

/-- One part of a path and then the other. -/
theorem resolve_append : T.resolve f (q ++ r) = (T.resolve f q).bind fun g => T.resolve g r := by
  induction q generalizing f with
  | nil => rfl
  | cons n q ih =>
    rw [List.cons_append, Tree.resolve, Tree.resolve, Option.bind_assoc]
    congr 1
    funext g
    exact ih

theorem resolve_mem (hT : Holds T fs) (h : T.resolve fs.root q = some g) : g ∈ T.files := by
  have hrun := (resolve_eq_some_iff hT hT.root).mp h
  exact hrun.invariant (fun _ _ _ _ hE => hT.edge_mem hE) hT.root

/-- Under a directory with no entries there is nothing. -/
theorem resolve_of_nil (h : T.entries f = []) : T.resolve f q = some g ↔ q = [] ∧ g = f := by
  cases q with
  | nil => simp [Tree.resolve, eq_comm]
  | cons n q => simp [Tree.resolve, Tree.child_of_nil h]

/-- One more component. -/
theorem resolve_concat (hq : T.resolve fs.root q = some f) :
    T.resolve fs.root (q ++ [n]) = T.child f n := by
  rw [resolve_append, hq]
  change ((T.child f n).bind fun g => some g) = _
  cases T.child f n <;> rfl

variable (C) in
/-- The volume of a tree whose files hold `C`. -/
def Holds.volume (hT : Holds T fs) : Volume Nat Nat Content where
  file := T.resolve fs.root
  content := C
  plain h := T.dir h = false
  free := fs.disk.u32 counterAt
  root := rfl
  parent {q n} hsome := by
    rw [resolve_append] at hsome
    cases hq : T.resolve fs.root q with
    | none =>
      rw [hq] at hsome
      exact hsome
    | some f => rfl
  -- a file is at one path only
  inj {q q' h} hq hq' := by
    have hrun := (resolve_eq_some_iff hT hT.root).mp hq
    exact hT.rooted.labels_unique hrun ((resolve_eq_some_iff hT hT.root).mp hq')
  leaf {q n h} hq hplain := by
    rw [resolve_concat hq]
    exact Tree.child_of_nil (hT.plain h (resolve_mem hT hq) hplain)

/-- The block of a file holds `c`. -/
def HasContent (disk : Bytes) (d : Nat) (c : Content) : Prop :=
  ∀ i (hi : i < 2048), disk (2048 * d + i) = c ⟨i, hi⟩

/-- The leaves of the tree hold `C`. -/
def Contents (fs : NorlitFS) (T : Tree) (C : Nat → Content) : Prop :=
  ∀ g ∈ T.files, T.entries g = [] → HasContent fs.disk (T.data g) (C g)

/-- The disk stores a tree in a partition of `size` sectors, `V` is its volume, and its leaves hold
what the volume says. -/
def Represents (size : Nat) (fs : NorlitFS) (V : Volume Nat Nat Content) : Prop :=
  ∃ (T : Tree) (C : Nat → Content) (hT : Holds T fs), V = hT.volume C ∧ Contents fs T C ∧
    Lies size T fs.disk

/-! ## Opening

Opening a path is, component by component, finding a file or making a blank one at that path, and
this is what a volume does. -/

section Made

variable {d : Nat} (hT : Holds T fs) (hf : f ∈ T.files) (hG : Grown T fs f g d str fs')
  (hq : T.resolve fs.root q = some f) (hT' : Holds (T.insert f g d str) fs')

include hT hf hG hq hT'

/-- A new file adds its own path. -/
theorem resolve_insert : (T.insert f g d str).resolve fs'.root r = some h ↔
    T.resolve fs.root r = some h ∨ (h = g ∧ r = q ++ [stringHash str]) := by
  have hg := hG.file_notMem hT
  have hout : ∀ e t, ¬ (T.insert f g d str).Edge g e t := by
    intro e t hE
    have hmem := hE.2
    rw [insert_entries_new hf hg] at hmem
    exact absurd hmem List.not_mem_nil
  have hpath := (resolve_eq_some_iff hT hT.root).mp hq
  rw [resolve_eq_some_iff hT' hT'.root, resolve_eq_some_iff hT hT.root, hG.root,
    Run.insert_iff (insert_edge hf hg) hout]
  constructor
  · rintro (hold | ⟨rfl, r₀, rfl, hr₀⟩)
    · exact Or.inl hold
    · exact Or.inr ⟨rfl, by rw [hT.rooted.labels_unique hr₀ hpath]⟩
  · rintro (hold | ⟨rfl, rfl⟩)
    · exact Or.inl hold
    · exact Or.inr ⟨rfl, q, rfl, hpath⟩

/-- **A new file.** Opening its name is opening in the volume. -/
theorem opens_made (hno : ∀ e ∈ T.entries f, e.hash ≠ stringHash str) :
    (hT.volume C).Opens volumeKind (q ++ [stringHash str]) g
      (hT'.volume (Function.update C g fun _ => 0)) := by
  have hg := hG.file_notMem hT
  have hnone : T.resolve fs.root (q ++ [stringHash str]) = none := by
    rw [resolve_concat hq]
    cases hchild : T.child f (stringHash str) with
    | none => rfl
    | some g' => exact absurd rfl (hno _ (Tree.edge_of_child hf hchild).2)
  have hiff {r h} := resolve_insert (r := r) (h := h) hT hf hG hq hT'
  constructor
  case found => exact hiff.mpr (Or.inr ⟨rfl, rfl⟩)
  case file =>
    intro r
    change (T.insert f g d str).resolve fs'.root r = T.resolve fs.root r ∨ _
    cases hnew : (T.insert f g d str).resolve fs'.root r with
    | some h =>
      rcases hiff.mp hnew with hold | ⟨-, rfl⟩
      · exact Or.inl hold.symm
      · exact Or.inr ⟨hnone, List.prefix_refl _⟩
    | none =>
      cases hold : T.resolve fs.root r with
      | none => exact Or.inl rfl
      | some h => exact absurd ((hiff.mpr (Or.inl hold)).symm.trans hnew) (Option.some_ne_none h)
  case content =>
    intro r a ha
    exact Function.update_of_ne (ne_of_mem_of_not_mem (resolve_mem hT ha) hg) _ _
  case plain =>
    intro r a ha
    change (T.insert f g d str).dir a = false ↔ T.dir a = false
    rw [insert_dir hg (resolve_mem hT ha)]
  case made =>
    intro r a ha hnot
    rcases hiff.mp ha with hold | ⟨rfl, -⟩
    · exact absurd (hold.symm.trans hnot) (Option.some_ne_none a)
    · refine ⟨Function.update_self _ _ _, fun hplain => ?_⟩
      have hdir : (T.insert f a d str).dir a = true := Function.update_self _ _ _
      exact Bool.false_ne_true (hplain.symm.trans hdir)
  case free =>
    have hcounter := hG.counter
    have hone : (hT.volume C).missing [] (q ++ [stringHash str]) = 1 :=
      Volume.missing_concat (Option.isSome_of_mem hq) hnone
    rw [hone]
    exact hcounter

omit hq in
/-- Its block is zeroed, and the leaves there were stay as they are. -/
theorem content_made (hC : Contents fs T C) :
    Contents fs' (T.insert f g d str) (Function.update C g fun _ => 0) := by
  have hg := hG.file_notMem hT
  intro a ha hleaf i hi
  rcases List.mem_cons.mp ha with rfl | ha
  · rw [Function.update_self, show (T.insert f a d str).data a = d from Function.update_self _ _ _]
    exact hG.data i hi
  · have haf : a ≠ f := by
      rintro rfl
      rw [insert_entries_self] at hleaf
      exact List.append_ne_nil_of_right_ne_nil _ (List.cons_ne_nil _ _) hleaf
    rw [insert_entries hg ha haf] at hleaf
    rw [insert_data hg ha, Function.update_of_ne (ne_of_mem_of_not_mem ha hg)]
    exact (hG.same_block (hT.data_used a ha) (fun heq => haf (hT.data_inj ha hf heq)) _
      (by omega)).trans (hC a ha hleaf i hi)

end Made

/-- **A component.** -/
theorem opens_of_enters {w w' : Place} (hE : Enters w str w') (hw : w.Valid)
    (hq : w.tree.resolve w.fs.root q = some w.file) (hC : Contents w.fs w.tree C) :
    ∃ C', Contents w'.fs w'.tree C' ∧ (hw.holds.volume C).Opens volumeKind
      (q ++ [stringHash str]) w'.file ((hE.valid hw).holds.volume C') := by
  have hw' := hE.valid hw
  cases hE with
  | found hdir hE =>
    refine ⟨C, hC, .refl ?_⟩
    change Tree.resolve _ _ (q ++ [stringHash str]) = _
    rw [resolve_concat hq]
    exact hw.holds.child_of_edge hE
  | made hdir hno hlen hG =>
    exact ⟨_, content_made hw.holds hw.mem hG hw'.holds hC,
      opens_made hw.holds hw.mem hG hq hw'.holds hno⟩

/-- **A path.** Opening its components is opening in the volume. Induction on the components. -/
theorem opens_of_run {w w' : Place} {names : List (List UInt8)} (hrun : Run Enters w names w')
    (hw : w.Valid) (hq : w.tree.resolve w.fs.root q = some w.file) (hC : Contents w.fs w.tree C) :
    ∃ C', Contents w'.fs w'.tree C' ∧ (hw.holds.volume C).Opens volumeKind
      (q ++ names.map stringHash) w'.file ((valid_of_run hrun hw).holds.volume C') := by
  induction hrun generalizing q C with
  | nil w =>
    refine ⟨C, hC, ?_⟩
    rw [List.map_nil, List.append_nil]
    exact .refl hq
  | @cons w w₁ w' str names first rest ih =>
    obtain ⟨C₁, hC₁, hO₁⟩ := opens_of_enters first hw hq hC
    obtain ⟨C', hC', hO'⟩ := ih (first.valid hw) hO₁.found hC₁
    refine ⟨C', hC', ?_⟩
    rw [List.map_cons, ← List.singleton_append, ← List.append_assoc]
    exact hO₁.trans hO'

/-! ## Room

A volume has room for a path if there are two free blocks for each component to be made and room
in the directory where the first one goes. -/

theorem child_isSome_iff : (T.child f n).isSome ↔ n ∈ (T.entries f).map FileEntry.hash := by
  unfold Tree.child
  rw [Option.isSome_map, List.find?_isSome, List.mem_map]
  simp

/-- The names under a path are the entries of its directory. -/
theorem names_encard (hT : Holds T fs) (hf : f ∈ T.files) (hq : T.resolve fs.root q = some f) :
    ((hT.volume C).names q).encard = (T.entries f).length := by
  have hset : (hT.volume C).names q = ↑((T.entries f).map FileEntry.hash).toFinset := by
    ext n
    rw [List.coe_toFinset, Set.mem_ofPred_eq, ← child_isSome_iff, ← resolve_concat hq]
    rfl
  rw [hset, Set.encard_coe_eq_coe_finsetCard, List.toFinset_card_of_nodup (hT.hashes f hf),
    List.length_map]

/-- Where there is room, a path can be walked, and what the volume says is missing is. -/
theorem walkable_of_room {p : List Nat} (hT : Holds T fs) (hf : f ∈ T.files)
    (hq : T.resolve fs.root q = some f) (hroom : (hT.volume C).Room volumeKind (q ++ p)) :
    T.Walkable f p ∧ T.missing f p = (hT.volume C).missing q p := by
  induction p generalizing q f with
  | nil => exact ⟨trivial, rfl⟩
  | cons n p ih =>
    have hpre : q ++ [n] <+: q ++ n :: p := by simp
    have hdir : T.dir f = true := by
      have hnot := hroom.directory hpre hq
      exact eq_true_of_ne_false hnot
    have hconcat : (hT.volume C).file (q ++ [n]) = T.child f n := resolve_concat hq
    rw [Tree.Walkable, Tree.missing, Volume.missing, hconcat]
    cases hchild : T.child f n with
    | some g =>
      have hrest := ih (hT.edge_mem (Tree.edge_of_child hf hchild)) (hconcat.trans hchild)
        (by simpa using hroom)
      exact ⟨⟨hdir, hrest.1⟩, by simpa using hrest.2⟩
    | none =>
      have hnone : (hT.volume C).file (q ++ [n]) = none := hconcat.trans hchild
      have hlt := hroom.names hpre (Option.isSome_of_mem hq) hnone
      rw [names_encard hT hf hq] at hlt
      rw [Volume.missing_eq_length hnone]
      refine ⟨⟨hdir, Nat.cast_lt.mp hlt⟩, ?_⟩
      simp [Nat.add_comm]

/-- A leaf of the volume has no entries. -/
theorem entries_of_leaf (hT : Holds T fs) (hf : f ∈ T.files) (hq : T.resolve fs.root q = some f)
    (hleaf : (hT.volume C).Leaf q) : T.entries f = [] := by
  refine List.eq_nil_iff_forall_not_mem.mpr fun e he => ?_
  have hchild := hT.child_of_edge ⟨hf, he⟩
  have hnone : T.resolve fs.root (q ++ [e.hash]) = none := hleaf e.hash
  rw [resolve_concat hq, hchild] at hnone
  exact absurd hnone (Option.some_ne_none _)

/-! ## Writing

A file that has been written holds the payload and is plain from then on. The blocks of all the
others stay, so what they hold does too. -/

/-- A file without entries may be written. -/
theorem holds_written (hT : Holds T fs) (hh : msg.handle ∈ T.files) (hleaf : T.entries msg.handle = [])
    (hzero : msg.offset = 0) : Holds (T.setPlain msg.handle) (fs.written msg) ∧
      freeSet (fs.written msg).disk = freeSet fs.disk ∧
      (fs.written msg).disk.u32 counterAt = fs.disk.u32 counterAt := by
  have hP := hT.placed hh
  have hbase : base (extents fs.disk msg.handle) msg.offset = T.data msg.handle := by
    rw [base_eq hT hh, if_pos hzero]
  have hused := hT.data_used _ hh
  have hpos := hused.1.1
  have hother : ∀ i, i / 2048 ≠ T.data msg.handle → (fs.written msg).disk i = fs.disk i :=
    fun i hi => written_other hP (hbase ▸ hi)
  obtain ⟨hfree, hset, hcounter⟩ := hT.free.of_same
    (fun i _ hi => hother i (by omega)) fun i hi => hother i fun heq => hused.2 (heq ▸ hi)
  refine ⟨?_, hset, hcounter⟩
  constructor
  case free => exact hfree
  case root => exact hT.root
  case apart => exact hT.apart
  case file_used =>
    rw [hset]
    exact hT.file_used
  case data_used =>
    rw [hset]
    exact hT.data_used
  case fileBlock =>
    intro a ha
    exact (hT.fileBlock a ha).of_same fun i hi =>
      hother i (hi ▸ (hT.data_ne_file hh ha).symm)
  case directory =>
    intro a ha hdir
    have hne : a ≠ msg.handle := by
      rintro rfl
      exact Bool.false_ne_true ((Function.update_self _ _ _).symm.trans hdir)
    rw [show (T.setPlain msg.handle).dir a = T.dir a from Function.update_of_ne hne _ _] at hdir
    exact (hT.directory a ha hdir).of_same fun i hi =>
      hother i (hi ▸ fun heq => hne (hT.data_inj ha hh heq))
  case plain =>
    intro a ha hplain
    rcases eq_or_ne a msg.handle with rfl | hne
    · exact hleaf
    · rw [show (T.setPlain msg.handle).dir a = T.dir a from Function.update_of_ne hne _ _] at hplain
      exact hT.plain a ha hplain
  case hashes => exact hT.hashes
  case child => exact hT.child
  case rooted => exact hT.rooted
  case referenced => exact hT.referenced

/-- No path is affected. -/
theorem resolve_setPlain : (T.setPlain h).resolve f q = T.resolve f q := by
  induction q generalizing f with
  | nil => rfl
  | cons n q ih =>
    rw [Tree.resolve, Tree.resolve]
    change ((T.child f n).bind fun g => (T.setPlain h).resolve g q) = _
    congr 1
    funext g
    exact ih

/-- The contents after a write. -/
theorem contents_written (hT : Holds T fs) (hh : msg.handle ∈ T.files) (hzero : msg.offset = 0)
    (hC : Contents fs T C) : Contents (fs.written msg) (T.setPlain msg.handle)
      (Function.update C msg.handle (content msg.data)) := by
  have hP := hT.placed hh
  have hbase : base (extents fs.disk msg.handle) msg.offset = T.data msg.handle := by
    rw [base_eq hT hh, if_pos hzero]
  intro a ha hleaf i hi
  change (fs.written msg).disk (2048 * T.data a + i) = _
  rcases eq_or_ne a msg.handle with rfl | hne
  · rw [Function.update_self, ← hbase]
    exact written_base hP hi
  · rw [Function.update_of_ne hne, written_other hP]
    · exact hC a ha hleaf i hi
    · rw [hbase, show (2048 * T.data a + i) / 2048 = T.data a by omega]
      exact fun heq => hne (hT.data_inj ha hh heq)

/-! ## Requests

`Means` says which request is which operation of the volume, and `Told` what the answer says about
it. -/

/-- What a message asks of the volume. -/
inductive Means : FileMessage → Volume.Request Nat Nat Content → Prop where
  | openPath {msg : FileMessage} (hO : Opens msg) : Means msg (.openPath (hashes msg.data))
  | read {msg : FileMessage} (hR : Reads msg) (hzero : msg.offset = 0) : Means msg (.read msg.handle)
  | write {msg : FileMessage} (hW : Writes msg) (hzero : msg.offset = 0) :
      Means msg (.write msg.handle (content msg.data))

/-- What an answer says of it. -/
def Told (answer : FileMessage) : Volume.Answer Nat Content → Prop
  | .handle h => answer.handle = h
  | .content c => content answer.data = c
  | .done => True

/-- A request of a process, in the terms of the volume. -/
def VolumeStep (V : Volume Nat Nat Content) (req : Nat × FileMessage) (answer : FileMessage)
    (V' : Volume Nat Nat Content) : Prop :=
  ∃ r a, Means req.2 r ∧ Told answer a ∧ Volume.Step volumeKind V r a V'

/-- The volume allows the request. -/
def Permits (V : Volume Nat Nat Content) (req : Nat × FileMessage) : Prop :=
  ∃ r, Means req.2 r ∧ V.Allows volumeKind r

/-- The driver at the other end: a client sends a request and waits for the answer. -/
def answer (req : Nat × FileMessage) (fs : NorlitFS) : Except Stop (FileMessage × NorlitFS) :=
  match fs.serve req.1 req.2 with
  | .error e => .error e
  | .ok (fs, [(_, msg)]) => .ok (msg, fs)
  | .ok _ => .error .hang

variable {V V' : Volume Nat Nat Content} {req : Nat × FileMessage} {proc : Nat}

/-- A round with one answer, as the answer of a server. -/
theorem answer_of_serve {sent : FileMessage} (h : fs.serve req.1 req.2 = .ok (fs', [(req.1, sent)])) :
    answer req fs = .ok (sent, fs') := by
  unfold answer
  rw [h]

/-- Only the disk and the root matter. -/
theorem Represents.of_disk (hR : Represents size fs V) (hdisk : fs'.disk = fs.disk)
    (hroot : fs'.root = fs.root) : Represents size fs' V := by
  obtain ⟨disk', page', root'⟩ := fs'
  obtain rfl : disk' = fs.disk := hdisk
  obtain rfl : root' = fs.root := hroot
  obtain ⟨T, C, hT, rfl, hC, hlies⟩ := hR
  exact ⟨T, C, hT.of_disk rfl rfl, rfl, hC, hlies⟩

/-- The volume is in the partition, whatever is behind it. -/
theorem Represents.of_inside {disk page : Bytes} (hR : Represents size fs V)
    (hsame : ∀ i < SECTOR_SIZE * size, disk i = fs.disk i) :
    Represents size ⟨disk, page, fs.root⟩ V := by
  obtain ⟨T, C, hT, rfl, hC, hlies⟩ := hR
  have hblock : ∀ b, Fits size b → ∀ i, i / 2048 = b → disk i = fs.disk i := by
    intro b hb i hi
    unfold Fits at hb
    exact hsame i (by unfold SECTOR_SIZE; omega)
  have hsize := hlies.size_le hT.root
  obtain ⟨hfree, hset, hcounter⟩ : WellFormed disk ∧ freeSet disk = freeSet fs.disk ∧
      disk.u32 counterAt = fs.disk.u32 counterAt :=
    hT.free.of_same (fun i _ hi => hsame i (by unfold SECTOR_SIZE; omega))
      fun i hi => hblock _ (hlies.free _ hi) i rfl
  have hused : ∀ b ∈ blocks \ freeSet fs.disk, b ∈ blocks \ freeSet disk :=
    fun b hb => ⟨hb.1, hset ▸ hb.2⟩
  have hT' : Holds T ⟨disk, page, fs.root⟩ := { hT with
    free := hfree
    file_used := fun f hf => hused f (hT.file_used f hf)
    data_used := fun f hf => hused _ (hT.data_used f hf)
    fileBlock := fun f hf => (hT.fileBlock f hf).of_same (hblock f (hlies.file f hf))
    directory := fun f hf hdir =>
      (hT.directory f hf hdir).of_same (hblock _ (hlies.data f hf)) }
  refine ⟨T, C, hT', ?_, fun g hg hleaf i hi => ?_, hset ▸ hlies.free, hlies.file, hlies.data⟩
  · unfold Holds.volume
    congr 1
    exact hcounter.symm
  · exact (hblock _ (hlies.data g hg) _ (by omega)).trans (hC g hg hleaf i hi)

/-- A path for which there is room. -/
theorem opens_run (hT : Holds T fs)
    (hroom : (hT.volume C).Room volumeKind (hashes msg.data)) :
    ∃ w', Run Enters ⟨fs, T, fs.root⟩ (names msg.data) w' := by
  obtain ⟨hwalk, hmissing⟩ := walkable_of_room (q := []) hT hT.root rfl hroom
  apply exists_run_enters hT hT.root hwalk
  rw [hmissing]
  exact hroom.free

/-- A request to open. -/
theorem answer_opens (hR : Represents size fs V) (hO : Opens req.2)
    (hroom : V.Room volumeKind (hashes req.2.data)) : ∃ sent fs' V',
      answer req fs = .ok (sent, fs') ∧ V.Opens volumeKind (hashes req.2.data) sent.handle V' ∧
        Represents size fs' V' ∧ SameHeader fs fs' := by
  obtain ⟨T, C, hT, rfl, hC, hlies⟩ := hR
  obtain ⟨w', hrun⟩ := opens_run hT hroom
  have hw : Place.Valid ⟨fs, T, fs.root⟩ := ⟨hT, hT.root⟩
  obtain ⟨C', hC', hopens⟩ := opens_of_run (q := []) hrun hw rfl hC
  refine ⟨w'.fs.opened w'.file req.2, w'.fs.fileRead (sector w'.file) 4,
    (valid_of_run hrun hw).holds.volume C', answer_of_serve ?_, hopens, ?_⟩
  · rw [serve_opens hO, openNames_of_run hrun hw]
    rfl
  · exact ⟨⟨w'.tree, C', (valid_of_run hrun hw).holds.fileRead, rfl, hC', lies_of_run hrun hw hlies⟩,
      (header_of_run hrun hw).trans ⟨rfl, fun _ _ => rfl⟩⟩

/-- A request to read. -/
theorem answer_reads (hR : Represents size fs V) (hrd : Reads req.2) (hzero : req.2.offset = 0)
    (hq : V.file q = some req.2.handle) : ∃ sent fs', answer req fs = .ok (sent, fs') ∧
      (V.Leaf q → content sent.data = V.content req.2.handle) ∧ Represents size fs' V ∧
        SameHeader fs fs' := by
  have hR' := hR
  obtain ⟨T, C, hT, rfl, hC, hlies⟩ := hR
  have hmem := resolve_mem hT hq
  obtain ⟨fs', sent, hserve, hdata⟩ := serve_read req.1 hrd (hT.placed hmem)
  obtain ⟨hfs', -⟩ := Prod.mk.inj (Except.ok.inj ((serve_reads hrd).symm.trans hserve))
  have hdisk : fs'.disk = fs.disk := by
    rw [← hfs']
    rfl
  have hroot : fs'.root = fs.root := by
    rw [← hfs']
    rfl
  refine ⟨sent, fs', answer_of_serve hserve, fun hleaf => ?_, hR'.of_disk hdisk hroot, hroot,
    fun i _ => congrFun hdisk i⟩
  have hnil := entries_of_leaf hT hmem hq hleaf
  funext i
  have hblock := hdata i i.isLt
  rw [base_eq hT hmem, if_pos hzero] at hblock
  exact hblock.trans (hC _ hmem hnil i i.isLt)

/-- A request to write. -/
theorem answer_writes (hR : Represents size fs V) (hW : Writes req.2) (hzero : req.2.offset = 0)
    (hq : V.file q = some req.2.handle) (hleaf : V.Leaf q) : ∃ sent fs' V',
      answer req fs = .ok (sent, fs') ∧ V.Writes req.2.handle (content req.2.data) V' ∧
        Represents size fs' V' ∧ SameHeader fs fs' := by
  obtain ⟨T, C, hT, rfl, hC, hlies⟩ := hR
  have hmem := resolve_mem hT hq
  have hnil := entries_of_leaf hT hmem hq hleaf
  obtain ⟨hT', hset, hcounter⟩ := holds_written hT hmem hnil hzero
  refine ⟨req.2, fs.written req.2, hT'.volume (Function.update C req.2.handle (content req.2.data)),
    answer_of_serve (serve_writes hW), ?_, ⟨_, _, hT', rfl, contents_written hT hmem hzero hC,
      hset ▸ hlies.free, hlies.file, hlies.data⟩, rfl, fun i hi => ?_⟩
  case refine_2 =>
    -- the block written is not the first one
    have hpos := (hT.data_used _ hmem).1.1
    apply written_other (hT.placed hmem)
    rw [base_eq hT hmem, if_pos hzero]
    omega
  constructor
  case file => exact funext fun r => resolve_setPlain
  case self => exact Function.update_self _ _ _
  case other => exact fun g hne => Function.update_of_ne hne _ _
  case plain =>
    intro g
    change (T.setPlain req.2.handle).dir g = false ↔ T.dir g = false ∨ g = req.2.handle
    rcases eq_or_ne g req.2.handle with rfl | hne
    · exact iff_of_true (Function.update_self _ _ _) (Or.inr rfl)
    · rw [show (T.setPlain req.2.handle).dir g = T.dir g from Function.update_of_ne hne _ _]
      exact ⟨Or.inl, fun h => h.resolve_right hne⟩
  case free => exact hcounter

/-- One request that the volume permits. -/
theorem Represents.answered (hR : Represents size fs V) (hP : Permits V req) : ∃ sent fs' V',
    answer req fs = .ok (sent, fs') ∧ VolumeStep V req sent V' ∧ Represents size fs' V' ∧
      SameHeader fs fs' := by
  obtain ⟨r, hmeans, hallows⟩ := hP
  cases hr : r with
  | openPath p =>
    rw [hr] at hmeans hallows
    cases hmeans with
    | openPath hO =>
      obtain ⟨sent, fs', V', hok, hopens, hR'⟩ := answer_opens hR hO hallows
      exact ⟨sent, fs', V', hok, ⟨_, .handle sent.handle, .openPath hO, rfl, .openPath hopens⟩, hR'⟩
  | read h =>
    rw [hr] at hmeans hallows
    cases hmeans with
    | read hrd hzero =>
      obtain ⟨q, hq⟩ := hallows
      obtain ⟨sent, fs', hok, hcontent, hR'⟩ := answer_reads hR hrd hzero hq
      exact ⟨sent, fs', V, hok,
        ⟨_, .content (content sent.data), .read hrd hzero, rfl, .read hq hcontent⟩, hR'⟩
  | write h c =>
    rw [hr] at hmeans hallows
    cases hmeans with
    | write hW hzero =>
      obtain ⟨q, hq, hleaf⟩ := hallows
      obtain ⟨sent, fs', V', hok, hwrites, hR'⟩ := answer_writes hR hW hzero hq hleaf
      exact ⟨sent, fs', V', hok, ⟨_, .done, .write hW hzero, trivial, .write hwrites⟩, hR'⟩

/-- **Clients of the volume.** A client that asks a volume only what it permits, whatever it
answers, runs with the driver to its end, and gets there what the volume could have answered. -/
theorem client_runs {α : Type} {c : Calls (Nat × FileMessage) FileMessage Stop α}
    (hsafe : c.Safe VolumeStep Permits V) (hR : Represents size fs V) :
    ∃ a fs' V', c.run answer fs = .ok (a, fs') ∧ c.Ends VolumeStep V a V' ∧ Represents size fs' V' :=
  Calls.run_refines (fun _ _ _ hR hP => by
    obtain ⟨sent, fs', V', hok, hstep, hR', -⟩ := hR.answered hP
    exact ⟨sent, fs', V', hok, hstep, hR'⟩) hsafe hR

/-! ## What a step of the volume is

Read from the volume's side: what a request of each kind does to it. -/

namespace VolumeStep

variable {sent : FileMessage} (hV : VolumeStep V req sent V')

include hV

/-- A request to open. -/
theorem opens (hO : Opens req.2) : V.Opens volumeKind (hashes req.2.data) sent.handle V' := by
  obtain ⟨r, a, hmeans, htold, hstep⟩ := hV
  cases hmeans with
  | openPath _ =>
    cases hstep with
    | openPath hopens =>
      rw [show sent.handle = _ from htold]
      exact hopens
  | read hrd _ => exact absurd (hO.command.symm.trans hrd.command) (by decide)
  | write hW _ => exact absurd (hO.command.symm.trans hW.command) (by decide)

/-- A request to write. -/
theorem writes (hW : Writes req.2) : V.Writes req.2.handle (content req.2.data) V' := by
  obtain ⟨r, a, hmeans, htold, hstep⟩ := hV
  cases hmeans with
  | openPath hO => exact absurd (hO.command.symm.trans hW.command) (by decide)
  | read hrd _ => exact absurd (hrd.command.symm.trans hW.command) (by decide)
  | write _ _ =>
    cases hstep with
    | write hwrites => exact hwrites

/-- A request to read changes nothing, and tells what a leaf holds. -/
theorem reads (hrd : Reads req.2) : V' = V ∧ ∃ q, V.file q = some req.2.handle ∧
    (V.Leaf q → content sent.data = V.content req.2.handle) := by
  obtain ⟨r, a, hmeans, htold, hstep⟩ := hV
  cases hmeans with
  | openPath hO => exact absurd (hO.command.symm.trans hrd.command) (by decide)
  | read _ _ =>
    cases hstep with
    | @read q _ c hq hc =>
      exact ⟨rfl, q, hq, fun hleaf => (show content sent.data = c from htold).trans (hc hleaf)⟩
  | write hW _ => exact absurd (hrd.command.symm.trans hW.command) (by decide)

end VolumeStep

/-! ## A client

A program that opens a file and writes to it, as an instance: it asks nothing the volume does not
permit. -/

/-- A client that makes a file, writes ones to it and reads it. -/
def writesOnes (name : List UInt8) : Calls (Nat × FileMessage) FileMessage Stop FileMessage := do
  let file ← Calls.ask (7, openInRoot name)
  let _ ← Calls.ask (7, { request HD_WRITE 0 (fun _ => 1) with handle := file.handle })
  Calls.ask (7, { request HD_READ 0 (fun _ => 0) with handle := file.handle })

/-- Behind a new path there is nothing. -/
theorem leaf_of_opens {V V' : Volume Nat Nat Content} {p : List Nat} {h : Nat}
    (hO : V.Opens volumeKind p h V') (hnone : V.file p = none) : V'.Leaf p := by
  intro n
  rcases hO.file (p ++ [n]) with heq | ⟨-, hpre⟩
  · rw [heq]
    by_contra hsome
    have hp : (V.file p).isSome := V.parent (Option.isSome_iff_ne_none.mpr hsome)
    rw [hnone] at hp
    exact Bool.false_ne_true hp
  · have hlen := hpre.length_le
    rw [List.length_append, List.length_singleton] at hlen
    omega

variable {name : List UInt8} (hO : Opens (openInRoot name))
  (hroom : V.Room volumeKind (hashes (openInRoot name).data))
  (hnone : V.file (hashes (openInRoot name).data) = none)

include hO hroom hnone

/-- Its requests are permitted on any volume. -/
theorem writesOnes_safe : (writesOnes name).Safe VolumeStep Permits V := by
  refine ⟨⟨_, .openPath hO, hroom⟩, fun file V₁ h₁ => ?_⟩
  have hopens := h₁.opens hO
  have hleaf := leaf_of_opens hopens hnone
  have hW : Writes { request HD_WRITE 0 (fun _ => 1) with handle := file.handle } := ⟨rfl, rfl⟩
  refine ⟨⟨_, .write hW rfl, _, hopens.found, hleaf⟩, fun _ V₂ h₂ => ?_⟩
  have hwrites := VolumeStep.writes h₂ hW
  refine ⟨⟨_, .read ⟨rfl, rfl⟩ rfl, hashes (openInRoot name).data, ?_⟩, fun _ _ _ => trivial⟩
  rw [hwrites.file]
  exact hopens.found

omit hroom in
/-- It reads what it has written. -/
theorem writesOnes_ends {sent : FileMessage} {V' : Volume Nat Nat Content}
    (h : (writesOnes name).Ends VolumeStep V sent V') : content sent.data = fun _ => 1 := by
  cases h with
  | @call _ _ file _ _ V₁ _ h₁ rest =>
    cases rest with
    | @call _ _ w _ _ V₂ _ h₂ rest =>
      cases rest with
      | @call _ _ a _ _ V₃ _ h₃ rest =>
        cases rest with
        | done =>
          have hopens := h₁.opens hO
          have hwrites := VolumeStep.writes h₂ ⟨rfl, rfl⟩
          obtain ⟨-, q, hq, hread⟩ := VolumeStep.reads h₃ ⟨rfl, rfl⟩
          -- the file is at the path that was opened, and nothing is behind it
          have hfound : V₂.file (hashes (openInRoot name).data) = some file.handle := by
            rw [hwrites.file]
            exact hopens.found
          have hpath : q = hashes (openInRoot name).data := V₂.inj hq hfound
          refine (hread fun n => ?_).trans hwrites.self
          rw [hwrites.file, hpath]
          exact leaf_of_opens hopens hnone n

omit hO hroom hnone

/-- The volume of the fresh partition. -/
theorem fresh_volume : ∃ V, Represents (2 ^ 32) fresh V ∧ V.Bare fresh.root ∧ V.free = 6 := by
  obtain ⟨⟨T, hS, hnil⟩, -⟩ := fresh_empty
  refine ⟨hS.1.volume fun g i => fresh.disk (2048 * T.data g + i),
    ⟨T, _, hS.1, rfl, fun g _ _ i hi => rfl, hS.1.lies⟩, ⟨resolve_of_nil (hnil _), ?_⟩,
    fresh_counter⟩
  intro hplain
  exact Bool.false_ne_true (hplain.symm.trans (hS.2 _ hS.1.root))

/-- In an empty volume there is room for its file. -/
theorem writesOnes_bare {V : Volume Nat Nat Content} {h : Nat} (hB : V.Bare h) (hfree : 2 ≤ V.free) :
    (writesOnes [97]).Safe VolumeStep Permits V ∧ ∀ sent V',
      (writesOnes [97]).Ends VolumeStep V sent V' → content sent.data = fun _ => 1 := by
  have hO : Opens (openInRoot [97]) := ⟨rfl, rfl, rfl, by decide⟩
  have hhashes : hashes (openInRoot [97]).data = [97] := by decide
  have hnone : V.file (hashes (openInRoot [97]).data) = none := hhashes ▸ hB.eq_none
  have hroom : V.Room volumeKind (hashes (openInRoot [97]).data) := by
    rw [hhashes]
    exact hB.room (by decide) hfree
  exact ⟨writesOnes_safe hO hroom hnone, fun sent V' hends => writesOnes_ends hO hnone hends⟩

/-- The client runs on the fresh partition. -/
theorem client_runs_fresh : ∃ sent fs', (writesOnes [97]).run answer fresh = .ok (sent, fs') ∧
    content sent.data = fun _ => 1 := by
  obtain ⟨V, hR, hbare, hfree⟩ := fresh_volume
  obtain ⟨hsafe, hends⟩ := writesOnes_bare hbare (hfree ▸ by decide)
  obtain ⟨sent, fs', V', hrun, hend, -⟩ := client_runs hsafe hR
  exact ⟨sent, fs', hrun, hends sent V' hend⟩

end NorlitFS

end NorlitOS
