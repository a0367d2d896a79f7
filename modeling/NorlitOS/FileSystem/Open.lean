import NorlitOS.FileSystem.Walk

/-!
# Opening a path

The loop over the characters of a path opens its components one after the other. Components that
are there are followed along the edges of the tree; from the first missing one on every component
is made, each in the directory made before it. What comes out is the file at the end of the path
in the tree as it is then.
-/

namespace NorlitOS

namespace Tree

variable {T T' T₁ : Tree} {f g h n : Nat} {hs : List Nat}

/-- The file that `f` has under the hash `h`. -/
def child (T : Tree) (f h : Nat) : Option Nat :=
  ((T.entries f).find? fun e => e.hash = h).map FileEntry.address

/-- How many of the components are not there. -/
def missing (T : Tree) (f : Nat) : List Nat → Nat
  | [] => 0
  | h :: hs =>
    match T.child f h with
    | some g => T.missing g hs
    | none => hs.length + 1

/-- The way leads through directories, and a missing name has room in the last of them. -/
def Walkable (T : Tree) (f : Nat) : List Nat → Prop
  | [] => True
  | h :: hs =>
    T.dir f = true ∧
    match T.child f h with
    | some g => T.Walkable g hs
    | none => (T.entries f).length < DIR_FILE_PTRS

/-- What is in a tree stays. -/
structure Extends (T T' : Tree) : Prop where
  files : ∀ f ∈ T.files, f ∈ T'.files
  data : ∀ f ∈ T.files, T'.data f = T.data f
  dir : ∀ f ∈ T.files, T'.dir f = T.dir f
  dirs : ∀ f ∈ T'.files, f ∉ T.files → T'.dir f = true
  edge : ∀ {f n g}, T.Edge f n g → T'.Edge f n g

/-- A tree extends itself. -/
theorem Extends.refl : Extends T T where
  files _ hf := hf
  data _ _ := rfl
  dir _ _ := rfl
  dirs _ hf hnot := absurd hf hnot
  edge h := h

/-- From one component to the next. -/
theorem Extends.trans (h₁ : Extends T T₁) (h₂ : Extends T₁ T') : Extends T T' where
  files f hf := h₂.files f (h₁.files f hf)
  data f hf := (h₂.data f (h₁.files f hf)).trans (h₁.data f hf)
  dir f hf := (h₂.dir f (h₁.files f hf)).trans (h₁.dir f hf)
  dirs f hf hnot := by
    by_cases hf₁ : f ∈ T₁.files
    · rw [h₂.dir f hf₁]
      exact h₁.dirs f hf₁ hnot
    · exact h₂.dirs f hf hf₁
  edge h := h₂.edge (h₁.edge h)

/-- No child under a hash means no entry with it. -/
theorem child_eq_none (h : T.child f n = none) : ∀ e ∈ T.entries f, e.hash ≠ n := by
  intro e he
  have hnone := List.find?_eq_none.mp (Option.map_eq_none_iff.mp h) e he
  simpa using hnone

/-- A child is at the end of an edge. -/
theorem edge_of_child (hf : f ∈ T.files) (h : T.child f n = some g) : T.Edge f n g := by
  obtain ⟨e, hfind, rfl⟩ := Option.map_eq_some_iff.mp h
  have hhash : e.hash = n := by simpa using List.find?_some hfind
  refine ⟨hf, ?_⟩
  rw [← hhash]
  exact List.mem_of_find?_eq_some hfind

/-- A directory without entries has no children. -/
theorem child_of_nil (h : T.entries f = []) : T.child f n = none := by
  rw [child, h]
  rfl

/-- Below a leaf everything is missing. -/
theorem missing_of_nil (h : T.entries f = []) : T.missing f hs = hs.length := by
  cases hs with
  | nil => rfl
  | cons n hs => rw [missing, child_of_nil h, List.length_cons]

/-- Any path can be walked from an empty directory, since the rest of it will be new. -/
theorem walkable_of_nil (hdir : T.dir f = true) (h : T.entries f = []) : T.Walkable f hs := by
  cases hs with
  | nil => trivial
  | cons n hs =>
    rw [Walkable, child_of_nil h]
    refine ⟨hdir, ?_⟩
    rw [h]
    exact Nat.succ_pos 255

end Tree

namespace NorlitFS

variable {fs fs' : NorlitFS} {T T' : Tree} {f g n : Nat} {hs : List Nat} {str : List UInt8}
  {p rest : List UInt8} {data : Bytes}

/-- A new file extends the tree. -/
theorem Grown.extension {d : Nat} {name : List UInt8} (hG : Grown T fs f g d name fs')
    (hT : Holds T fs) (hf : f ∈ T.files) : T.Extends (T.insert f g d name) := by
  have hg := hG.file_notMem hT
  refine ⟨fun a ha => List.mem_cons_of_mem g ha, fun a ha => insert_data hg ha,
    fun a ha => insert_dir hg ha, fun a ha hnot => ?_, fun h => (insert_edge hf hg).mpr (Or.inl h)⟩
  obtain rfl : a = g := (List.mem_cons.mp ha).resolve_right hnot
  exact Function.update_self _ _ _

/-! ## The components one by one

The path as a list of names. What is there is followed, and from the first missing name on
everything is made. -/

/-- The path loop, component by component. -/
def openNames (fs : NorlitFS) (dirAddr : Nat) : List (List UInt8) → Except Stop (Nat × NorlitFS)
  | [] => .ok (dirAddr, fs)
  | str :: names => do
    let (dirAddr, fs) ← fs.openName dirAddr str
    fs.openNames dirAddr names

/-- What opening the components leaves: a tree in which they lead from `f` to `g`. -/
structure Opened (T : Tree) (fs : NorlitFS) (f : Nat) (hs : List Nat) (g : Nat) (fs' : NorlitFS)
    (T' : Tree) : Prop where
  holds : Holds T' fs'
  grows : T.Extends T'
  root : fs'.root = fs.root
  path : Run T'.Edge f hs g
  mem : g ∈ T'.files
  counter : fs'.disk.u32 counterAt + 2 * T.missing f hs = fs.disk.u32 counterAt

/-- **Opening components.** Induction on the components: one that is there is followed, one that is
missing makes the tree grow. -/
theorem openNames_opened {names : List (List UInt8)} (hT : Holds T fs) (hf : f ∈ T.files)
    (hwalk : T.Walkable f (names.map stringHash))
    (hspace : 2 * T.missing f (names.map stringHash) ≤ fs.disk.u32 counterAt) :
    ∃ g fs' T', fs.openNames f names = .ok (g, fs') ∧
      Opened T fs f (names.map stringHash) g fs' T' := by
  induction names generalizing fs T f with
  | nil => exact ⟨f, fs, T, rfl, hT, Tree.Extends.refl, rfl, .nil f, hf, rfl⟩
  | cons str names ih =>
    rw [List.map_cons] at hwalk hspace ⊢
    rw [Tree.missing] at hspace
    obtain ⟨hdir, hwalk⟩ := hwalk
    cases hchild : T.child f (stringHash str) with
    | some g =>
      rw [hchild] at hwalk hspace
      -- the component is there, and the tree stays
      have hE := Tree.edge_of_child hf hchild
      have hstep := openName_found hT hf hdir hE
      have hT₁ : Holds T (fs.readDirectory T f) := hT.of_disk readDirectory_disk readDirectory_root
      obtain ⟨g', fs', T', hok, hO⟩ := ih hT₁ (hT.edge_mem hE) hwalk hspace
      refine ⟨g', fs', T', ?_, hO.holds, hO.grows, hO.root, .cons (hO.grows.edge hE) hO.path,
        hO.mem, ?_⟩
      · rw [openNames, hstep]
        exact hok
      · rw [Tree.missing, hchild]
        exact hO.counter
    | none =>
      rw [hchild] at hwalk hspace
      dsimp only at hwalk hspace
      rw [List.length_map] at hspace
      have hno := Tree.child_eq_none hchild
      -- the component is missing: it costs two blocks, and the rest of the path hangs off a leaf
      obtain ⟨d, hG⟩ := addEntry_grown str hT hf hdir hwalk (by omega)
      have hstep := openName_missing hT hf hdir hno hwalk
      set r := (fs.readDirectory T f).addEntry (T.data f) (T.entries f).length str with hr
      have hgrown := Holds.grow hG hT hf hdir hno
      have hgrows := hG.extension hT hf
      have hleaf : (T.insert f r.1 d str).entries r.1 = [] :=
        insert_entries_new hf (hG.file_notMem hT)
      have hcounter := hG.counter
      have hmissing : (T.insert f r.1 d str).missing r.1 (names.map stringHash) = names.length := by
        rw [Tree.missing_of_nil hleaf, List.length_map]
      obtain ⟨g', fs', T', hok, hO⟩ := ih hgrown List.mem_cons_self
        (Tree.walkable_of_nil (Function.update_self _ _ _) hleaf) (by omega)
      have hlast := hO.counter
      -- the path starts with the new edge
      have hE : (T.insert f r.1 d str).Edge f (stringHash str) r.1 :=
        (insert_edge hf (hG.file_notMem hT)).mpr (Or.inr ⟨rfl, rfl, rfl⟩)
      refine ⟨g', fs', T', ?_, hO.holds, hgrows.trans hO.grows, hO.root.trans hG.root,
        .cons (hO.grows.edge hE) hO.path, hO.mem, ?_⟩
      · rw [openNames, hstep]
        exact hok
      · rw [Tree.missing, hchild]
        dsimp only
        rw [List.length_map]
        omega

/-! ## The characters

The loop of the source goes over characters and opens a component at each slash. On a terminated
path this is opening the components of the list. -/

/-- The components of a path; `str` is what there is of the first. -/
def components (str : List UInt8) : List UInt8 → List (List UInt8)
  | [] => [str]
  | c :: p => if c = SLASH then str :: components [] p else components (str ++ [c]) p

/-- The path of a message: what stands before the first NUL. -/
def path (data : Bytes) : List UInt8 := (pathBytes data).takeWhile fun c => c ≠ 0

/-- Its components; the empty path has none. -/
def names (data : Bytes) : List (List UInt8) :=
  if path data = [] then [] else components [] (path data)

/-- The path ends inside the page. -/
def Terminated (data : Bytes) : Prop := 0 ∈ pathBytes data

instance : Decidable (Terminated data) := inferInstanceAs (Decidable (0 ∈ pathBytes data))

/-- The loop over the characters is the loop over the components. -/
theorem walk_eq (hp : ∀ c ∈ p, c ≠ 0) :
    fs.walk f str (p ++ 0 :: rest) = fs.openNames f (components str p) := by
  induction p generalizing fs f str with
  | nil =>
    rw [List.nil_append, walk, if_pos rfl, components, openNames]
    cases fs.openName f str with
    | error e => rfl
    | ok r => rfl
  | cons c p ih =>
    obtain ⟨hc, hp⟩ := List.forall_mem_cons.mp hp
    rw [List.cons_append, walk, if_neg hc, components]
    split
    · rw [openNames]
      cases fs.openName f str with
      | error e => rfl
      | ok r => exact ih hp
    · exact ih hp

/-- A string and its NUL. -/
theorem takeWhile_append {l : List UInt8} (h : 0 ∈ l) :
    ∃ rest, l = (l.takeWhile fun c => c ≠ 0) ++ 0 :: rest := by
  induction l with
  | nil => exact absurd h List.not_mem_nil
  | cons c l ih =>
    rcases eq_or_ne c 0 with rfl | hc
    · exact ⟨l, by simp⟩
    · obtain ⟨rest, hrest⟩ := ih ((List.mem_cons.mp h).resolve_left hc.symm)
      refine ⟨rest, ?_⟩
      rw [List.takeWhile_cons_of_pos (by simpa using hc), List.cons_append, ← hrest]

/-- The bytes of a path, its NUL, and whatever comes behind it. -/
theorem pathBytes_eq (h : Terminated data) : ∃ rest, pathBytes data = path data ++ 0 :: rest :=
  takeWhile_append h

/-- There is no NUL in the path itself. -/
theorem path_ne_zero : ∀ c ∈ path data, c ≠ 0 := by
  intro c hc
  have hall := List.all_eq_true.mp (List.all_takeWhile (l := pathBytes data)) c hc
  simpa using hall

/-- A path is empty, or its bytes are those of its components up to the NUL. -/
theorem path_cases (h : Terminated data) :
    (data 1 = 0 ∧ names data = []) ∨
    (data 1 ≠ 0 ∧ ∃ p rest, pathBytes data = p ++ 0 :: rest ∧ (∀ c ∈ p, c ≠ 0) ∧
      names data = components [] p) := by
  obtain ⟨rest, hbytes⟩ := pathBytes_eq h
  have hfirst : pathBytes data = data 1 :: (List.range' 2 2046).map data := rfl
  unfold names
  cases hp : path data with
  | nil =>
    rw [hp, hfirst] at hbytes
    exact Or.inl ⟨(List.cons.inj hbytes).1, if_pos rfl⟩
  | cons c p =>
    have hne := path_ne_zero c (hp ▸ List.mem_cons_self)
    have hc : data 1 = c := by
      rw [hp, hfirst] at hbytes
      exact (List.cons.inj hbytes).1
    refine Or.inr ⟨hc ▸ hne, c :: p, rest, hp ▸ hbytes, fun c' hc' => ?_,
      if_neg (List.cons_ne_nil c p)⟩
    exact path_ne_zero c' (hp ▸ hc')

/-- `HD_OPEN` opens the components of its path. -/
theorem openPath_eq (h : Terminated data) :
    fs.openPath data = fs.openNames fs.root (names data) := by
  unfold openPath
  rcases path_cases h with ⟨hzero, hnames⟩ | ⟨hne, p, rest, hbytes, hp, hnames⟩
  · rw [if_pos hzero, hnames, openNames]
  · rw [if_neg hne, hbytes, hnames]
    exact walk_eq hp

end NorlitFS

end NorlitOS
