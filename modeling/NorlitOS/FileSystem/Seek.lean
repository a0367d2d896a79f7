import NorlitOS.FileSystem.Write
import Mathlib.Data.List.TakeWhile

/-!
# Looking for a block of a file

`seekDataBlock` finds the extent that an offset is in and takes the offset to the beginning of it,
but returns the extent's first block: the distance that is left is not added. So it is right for
files all of whose extents have one block, and in a longer extent it is right for the first offset
only.
-/

namespace NorlitOS

namespace NorlitFS

variable {fs : NorlitFS} {disk : Bytes} {a file n offset r : Nat} {es : List (Nat × Nat)}

/-! ## Offsets -/

/-- The sum of the sizes: the offsets that a file has. -/
def capacity (es : List (Nat × Nat)) : Nat := (es.map Prod.snd).sum

/-- No block is in two of the extents. -/
def Apart (es : List (Nat × Nat)) : Prop :=
  es.Pairwise fun e e' => ∀ k < e.2, ∀ k' < e'.2, e.1 + k ≠ e'.1 + k'

/-- An offset is in an extent when it is less than its size behind the extents in front of it. -/
theorem locate_append (before after : List (Nat × Nat)) (hr : r < n) :
    locate (before ++ (a, n) :: after) (capacity before + r) = some (a, r) := by
  induction before with
  | nil =>
    rw [List.nil_append, locate, show capacity [] + r = r from Nat.zero_add r, if_pos hr]
  -- the search passes an extent and takes its size off the offset
  | cons e before ih =>
    have hsum : capacity (e :: before) = e.2 + capacity before := rfl
    rw [List.cons_append, locate, hsum, if_neg (by omega),
      show e.2 + capacity before + r - e.2 = capacity before + r by omega]
    exact ih

/-- Every offset of the file is in one of its extents. -/
theorem exists_extent (h : offset < capacity es) : ∃ before a n after r,
    es = before ++ (a, n) :: after ∧ offset = capacity before + r ∧ r < n := by
  induction es generalizing offset with
  | nil => exact absurd h (Nat.not_lt_zero offset)
  | cons e es ih =>
    have hsum : capacity (e :: es) = e.2 + capacity es := rfl
    -- in the first extent, or behind it
    by_cases hlt : offset < e.2
    · exact ⟨[], e.1, e.2, es, offset, rfl, (Nat.zero_add offset).symm, hlt⟩
    · obtain ⟨before, a, n, after, r, rfl, hoffset, hr⟩ := @ih (offset - e.2) (by omega)
      refine ⟨e :: before, a, n, after, r, rfl, ?_, hr⟩
      show offset = e.2 + capacity before + r
      omega

theorem capacity_append (before after : List (Nat × Nat)) :
    capacity (before ++ (a, n) :: after) = capacity before + n + capacity after := by
  unfold capacity
  rw [List.map_append, List.sum_append, List.map_cons, List.sum_cons, Nat.add_assoc]

theorem mem_extents {e : Nat × Nat} (he : e ∈ extents disk file) : e.2 ≠ 0 := by
  have hsize := List.mem_takeWhile_imp he
  simpa using hsize

/-- An extent that begins with a given block stands in one place. -/
theorem Apart.before_eq {before before' after after' : List (Nat × Nat)} {n' : Nat} (hes : Apart es)
    (h : es = before ++ (a, n) :: after) (h' : es = before' ++ (a, n') :: after') (hn : 0 < n)
    (hn' : 0 < n') : before = before' := by
  -- a second one behind the first would share its first block
  have behind : ∀ {front mid tail rest : List (Nat × Nat)} {m m' : Nat}, 0 < m → 0 < m' →
      Apart (front ++ (a, m) :: rest) → (a, m) :: rest = mid ++ (a, m') :: tail → mid = [] := by
    intro front mid tail rest m m' hm hm' hapart hsplit
    cases mid with
    | nil => rfl
    | cons e mid =>
      have hmem : (a, m') ∈ rest := by
        rw [(List.cons.inj hsplit).2]
        exact List.mem_append_right _ List.mem_cons_self
      have hcons := (List.pairwise_append.mp hapart).2.1
      exact absurd rfl ((List.pairwise_cons.mp hcons).1 _ hmem 0 hm 0 hm')
  -- one of the two places is not behind the other
  rcases List.append_eq_append_iff.mp (h.symm.trans h') with ⟨mid, hmid, hsplit⟩ | ⟨mid, hmid, hsplit⟩
  · rw [h] at hes
    rw [behind hn hn' hes hsplit, List.append_nil] at hmid
    exact hmid.symm
  · rw [h'] at hes
    rw [behind hn' hn hes hsplit, List.append_nil] at hmid
    exact hmid

/-! ## `seekDataBlock` -/

section Seek

variable (hlt : file < 2 ^ 30)

include hlt

/-- It finds the extent, and gives its first block. -/
theorem seekDataBlock_extent {before after : List (Nat × Nat)}
    (hes : extents fs.disk file = before ++ (a, n) :: after) (hr : r < n) :
    (fs.seekDataBlock file (capacity before + r)).1 = a := by
  rw [seekDataBlock_eq hlt, hes]
  unfold base
  rw [locate_append before after hr]
  rfl

/-- It is right for the first offset of an extent. -/
theorem seekDataBlock_covers_iff :
    covering fs.disk file offset = some (fs.seekDataBlock file offset).1 ↔
      Begins fs.disk file offset := by
  constructor
  · intro h
    exact begins_of_covering h (seekDataBlock_eq hlt)
  · intro h
    rw [seekDataBlock_eq hlt, h.covering]

/-- The two first offsets of a longer extent are given the same block. -/
theorem seekDataBlock_second {before after : List (Nat × Nat)}
    (hes : extents fs.disk file = before ++ (a, n) :: after) (hn : 1 < n) :
    (fs.seekDataBlock file (capacity before + 1)).1 = (fs.seekDataBlock file (capacity before)).1 := by
  rw [seekDataBlock_extent hlt hes hn]
  exact (seekDataBlock_extent (r := 0) hlt hes (by omega)).symm

/-- An extent is one block long, or its second offset is lost. -/
theorem size_one_or {e : Nat × Nat} (he : e ∈ extents fs.disk file) :
    e.2 = 1 ∨ ∃ o, o + 1 < capacity (extents fs.disk file) ∧
      (fs.seekDataBlock file (o + 1)).1 = (fs.seekDataBlock file o).1 ∧
      ¬ Begins fs.disk file (o + 1) := by
  obtain ⟨before, after, hes⟩ := List.append_of_mem he
  have hpos := mem_extents he
  by_cases hone : e.2 = 1
  · exact Or.inl hone
  -- the second block of the extent is looked for and the first one given
  · refine Or.inr ⟨capacity before, ?_, seekDataBlock_second hlt hes (by omega), ?_⟩
    · rw [hes, capacity_append]
      omega
    · rintro ⟨b, hloc⟩
      rw [hes, locate_append before after (show 1 < e.2 by omega)] at hloc
      exact absurd (Prod.mk.inj (Option.some.inj hloc)).2 (by decide)

omit hlt in
/-- In a file of single blocks every offset begins an extent. -/
theorem begins_of_size_one (hone : ∀ e ∈ extents fs.disk file, e.2 = 1)
    (hoffset : offset < capacity (extents fs.disk file)) :
    ∃ before a after, extents fs.disk file = before ++ (a, 1) :: after ∧ offset = capacity before := by
  obtain ⟨before, a, n, after, r, hes, hsum, hr⟩ := exists_extent hoffset
  have hn : n = 1 := hone (a, n) (hes ▸ List.mem_append_right _ List.mem_cons_self)
  subst hn
  exact ⟨before, a, after, hes, by omega⟩

theorem seekDataBlock_all_iff : (∀ offset < capacity (extents fs.disk file),
      covering fs.disk file offset = some (fs.seekDataBlock file offset).1) ↔
    ∀ e ∈ extents fs.disk file, e.2 = 1 := by
  constructor
  · intro hall e he
    rcases size_one_or hlt he with hone | ⟨o, ho, -, hnot⟩
    · exact hone
    · exact absurd ((seekDataBlock_covers_iff hlt).mp (hall _ ho)) hnot
  · intro hone offset hoffset
    obtain ⟨before, a, after, hes, rfl⟩ := begins_of_size_one hone hoffset
    refine (seekDataBlock_covers_iff hlt).mpr ⟨a, ?_⟩
    rw [hes]
    exact locate_append before after (r := 0) Nat.one_pos

theorem seekDataBlock_injOn_iff (hapart : Apart (extents fs.disk file)) :
    Set.InjOn (fun offset => (fs.seekDataBlock file offset).1)
        (Set.Iio (capacity (extents fs.disk file))) ↔
      ∀ e ∈ extents fs.disk file, e.2 = 1 := by
  constructor
  · intro hinj e he
    -- two offsets with one block, against injectivity
    rcases size_one_or hlt he with hone | ⟨o, ho, hsame, -⟩
    · exact hone
    · have heq := hinj (Set.mem_Iio.mpr ho) (Set.mem_Iio.mpr (Nat.lt_of_succ_lt ho)) hsame
      omega
  · intro hone o ho o' ho' hsame
    obtain ⟨before, a, after, hes, rfl⟩ := begins_of_size_one hone ho
    obtain ⟨before', a', after', hes', rfl⟩ := begins_of_size_one hone ho'
    -- both extents begin with the block that is given
    have hfirst : a = a' :=
      (seekDataBlock_extent (r := 0) hlt hes Nat.one_pos).symm.trans
        (hsame.trans (seekDataBlock_extent (r := 0) hlt hes' Nat.one_pos))
    subst hfirst
    exact congrArg capacity (hapart.before_eq hes hes' Nat.one_pos Nat.one_pos)

end Seek

/-- **Extent lookup** is right exactly for the first offset of an extent. So a file has all its blocks
found, and its offsets kept apart, when all its extents have one block, and only then. -/
theorem seekDataBlock_exact (hlt : file < 2 ^ 30) :
    (∀ offset < capacity (extents fs.disk file),
      (covering fs.disk file offset = some (fs.seekDataBlock file offset).1 ↔
        Begins fs.disk file offset)) ∧
    ((∀ offset < capacity (extents fs.disk file),
        covering fs.disk file offset = some (fs.seekDataBlock file offset).1) ↔
      ∀ e ∈ extents fs.disk file, e.2 = 1) ∧
    (Apart (extents fs.disk file) →
      (Set.InjOn (fun offset => (fs.seekDataBlock file offset).1)
          (Set.Iio (capacity (extents fs.disk file))) ↔
        ∀ e ∈ extents fs.disk file, e.2 = 1)) :=
  ⟨fun _ _ => seekDataBlock_covers_iff hlt, seekDataBlock_all_iff hlt, seekDataBlock_injOn_iff hlt⟩

/-- A file block at block 16 with one extent: two blocks from block 20 on. -/
def twoBlocks : NorlitFS where
  disk := (Bytes.setU32 (fun _ => 0) (2048 * 16 + FileBlock.address 0) 20).setU32
    (2048 * 16 + FileBlock.extent 0) 2
  page := fun _ => 0
  root := 16

theorem twoBlocks_extents : extents twoBlocks.disk 16 = [(20, 2)] := by
  unfold extents tableFrom
  rw [show DATA_BLOCK_PTRS = 126 + 1 + 1 from rfl, List.range'_succ, List.range'_succ,
    List.map_cons, List.map_cons, List.takeWhile_cons_of_pos (by decide),
    List.takeWhile_cons_of_neg (by decide)]
  decide

/-- The first offset is found. -/
theorem seekDataBlock_exact_first :
    covering twoBlocks.disk 16 0 = some (twoBlocks.seekDataBlock 16 0).1 :=
  ((@seekDataBlock_exact twoBlocks 16 (by decide)).1 0
    (by rw [twoBlocks_extents]; decide)).mpr ⟨20, by rw [twoBlocks_extents]; rfl⟩

/-- The second one is given the block of the first, not the block behind it. -/
theorem not_exact_second :
    ¬ (∀ fs : NorlitFS, ∀ file < 2 ^ 30, ∀ offset < capacity (extents fs.disk file),
      covering fs.disk file offset = some (fs.seekDataBlock file offset).1) ∧
    ¬ (∀ fs : NorlitFS, ∀ file < 2 ^ 30, Apart (extents fs.disk file) →
      Set.InjOn (fun offset => (fs.seekDataBlock file offset).1)
        (Set.Iio (capacity (extents fs.disk file)))) := by
  have hlt : (16 : Nat) < 2 ^ 30 := by decide
  have hes := twoBlocks_extents
  have hnot : ¬ ∀ e ∈ extents twoBlocks.disk 16, e.2 = 1 := by
    rw [hes]
    decide
  constructor
  · intro h
    exact hnot ((seekDataBlock_all_iff hlt).mp (h twoBlocks 16 hlt))
  · intro h
    have hapart : Apart (extents twoBlocks.disk 16) := by
      rw [hes]
      exact List.pairwise_singleton _ _
    exact hnot ((seekDataBlock_injOn_iff hlt hapart).mp (h twoBlocks 16 hlt hapart))

end NorlitFS

end NorlitOS
