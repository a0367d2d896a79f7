import NorlitOS.Process.Owner

/-!
# The address spaces do not overlap

`Layout` collects what holds of directories and tables: no frame is used twice among them, user
entries are empty or present, `PAGE_TYPE_PHY` ones stand there under the condition `phy` only,
the entries of the kernel half point outside the pool, and every thread has a stack window of its
own. The kernel writes page frames in a few ways only: an entry of a table, a new table, an entry
of the kernel half, and the clearing of a window. Each has a lemma on the entries seen afterwards,
on `frameOf`, and on `Layout`.
-/

namespace NorlitOS

open Dyadic Ledger

namespace Kernel

/-- The stack window of thread `t` is the one of directory entry `i`. -/
structure HasWindow (k : Kernel) (p t i : Nat) : Prop where
  odd : i % 2 = 1
  low : va2pde STACK_BOTTOM < i
  high : i < USER_PDES
  stacktop : (k.thr t).stacktop = (i + 1) * 2 ^ 22
  used : k.pde p i ≠ 0

structure Layout (k : Kernel) (phy : Prop) (pool : Set Nat) : Prop where
  dirs : ∀ {p q}, p ∈ k.processTable → q ∈ k.processTable → k.pd p = k.pd q → p = q
  dirIn : ∀ {p}, p ∈ k.processTable → k.pd p ∈ pool
  cr3 : ∀ {p}, p ∈ k.processTable → PAGE_SIZE ∣ (k.proc p).cr3
  tableDir : ∀ {p q i}, p ∈ k.processTable → q ∈ k.processTable → i < USER_PDES →
    k.pde p i ≠ 0 → frameAt (k.pde p i) ≠ k.pd q
  tables : ∀ {p q i j}, p ∈ k.processTable → q ∈ k.processTable → i < USER_PDES → j < USER_PDES →
    k.pde p i ≠ 0 → k.pde q j ≠ 0 → frameAt (k.pde p i) = frameAt (k.pde q j) → p = q ∧ i = j
  tableIn : ∀ {p i}, p ∈ k.processTable → i < USER_PDES → k.pde p i ≠ 0 → frameAt (k.pde p i) ∈ pool
  pdeOdd : ∀ {p i}, p ∈ k.processTable → i < USER_PDES → k.pde p i ≠ 0 →
    (k.pde p i).testBit 0 = true
  entry : ∀ {p i j}, p ∈ k.processTable → i < USER_PDES → j < 1024 → k.pte p i j ≠ 0 →
    Entry phy (k.pte p i j)
  kernelHalf : ∀ {p i}, p ∈ k.processTable → USER_PDES ≤ i → i < 1024 → k.pde p i ≠ 0 →
    frameAt (k.pde p i) ∉ pool
  window : ∀ {p t}, p ∈ k.processTable → t ∈ (k.proc p).thread → ∃ i, k.HasWindow p t i
  windowsApart : ∀ {p t u}, p ∈ k.processTable → t ∈ (k.proc p).thread → u ∈ (k.proc p).thread →
    (k.thr t).stacktop = (k.thr u).stacktop → t = u

/-- An entry of a table that is used has its present bit. -/
theorem Layout.pteOdd {k : Kernel} {phy : Prop} {pool : Set Nat} {p i j : Nat}
    (hL : k.Layout phy pool) (hp : p ∈ k.processTable) (hi : i < USER_PDES) (hj : j < 1024)
    (h0 : k.pte p i j ≠ 0) : (k.pte p i j).testBit 0 = true :=
  (hL.entry hp hi hj h0).present

/-- The frame `f` is no directory and no table. -/
structure Fresh (k : Kernel) (f : Nat) : Prop where
  dir : ∀ {p}, p ∈ k.processTable → f ≠ k.pd p
  table : ∀ {p i}, p ∈ k.processTable → i < USER_PDES → k.pde p i ≠ 0 → f ≠ frameAt (k.pde p i)

variable {k k' : Kernel} {phy : Prop} {pool : Set Nat} {p q i j v f : Nat} {row : Nat → Nat}

/-- `cr3` names the directory, as its low bits are clear. -/
theorem frameAt_cr3 (hL : k.Layout phy pool) (hp : p ∈ k.processTable) :
    frameAt (k.proc p).cr3 = k.pd p := by
  rw [frameAt, pageBase_of_dvd (hL.cr3 hp), pd]

/-- A frame outside the pool is no directory and no table. -/
theorem Layout.fresh_of_notMem (hL : k.Layout phy pool) (hf : f ∉ pool) : k.Fresh f where
  dir hp h := by
    rw [h] at hf
    exact hf (hL.dirIn hp)
  table hp hi h0 h := by
    rw [h] at hf
    exact hf (hL.tableIn hp hi h0)

/-- The kernel halves agree: the words outside the pool, and the directories. The entry of the
processor's own page may have been copied from another directory. -/
structure SameHalf (pool : Set Nat) (k k' : Kernel) : Prop where
  outside : ∀ f, f ∉ pool → k'.table f = k.table f
  pde : ∀ q ∈ k.processTable, q ∈ k'.processTable → ∀ i, USER_PDES < i → k'.pde q i = k.pde q i
  own : ∀ q ∈ k.processTable, q ∈ k'.processTable →
    ∃ r ∈ k.processTable, k'.pde q USER_PDES = k.pde r USER_PDES

theorem SameHalf.refl (k : Kernel) : SameHalf pool k k :=
  ⟨fun _ _ => rfl, fun _ _ _ _ _ => rfl, fun q hq _ => ⟨q, hq, rfl⟩⟩

/-- Over two steps, where no process comes back that was gone in between. -/
theorem SameHalf.trans {k₁ k₂ k₃ : Kernel} (h₁ : SameHalf pool k₁ k₂) (h₂ : SameHalf pool k₂ k₃)
    (hmem : ∀ q ∈ k₁.processTable, q ∈ k₃.processTable → q ∈ k₂.processTable)
    (hsub : ∀ q ∈ k₂.processTable, q ∈ k₁.processTable) : SameHalf pool k₁ k₃ := by
  refine ⟨fun f hf => (h₂.outside f hf).trans (h₁.outside f hf), fun q hq hq' i hi =>
    (h₂.pde q (hmem q hq hq') hq' i hi).trans (h₁.pde q hq (hmem q hq hq') i hi), fun q hq hq' => ?_⟩
  obtain ⟨r, hr, heq⟩ := h₂.own q (hmem q hq hq') hq'
  obtain ⟨r', hr', heq'⟩ := h₁.own r (hsub r hr) hr
  exact ⟨r', hr', heq.trans heq'⟩

/-- The same processes throughout. -/
theorem SameHalf.trans_of_eq {k₁ k₂ k₃ : Kernel} (h₁ : SameHalf pool k₁ k₂)
    (h₂ : SameHalf pool k₂ k₃) (hr : k₂.processTable = k₁.processTable) : SameHalf pool k₁ k₃ :=
  h₁.trans h₂ (fun q hq _ => by rw [hr]; exact hq) fun q hq => by rw [← hr]; exact hq

/-- What the allocator does is not in the kernel half. -/
theorem SameHalf.withHeap (h : SameHalf pool k k') (h' : Heap) :
    SameHalf pool k { k' with heap := h' } := ⟨h.outside, h.pde, h.own⟩

theorem SameHalf.of_heap {h : Heap} (hS : SameHalf pool { k with heap := h } k') :
    SameHalf pool k k' := ⟨hS.outside, hS.pde, hS.own⟩

/-- Two states with the same tables and directories. -/
theorem SameHalf.of_eq (ht : k'.table = k.table) (hcr3 : ∀ q, (k'.proc q).cr3 = (k.proc q).cr3) :
    SameHalf pool k k' := by
  have hpde : ∀ q i, k'.pde q i = k.pde q i := by
    intro q i
    unfold Kernel.pde Kernel.pd
    rw [ht, hcr3]
  exact ⟨fun f _ => by rw [ht], fun q _ _ i _ => hpde q i, fun q hq _ => ⟨q, hq, hpde q _⟩⟩

/-! ## Entries after a store

What a process finds in its directory and its tables after a word, or a whole page, has been
written. With only these lemmas a proof needs to know that the page that was written is no
directory and no table. -/

/-- A store into a page moves no directory. -/
@[simp] theorem pd_setWord : (k.setWord f i v).pd = k.pd := rfl

@[simp] theorem pd_setPage : (k.setPage f row).pd = k.pd := rfl

/-- The entry is the one that was written, or as before. -/
theorem pde_setWord : (k.setWord f i v).pde q j = if k.pd q = f ∧ j = i then v else k.pde q j := by
  unfold pde
  rw [setWord_table]
  rfl

/-- A page that is not the directory leaves its entries alone. -/
theorem pde_setPage (h : k.pd q ≠ f) : (k.setPage f row).pde q j = k.pde q j := by
  unfold pde
  rw [setPage_table, pd_setPage, if_neg h]

/-- A store elsewhere than into a directory keeps the directories. -/
theorem pde_setWord_of_ne (h : k.pd q ≠ f) : (k.setWord f i v).pde q j = k.pde q j := by
  rw [pde_setWord, if_neg fun hc => h hc.1]

/-- A word outside the directory and the table leaves an entry of the table alone. -/
theorem pte_setWord_of_ne {b : Nat} (hd : k.pd q ≠ f)
    (ht : k.pde q j ≠ 0 → frameAt (k.pde q j) ≠ f) :
    (k.setWord f i v).pte q j b = k.pte q j b := by
  unfold pte
  rw [pde_setWord_of_ne hd]
  by_cases h0 : k.pde q j = 0
  · rw [if_pos h0, if_pos h0]
  · rw [if_neg h0, if_neg h0, setWord_table, if_neg fun hc => ht h0 hc.1]

/-- So does a page that is neither of them. -/
theorem pte_setPage_of_ne {b : Nat} (hd : k.pd q ≠ f)
    (ht : k.pde q j ≠ 0 → frameAt (k.pde q j) ≠ f) :
    (k.setPage f row).pte q j b = k.pte q j b := by
  unfold pte
  rw [pde_setPage hd]
  by_cases h0 : k.pde q j = 0
  · rw [if_pos h0, if_pos h0]
  · rw [if_neg h0, if_neg h0, setPage_table, if_neg (ht h0)]

/-! ## Frames after a store

`frameOf` is a function of the entries, the queues, the threads and the list of processes. Where
one entry has changed it has changed at that entry, and where none has it is the same. -/

/-- The same processes with the same directories and threads. -/
structure SameSpaces (k k' : Kernel) : Prop where
  processTable : k'.processTable = k.processTable
  cr3 : ∀ p, (k'.proc p).cr3 = (k.proc p).cr3
  thread : ∀ p, (k'.proc p).thread = (k.proc p).thread

/-- The same message queues as well. -/
structure SameLists (k k' : Kernel) : Prop extends SameSpaces k k' where
  msgTail : ∀ p, (k'.proc p).msgTail = (k.proc p).msgTail
  msgCount : ∀ p, (k'.proc p).msgCount = (k.proc p).msgCount
  messages : ∀ p, (k'.proc p).messages = (k.proc p).messages

/-- Records that are not touched are the same. -/
theorem SameLists.of_proc (hr : k'.processTable = k.processTable) (hp : k'.proc = k.proc) :
    SameLists k k' := by
  refine ⟨⟨hr, ?_, ?_⟩, ?_, ?_, ?_⟩ <;> intro p <;> rw [hp]

theorem SameSpaces.pd (h : SameSpaces k k') (p : Nat) : k'.pd p = k.pd p := by
  unfold Kernel.pd
  rw [h.cr3]

theorem SameLists.inQueue (h : SameLists k k') (p n : Nat) :
    InQueue (k'.proc p) n ↔ InQueue (k.proc p) n := by
  unfold InQueue
  rw [h.msgTail, h.msgCount]

/-- One table entry changed. -/
theorem frameOf_update_pte (hS : SameLists k k') (hp : p ∈ k.processTable) (hi : i < USER_PDES)
    (hj : j < 1024)
    (hpde : ∀ q ∈ k.processTable, ∀ a < USER_PDES, k'.pde q a = k.pde q a)
    (hpte : ∀ q ∈ k.processTable, ∀ a < USER_PDES, ∀ b < 1024,
      k'.pte q a b = if q = p ∧ a = i ∧ b = j then v else k.pte q a b) :
    k'.frameOf = Function.update k.frameOf (.pte p i j) (entryFrame v) := by
  funext o
  -- the only owner that changes is the entry itself
  cases o with
  | pte q a b =>
    rw [Function.update_apply]
    simp only [frameOf, hS.processTable, Owner.pte.injEq]
    by_cases hq : q ∈ k.processTable ∧ a < USER_PDES ∧ b < 1024
    · rw [if_pos hq, if_pos hq, hpte q hq.1 a hq.2.1 b hq.2.2]
      split <;> rfl
    · have hne : ¬ (q = p ∧ a = i ∧ b = j) := by
        rintro ⟨rfl, rfl, rfl⟩
        exact hq ⟨hp, hi, hj⟩
      rw [if_neg hq, if_neg hne, if_neg hq]
  | pageTable q a =>
    rw [Function.update_of_ne (by simp)]
    simp only [frameOf, hS.processTable]
    by_cases hq : q ∈ k.processTable ∧ a < USER_PDES
    · rw [hpde q hq.1 a hq.2]
    · rw [if_neg fun h => hq ⟨h.1, h.2.1⟩, if_neg fun h => hq ⟨h.1, h.2.1⟩]
  | pageDirectory q =>
    rw [Function.update_of_ne (by simp)]
    simp only [frameOf, hS.processTable, hS.pd]
  | threadPage t =>
    rw [Function.update_of_ne (by simp)]
    simp only [frameOf, hS.processTable, hS.thread]
  | slot q n =>
    rw [Function.update_of_ne (by simp)]
    simp only [frameOf, hS.processTable, hS.inQueue, hS.messages]
  | record q =>
    rw [Function.update_of_ne (by simp)]
    simp only [frameOf, hS.processTable]

/-- Nothing changed. -/
theorem frameOf_congr (hS : SameLists k k')
    (hpde : ∀ q ∈ k.processTable, ∀ a < USER_PDES, k'.pde q a = k.pde q a)
    (hpte : ∀ q ∈ k.processTable, ∀ a < USER_PDES, ∀ b < 1024, k'.pte q a b = k.pte q a b) :
    k'.frameOf = k.frameOf := by
  funext o
  -- entries and tables by the hypotheses, the rest by the lists
  cases o with
  | pte q a b =>
    simp only [frameOf, hS.processTable]
    by_cases hq : q ∈ k.processTable ∧ a < USER_PDES ∧ b < 1024
    · rw [if_pos hq, if_pos hq, hpte q hq.1 a hq.2.1 b hq.2.2]
    · rw [if_neg hq, if_neg hq]
  | pageTable q a =>
    simp only [frameOf, hS.processTable]
    by_cases hq : q ∈ k.processTable ∧ a < USER_PDES
    · rw [hpde q hq.1 a hq.2]
    · rw [if_neg fun h => hq ⟨h.1, h.2.1⟩, if_neg fun h => hq ⟨h.1, h.2.1⟩]
  | pageDirectory q => simp only [frameOf, hS.processTable, hS.pd]
  | threadPage t => simp only [frameOf, hS.processTable, hS.thread]
  | slot q n => simp only [frameOf, hS.processTable, hS.inQueue, hS.messages]
  | record q => simp only [frameOf, hS.processTable]

/-! ## The writes

`Layout` has eleven fields, and most writes concern one or two of them. `of_entries` is the
general case: if the entries below the kernel half are the same, so is the layout. -/

/-- Entries below the kernel half determine the layout, up to the values of table entries. -/
theorem Layout.of_entries (hL : k.Layout phy pool) (hS : SameSpaces k k')
    (hstack : ∀ t, (k'.thr t).stacktop = (k.thr t).stacktop)
    (hpde : ∀ q ∈ k.processTable, ∀ a < 1024, k'.pde q a = k.pde q a)
    (hpte : ∀ q ∈ k.processTable, ∀ a < USER_PDES, ∀ b < 1024,
      k'.pte q a b ≠ 0 → Entry phy (k'.pte q a b)) : k'.Layout phy pool := by
  have huser : ∀ {a}, a < USER_PDES → a < 1024 := fun h => h.trans (by decide)
  constructor
  case dirs =>
    intro p q hp hq h
    rw [hS.processTable] at hp hq
    rw [hS.pd, hS.pd] at h
    exact hL.dirs hp hq h
  case dirIn =>
    intro p hp
    rw [hS.processTable] at hp
    rw [hS.pd]
    exact hL.dirIn hp
  case cr3 =>
    intro p hp
    rw [hS.processTable] at hp
    rw [hS.cr3]
    exact hL.cr3 hp
  case tableDir =>
    intro p q i hp hq hi h0
    rw [hS.processTable] at hp hq
    rw [hpde p hp i (huser hi)] at h0 ⊢
    rw [hS.pd]
    exact hL.tableDir hp hq hi h0
  case tables =>
    intro p q i j hp hq hi hj h0 h0' h
    rw [hS.processTable] at hp hq
    rw [hpde p hp i (huser hi)] at h0 h
    rw [hpde q hq j (huser hj)] at h0' h
    exact hL.tables hp hq hi hj h0 h0' h
  case tableIn =>
    intro p i hp hi h0
    rw [hS.processTable] at hp
    rw [hpde p hp i (huser hi)] at h0 ⊢
    exact hL.tableIn hp hi h0
  case pdeOdd =>
    intro p i hp hi h0
    rw [hS.processTable] at hp
    rw [hpde p hp i (huser hi)] at h0 ⊢
    exact hL.pdeOdd hp hi h0
  case entry =>
    intro p i j hp hi hj h0
    rw [hS.processTable] at hp
    exact hpte p hp i hi j hj h0
  case kernelHalf =>
    intro p i hp hi hi' h0
    rw [hS.processTable] at hp
    rw [hpde p hp i hi'] at h0 ⊢
    exact hL.kernelHalf hp hi hi' h0
  -- the window of a thread is that of its record, behind the same entry
  case window =>
    intro p t hp ht
    rw [hS.processTable] at hp
    rw [hS.thread] at ht
    obtain ⟨i, hw⟩ := hL.window hp ht
    exact ⟨i, hw.odd, hw.low, hw.high, by rw [hstack]; exact hw.stacktop,
      by rw [hpde p hp i (huser hw.high)]; exact hw.used⟩
  case windowsApart =>
    intro p t u hp ht hu h
    rw [hS.processTable] at hp
    rw [hS.thread] at ht hu
    rw [hstack, hstack] at h
    exact hL.windowsApart hp ht hu h

/-- A store of one word into a table or a directory leaves the lists. -/
theorem sameLists_setWord : SameLists k (k.setWord f i v) := SameLists.of_proc rfl rfl

/-! ### An entry of a table

The table belongs to one process at one index of its directory (`Layout.tables`), so a word
written there is seen at that place only. -/

section SetEntry

variable (hL : k.Layout phy pool) (hp : p ∈ k.processTable) (hi : i < USER_PDES) (h0 : k.pde p i ≠ 0)

include hL hp hi h0

/-- The table is no directory, so no directory entry changes. -/
theorem pde_setEntry (hq : q ∈ k.processTable) (a : Nat) :
    (k.setWord (frameAt (k.pde p i)) j v).pde q a = k.pde q a :=
  pde_setWord_of_ne (hL.tableDir hp hq hi h0).symm

/-- One entry of one process changes. -/
theorem pte_setEntry (hq : q ∈ k.processTable) {a : Nat} (ha : a < USER_PDES) (b : Nat) :
    (k.setWord (frameAt (k.pde p i)) j v).pte q a b =
      if q = p ∧ a = i ∧ b = j then v else k.pte q a b := by
  unfold pte
  rw [pde_setEntry hL hp hi h0 hq]
  by_cases hqa : k.pde q a = 0
  · have hne : ¬ (q = p ∧ a = i ∧ b = j) := by
      rintro ⟨rfl, rfl, -⟩
      exact h0 hqa
    rw [if_pos hqa, if_neg hne, if_pos hqa]
  · rw [if_neg hqa, setWord_table, if_neg hqa]
    -- two directory entries that name one table are the same entry
    by_cases heq : frameAt (k.pde q a) = frameAt (k.pde p i)
    · obtain ⟨rfl, rfl⟩ := hL.tables hq hp ha hi hqa h0 heq
      simp
    · have hne : ¬ (q = p ∧ a = i ∧ b = j) := by
        rintro ⟨rfl, rfl, -⟩
        exact heq rfl
      rw [if_neg hne, if_neg fun h => heq h.1]

/-- The entry owns another frame, or none, and nothing else changes its owner. -/
theorem frameOf_setEntry (hj : j < 1024) :
    (k.setWord (frameAt (k.pde p i)) j v).frameOf =
      Function.update k.frameOf (.pte p i j) (entryFrame v) :=
  frameOf_update_pte sameLists_setWord hp hi hj (fun _ hq a _ => pde_setEntry hL hp hi h0 hq a)
    fun _ hq _ ha b _ => pte_setEntry hL hp hi h0 hq ha b

/-- The layout is kept when what is written is an entry. -/
theorem Layout.setEntry (hv : v ≠ 0 → Entry phy v) :
    (k.setWord (frameAt (k.pde p i)) j v).Layout phy pool := by
  refine hL.of_entries sameLists_setWord.toSameSpaces (fun _ => rfl)
    (fun q hq a _ => pde_setEntry hL hp hi h0 hq a) fun q hq a ha b hb => ?_
  rw [pte_setEntry hL hp hi h0 hq ha]
  split
  · exact hv
  · exact hL.entry hq ha hb

end SetEntry

/-- A store into the pool that spares the kernel half of the directories. -/
theorem sameHalf_setWord (hf : f ∈ pool) (hi : (∃ q ∈ k.processTable, k.pd q = f) → i < USER_PDES) :
    SameHalf pool k (k.setWord f i v) := by
  have hpde : ∀ q ∈ k.processTable, ∀ a, USER_PDES ≤ a → (k.setWord f i v).pde q a = k.pde q a := by
    intro q hq a ha
    rw [pde_setWord, if_neg]
    rintro ⟨hqf, rfl⟩
    exact absurd (hi ⟨q, hq, hqf⟩) (Nat.not_lt.mpr ha)
  refine ⟨fun g hg => ?_, fun q hq _ a ha => hpde q hq a ha.le, fun q hq _ => ⟨q, hq, hpde q hq _ le_rfl⟩⟩
  funext a
  rw [setWord_table, if_neg]
  rintro ⟨rfl, -⟩
  exact hg hf

/-- A page of the pool that is no directory. -/
theorem sameHalf_setPage (hf : f ∈ pool) (hd : ∀ q ∈ k.processTable, f ≠ k.pd q) :
    SameHalf pool k (k.setPage f row) := by
  have hpde : ∀ q ∈ k.processTable, ∀ a, (k.setPage f row).pde q a = k.pde q a :=
    fun q hq a => Kernel.pde_setPage (hd q hq).symm
  refine ⟨fun g hg => ?_, fun q hq _ a _ => hpde q hq a, fun q hq _ => ⟨q, hq, hpde q hq _⟩⟩
  funext a
  rw [setPage_table, if_neg]
  rintro rfl
  exact hg hf

/-- Setting an entry of a table of the user half. -/
theorem Layout.half_setEntry (hL : k.Layout phy pool) (hp : p ∈ k.processTable) (hi : i < USER_PDES)
    (h0 : k.pde p i ≠ 0) : SameHalf pool k (k.setWord (frameAt (k.pde p i)) j v) :=
  sameHalf_setWord (hL.tableIn hp hi h0) fun ⟨_, hq, heq⟩ =>
    absurd heq.symm (hL.tableDir hp hq hi h0)

/-! ### Words outside the pool

The tables of the kernel half and other pages that the kernel keeps for itself. No user entry is
there. -/

section Outside

variable (hL : k.Layout phy pool) (hf : f ∉ pool)

include hL hf

theorem pde_setWord_outside (hq : q ∈ k.processTable) (a : Nat) :
    (k.setWord f j v).pde q a = k.pde q a :=
  pde_setWord_of_ne ((hL.fresh_of_notMem hf).dir hq).symm

theorem pte_setWord_outside (hq : q ∈ k.processTable) {a : Nat} (ha : a < USER_PDES) (b : Nat) :
    (k.setWord f j v).pte q a b = k.pte q a b :=
  pte_setWord_of_ne ((hL.fresh_of_notMem hf).dir hq).symm fun h =>
    ((hL.fresh_of_notMem hf).table hq ha h).symm

theorem frameOf_setWord_outside : (k.setWord f j v).frameOf = k.frameOf :=
  frameOf_congr sameLists_setWord (fun _ hq a _ => pde_setWord_outside hL hf hq a)
    fun _ hq _ ha b _ => pte_setWord_outside hL hf hq ha b

/-- The layout is kept whatever is written there. -/
theorem Layout.setWord_outside : (k.setWord f j v).Layout phy pool := by
  refine hL.of_entries sameLists_setWord.toSameSpaces (fun _ => rfl)
    (fun q hq a _ => pde_setWord_outside hL hf hq a) fun q hq a ha b hb => ?_
  rw [pte_setWord_outside hL hf hq ha]
  exact hL.entry hq ha hb

end Outside

/-- A page that is no directory and no table may be overwritten. -/
theorem Fresh.pde_setPage (hf : k.Fresh f) (hq : q ∈ k.processTable) (a : Nat) :
    (k.setPage f row).pde q a = k.pde q a :=
  Kernel.pde_setPage (hf.dir hq).symm

/-- A page that is no directory and no table can be filled without a change of the entries. -/
theorem Fresh.pte_setPage (hf : k.Fresh f) (hq : q ∈ k.processTable) {a : Nat} (ha : a < USER_PDES)
    (b : Nat) : (k.setPage f row).pte q a b = k.pte q a b :=
  pte_setPage_of_ne (hf.dir hq).symm fun h => (hf.table hq ha h).symm

theorem Fresh.frameOf_setPage (hf : k.Fresh f) : (k.setPage f row).frameOf = k.frameOf :=
  frameOf_congr (SameLists.of_proc rfl rfl) (fun _ hq a _ => hf.pde_setPage hq a)
    fun _ hq _ ha b _ => hf.pte_setPage hq ha b

/-- The layout is kept whatever it is filled with. -/
theorem Layout.setPage_fresh (hL : k.Layout phy pool) (hf : k.Fresh f) :
    (k.setPage f row).Layout phy pool := by
  refine hL.of_entries ⟨rfl, fun _ => rfl, fun _ => rfl⟩ (fun _ => rfl)
    (fun q hq a _ => hf.pde_setPage hq a) fun q hq a ha b hb => ?_
  rw [hf.pte_setPage hq ha]
  exact hL.entry hq ha hb

/-! ### An entry of the kernel half

Entries from `USER_PDES` on. The layout asks of them that they point outside the pool, and user
programs have nothing there. -/

section KernelEntry

variable (hL : k.Layout phy pool) (hp : p ∈ k.processTable) (hi : USER_PDES ≤ i)

include hi in
/-- User entries of directories do not change. -/
theorem pde_setKernelEntry {a : Nat} (ha : a < USER_PDES) :
    (k.setWord (k.pd p) i v).pde q a = k.pde q a := by
  rw [pde_setWord, if_neg fun h => by omega]

include hL hp hi

/-- Nor do the entries of their tables. -/
theorem pte_setKernelEntry (hq : q ∈ k.processTable) {a : Nat} (ha : a < USER_PDES) (b : Nat) :
    (k.setWord (k.pd p) i v).pte q a b = k.pte q a b := by
  unfold pte
  rw [pde_setKernelEntry hi ha]
  by_cases h0 : k.pde q a = 0
  · rw [if_pos h0, if_pos h0]
  · rw [if_neg h0, if_neg h0, setWord_table, if_neg fun h => hL.tableDir hq hp ha h0 h.1]

/-- No owner changes, since owners have entries of the user half only. -/
theorem frameOf_setKernelEntry : (k.setWord (k.pd p) i v).frameOf = k.frameOf :=
  frameOf_congr sameLists_setWord (fun _ _ _ ha => pde_setKernelEntry hi ha)
    fun _ hq _ ha b _ => pte_setKernelEntry hL hp hi hq ha b

/-- The layout is kept if the entry points outside the pool. -/
theorem Layout.setKernelEntry (hv : v ≠ 0 → frameAt v ∉ pool) :
    (k.setWord (k.pd p) i v).Layout phy pool := by
  constructor
  case dirs => exact hL.dirs
  case dirIn => exact hL.dirIn
  case cr3 => exact hL.cr3
  case tableDir =>
    intro q r a hq hr ha h0
    rw [pde_setKernelEntry hi ha] at h0 ⊢
    exact hL.tableDir hq hr ha h0
  case tables =>
    intro q r a b hq hr ha hb h0 h0' h
    rw [pde_setKernelEntry hi ha] at h0 h
    rw [pde_setKernelEntry hi hb] at h0' h
    exact hL.tables hq hr ha hb h0 h0' h
  case tableIn =>
    intro q a hq ha h0
    rw [pde_setKernelEntry hi ha] at h0 ⊢
    exact hL.tableIn hq ha h0
  case pdeOdd =>
    intro q a hq ha h0
    rw [pde_setKernelEntry hi ha] at h0 ⊢
    exact hL.pdeOdd hq ha h0
  case entry =>
    intro q a b hq ha hb h0
    rw [pte_setKernelEntry hL hp hi hq ha] at h0 ⊢
    exact hL.entry hq ha hb h0
  -- the only field about the kernel half
  case kernelHalf =>
    intro q a hq ha ha' h0
    rw [pde_setWord] at h0 ⊢
    split at h0
    · next h => rw [if_pos h]; exact hv h0
    · next h => rw [if_neg h]; exact hL.kernelHalf hq ha ha' h0
  case window =>
    intro q t hq ht
    obtain ⟨a, hw⟩ := hL.window hq ht
    refine ⟨a, hw.odd, hw.low, hw.high, hw.stacktop, ?_⟩
    rw [pde_setKernelEntry hi hw.high]
    exact hw.used
  case windowsApart => exact hL.windowsApart

end KernelEntry

/-! ### A new table

A page that was fresh is filled and named in a directory where nothing was. All its entries come
at once. -/

section NewTable

variable (hL : k.Layout phy pool) (hp : p ∈ k.processTable) (hi : i < USER_PDES) (h0 : k.pde p i = 0)
  (hf : k.Fresh f) (hv : v ≠ 0) (hvf : frameAt v = f)

include hL hp hf

/-- One directory entry is new. -/
theorem pde_newTable (hq : q ∈ k.processTable) (a : Nat) :
    ((k.setPage f row).setWord (k.pd p) i v).pde q a =
      if q = p ∧ a = i then v else k.pde q a := by
  rw [pde_setWord, hf.pde_setPage hq, pd_setPage]
  by_cases hqp : q = p
  · subst hqp
    simp
  · rw [if_neg fun h => hqp (hL.dirs hq hp h.1), if_neg fun h => hqp h.1]

include hv hvf

/-- Behind it are the entries of the new page, and the others are as before. -/
theorem pte_newTable (hq : q ∈ k.processTable) {a : Nat} (ha : a < USER_PDES) (b : Nat) :
    ((k.setPage f row).setWord (k.pd p) i v).pte q a b =
      if q = p ∧ a = i then row b else k.pte q a b := by
  unfold pte
  rw [pde_newTable hL hp hf hq]
  by_cases hqa : q = p ∧ a = i
  · rw [if_pos hqa, if_neg hv, if_pos hqa, hvf, setWord_table, if_neg fun h => hf.dir hp h.1,
      setPage_table, if_pos rfl]
  · rw [if_neg hqa, if_neg hqa]
    by_cases hz : k.pde q a = 0
    · rw [if_pos hz, if_pos hz]
    · rw [if_neg hz, if_neg hz, setWord_table, if_neg fun h => hL.tableDir hq hp ha hz h.1,
        setPage_table, if_neg fun h => hf.table hq ha hz h.symm]

include hi

/-- The layout is kept if the page is in the pool and what fills it are entries. -/
theorem Layout.newTable (hin : f ∈ pool) (hodd : v.testBit 0 = true)
    (hrow : ∀ b < 1024, row b ≠ 0 → Entry phy (row b)) :
    ((k.setPage f row).setWord (k.pd p) i v).Layout phy pool := by
  constructor
  case dirs => exact hL.dirs
  case dirIn => exact hL.dirIn
  case cr3 => exact hL.cr3
  case tableDir =>
    intro q r a hq hr ha hqa
    rw [pde_newTable hL hp hf hq] at hqa ⊢
    split at hqa
    · next h => rw [if_pos h, hvf]; exact hf.dir hr
    · next h => rw [if_neg h]; exact hL.tableDir hq hr ha hqa
  case tables =>
    intro q r a b hq hr ha hb hqa hrb h
    rw [pde_newTable hL hp hf hq] at hqa h
    rw [pde_newTable hL hp hf hr] at hrb h
    -- the new table is no other one
    by_cases hqa' : q = p ∧ a = i
    · by_cases hrb' : r = p ∧ b = i
      · exact ⟨hqa'.1.trans hrb'.1.symm, hqa'.2.trans hrb'.2.symm⟩
      · rw [if_pos hqa', if_neg hrb', hvf] at h
        rw [if_neg hrb'] at hrb
        exact absurd h (hf.table hr hb hrb)
    · rw [if_neg hqa'] at hqa h
      by_cases hrb' : r = p ∧ b = i
      · rw [if_pos hrb', hvf] at h
        exact absurd h.symm (hf.table hq ha hqa)
      · rw [if_neg hrb'] at hrb h
        exact hL.tables hq hr ha hb hqa hrb h
  case tableIn =>
    intro q a hq ha hqa
    rw [pde_newTable hL hp hf hq] at hqa ⊢
    split at hqa
    · next h => rw [if_pos h, hvf]; exact hin
    · next h => rw [if_neg h]; exact hL.tableIn hq ha hqa
  case pdeOdd =>
    intro q a hq ha hqa
    rw [pde_newTable hL hp hf hq] at hqa ⊢
    split at hqa
    · next h => rw [if_pos h]; exact hodd
    · next h => rw [if_neg h]; exact hL.pdeOdd hq ha hqa
  case entry =>
    intro q a b hq ha hb hqa
    rw [pte_newTable hL hp hf hv hvf hq ha] at hqa ⊢
    split at hqa
    · next h => rw [if_pos h]; exact hrow b hb hqa
    · next h => rw [if_neg h]; exact hL.entry hq ha hb hqa
  case kernelHalf =>
    intro q a hq ha ha' hqa
    have hne : ¬ (q = p ∧ a = i) := by omega
    rw [pde_newTable hL hp hf hq, if_neg hne] at hqa ⊢
    exact hL.kernelHalf hq ha ha' hqa
  -- a window that was in use still is: no directory entry has become empty
  case window =>
    intro q t hq ht
    obtain ⟨a, hw⟩ := hL.window hq ht
    refine ⟨a, hw.odd, hw.low, hw.high, hw.stacktop, ?_⟩
    rw [pde_newTable hL hp hf hq]
    split
    · exact hv
    · exact hw.used
  case windowsApart => exact hL.windowsApart

include h0 in
/-- A table with one entry adds its own frame and the one behind the entry. -/
theorem frameOf_newTable_entry {u : Nat} (hj : j < 1024)
    (hrow : ∀ b < 1024, row b = if b = j then u else 0) :
    ((k.setPage f row).setWord (k.pd p) i v).frameOf = Function.update
      (Function.update k.frameOf (.pageTable p i) (some f)) (.pte p i j) (entryFrame u) := by
  have hS : SameLists k ((k.setPage f row).setWord (k.pd p) i v) := SameLists.of_proc rfl rfl
  funext o
  cases o with
  | pte q a b =>
    rw [Function.update_apply, Function.update_of_ne (by simp)]
    simp only [frameOf, hS.processTable, Owner.pte.injEq]
    by_cases hq : q ∈ k.processTable ∧ a < USER_PDES ∧ b < 1024
    · rw [if_pos hq, if_pos hq, pte_newTable hL hp hf hv hvf hq.1 hq.2.1]
      -- the row of the new table, or a row as it was
      by_cases hqa : q = p ∧ a = i
      · obtain ⟨rfl, rfl⟩ := hqa
        rw [if_pos ⟨rfl, rfl⟩, hrow b hq.2.2, pte_of_no_pde h0]
        by_cases hb : b = j
        · rw [if_pos hb, if_pos ⟨rfl, rfl, hb⟩]
        · rw [if_neg hb, if_neg fun h => hb h.2.2]
      · rw [if_neg hqa, if_neg fun h => hqa ⟨h.1, h.2.1⟩]
    · have hne : ¬ (q = p ∧ a = i ∧ b = j) := by
        rintro ⟨rfl, rfl, rfl⟩
        exact hq ⟨hp, hi, hj⟩
      rw [if_neg hq, if_neg hne, if_neg hq]
  | pageTable q a =>
    rw [Function.update_of_ne (by simp), Function.update_apply]
    simp only [frameOf, hS.processTable, Owner.pageTable.injEq]
    by_cases hqa : q = p ∧ a = i
    · obtain ⟨rfl, rfl⟩ := hqa
      have hsame : q = q ∧ a = a := ⟨rfl, rfl⟩
      rw [if_pos hsame, pde_newTable hL hp hf hp, if_pos hsame, if_pos ⟨hp, hi, hv⟩, hvf]
    · rw [if_neg hqa]
      by_cases hq : q ∈ k.processTable
      · rw [pde_newTable hL hp hf hq, if_neg hqa]
      · rw [if_neg fun h => hq h.1, if_neg fun h => hq h.1]
  | pageDirectory q =>
    rw [Function.update_of_ne (by simp), Function.update_of_ne (by simp)]
    rfl
  | threadPage t =>
    rw [Function.update_of_ne (by simp), Function.update_of_ne (by simp)]
    rfl
  | slot q n =>
    rw [Function.update_of_ne (by simp), Function.update_of_ne (by simp)]
    rfl
  | record q =>
    rw [Function.update_of_ne (by simp), Function.update_of_ne (by simp)]
    rfl

include h0 in
/-- An empty table adds its own frame only. -/
theorem frameOf_newTable (hrow : ∀ b < 1024, row b = 0) :
    ((k.setPage f row).setWord (k.pd p) i v).frameOf =
      Function.update k.frameOf (.pageTable p i) (some f) := by
  have hnone : Function.update k.frameOf (.pageTable p i) (some f) (.pte p i 0) = entryFrame 0 := by
    rw [Function.update_of_ne (by simp), entryFrame_zero]
    simp only [frameOf, pte_of_no_pde h0, entryFrame_zero, ite_self]
  rw [frameOf_newTable_entry hL hp hi h0 hf hv hvf (u := 0) (by decide : 0 < 1024) fun b hb => by
    rw [hrow b hb, ite_self], ← hnone, Function.update_eq_self]

end NewTable

end Kernel

end NorlitOS
