import NorlitOS.Process.Members

/-!
# `createThread`

A new thread takes three frames: the page table of its stack window, the first page of the
stack, and the page of its record. The window is an unused one, so it overlaps no other.
-/

namespace NorlitOS

open Dyadic Ledger

namespace Kernel

variable {k k' : Kernel} {own : Owner → Option Nat} {phy : Prop} {pool : Set Nat} {p q t i j x f s g v : Nat}

/-! ## Finding a window

Stack windows are pairs of directory entries below `PAGE_OFFSET`. The loop takes the first pair
whose upper entry is empty. -/

theorem va2pde_STACK_BOTTOM : va2pde STACK_BOTTOM = 736 := by decide

theorem va2pde_STACK_TOP : va2pde STACK_TOP = USER_PDES := by decide

/-- The search ends at an empty entry, or at the bottom; the rounds are enough for either. -/
theorem freeStackEntry_spec {pde : Nat → Nat} {n e : Nat} (hn : e ≤ 736 + 2 * n)
    (hlow : 736 < freeStackEntry pde n e) : pde (freeStackEntry pde n e) = 0 ∧
      freeStackEntry pde n e ≤ e ∧ freeStackEntry pde n e % 2 = e % 2 := by
  induction n generalizing e with
  | zero =>
    rw [freeStackEntry] at hlow
    omega
  | succ n ih =>
    rw [freeStackEntry, va2pde_STACK_BOTTOM] at hlow ⊢
    by_cases he : 736 < e
    · rw [if_pos he] at hlow ⊢
      by_cases h0 : pde e = 0
      · rw [if_pos h0]
        exact ⟨h0, le_refl e, rfl⟩
      · rw [if_neg h0] at hlow ⊢
        obtain ⟨hz, hle, hmod⟩ := ih (by omega) hlow
        exact ⟨hz, by omega, by omega⟩
    · rw [if_neg he] at hlow
      exact absurd hlow he

/-- The search gets to the bottom only when every other entry on the way is in use. -/
theorem freeStackEntry_full {pde : Nat → Nat} {n e a : Nat} (hn : e ≤ 736 + 2 * n)
    (hlow : freeStackEntry pde n e ≤ 736) (ha : 736 < a) (hae : a ≤ e) (hmod : a % 2 = e % 2) :
    pde a ≠ 0 := by
  induction n generalizing e with
  | zero => omega
  | succ n ih =>
    have he : 736 < e := by omega
    rw [freeStackEntry, va2pde_STACK_BOTTOM, if_pos he] at hlow
    by_cases h0 : pde e = 0
    · rw [if_pos h0] at hlow
      omega
    · rw [if_neg h0] at hlow
      by_cases hea : a = e
      · rw [hea]
        exact h0
      · exact ih (by omega) hlow (by omega) (by omega)

/-- Filling a page and setting a word of it is filling it with the changed contents. -/
theorem setPage_setWord {row : Nat → Nat} {h : Heap} :
    ({ k.setPage f row with heap := h } : Kernel).setWord f j v =
      ({ k with heap := h } : Kernel).setPage f (Function.update row j v) := by
  unfold setWord setPage
  simp

/-! ## The stack

The window gets a page table with one page in it, the uppermost. If all windows are in use the
call returns 0 and nothing has changed. -/

/-- A table `s` with a stack page `g` in its last entry has been set up behind entry `i` of the
directory of `p`. -/
structure Stacked (k : Kernel) (own : Owner → Option Nat) (phy : Prop) (pool : Set Nat) (p i s g : Nat)
    (k' : Kernel) : Prop where
  proc : k'.proc = k.proc
  thr : k'.thr = k.thr
  processTable : k'.processTable = k.processTable
  currentProc : k'.currentProc = k.currentProc
  currentThread : k'.currentThread = k.currentThread
  odd : i % 2 = 1
  low : 736 < i
  high : i < USER_PDES
  freeSet : k'.heap.freeSet ⊆ k.heap.freeSet
  layout : k'.Layout phy pool
  empty : k.pde p i = 0
  used : k'.pde p i ≠ 0
  pde : ∀ q ∈ k.processTable, ∀ a, ¬ (q = p ∧ a = i) → k'.pde q a = k.pde q a
  pte : ∀ q ∈ k.processTable, ∀ a < USER_PDES, ¬ (q = p ∧ a = i) → ∀ b, k'.pte q a b = k.pte q a b
  normal : ∀ b < 1024, isPhy (k'.pte p i b) = false
  half : SameHalf pool k k'
  frames : k'.frameOf = Function.update (Function.update k.frameOf (.pageTable p i) (some s))
    (.pte p i 1023) (some g)
  owned : Owned k'.heap (Function.update (Function.update own (.pageTable p i) (some s))
    (.pte p i 1023) (some g)) pool

/-- Every stack window of `p` is in use. -/
def FullWindows (k : Kernel) (p : Nat) : Prop :=
  ∀ i, i % 2 = 1 → 736 < i → i < USER_PDES → k.pde p i ≠ 0

section Window

variable {h₁ h₂ : Heap}

/-- The new page table: its last entry maps the page of the stack, the others are empty. -/
def windowTable (g b : Nat) : Nat :=
  if b = 1023 then va2pa g ||| 0b11111 else 0

/-- `k` with the page table `s` of a new window in entry `i`, and the page `g` on top of it. -/
def withWindow (k : Kernel) (h : Heap) (p i s g : Nat) (row : Nat → Nat) : Kernel :=
  (({ k with heap := h } : Kernel).setPage s
    (Function.update row 1023 (va2pa g ||| 0b11111))).setWord (k.pd p) i (va2pa s ||| 0b11111)

/-- Two free pages make a window of an empty entry. -/
theorem Stacked.of_allocated {row : Nat → Nat} (hL : k.Layout phy pool) (hO : Owned k.heap own pool)
    (hA : Agree own k) (hp : p ∈ k.processTable) (hN : ∀ i j, k.pde p i = 0 → own (.pte p i j) = none)
    (hempty : k.pde p i = 0) (hodd : i % 2 = 1) (hlow : 736 < i) (hhigh : i < USER_PDES)
    (hs : Owned.Allocated k.heap own pool s h₁)
    (hg : Owned.Allocated h₁ (Function.update own (.pageTable p i) (some s)) pool g h₂)
    (hrow : ∀ b < 1023, row b = 0) :
    Stacked k own phy pool p i s g (k.withWindow h₂ p i s g row) := by
  have hsp := hs.physical hO
  have hO₁ := hs.enter (.pageTable p i) (fun _ => by simp)
    ((hA.table p i).trans (frameOf_pageTable_none hempty))
  have hgp := hg.physical hO₁
  have hnone : Function.update own (.pageTable p i) (some s) (.pte p i 1023) = none := by
    rw [Function.update_of_ne (by simp), hN i 1023 hempty]
  have hsodd := testBit_or hsp.1
  have hne := ne_zero_of_testBit hsodd
  have hsent : frameAt (va2pa s ||| 0b11111) = s := by rw [frameAt, pageBase_or hsp.1, hsp.2]
  -- nobody's table or directory is in the page of the new table
  have hf : k.Fresh s := fresh_of_free hO hA hs.free
  have hf₂ : ({ k with heap := h₂ } : Kernel).Fresh s := ⟨hf.dir, hf.table⟩
  have hL₂ := hL.withHeap h₂
  have hin : s ∈ pool := hO.accounts.free_subset (hs.free (self_mem_page s))
  have hrow₂ : ∀ b < 1024, Function.update row 1023 (va2pa g ||| 0b11111) b = windowTable g b := by
    intro b hb
    rw [Function.update_apply, windowTable]
    split
    · rfl
    · exact hrow b (by omega)
  have hpde : ∀ q ∈ k.processTable, ∀ a, (k.withWindow h₂ p i s g row).pde q a =
      if q = p ∧ a = i then va2pa s ||| 0b11111 else k.pde q a :=
    fun q hq a => pde_newTable hL₂ hp hf₂ hq a
  have hpte : ∀ q ∈ k.processTable, ∀ a < USER_PDES, ∀ b, (k.withWindow h₂ p i s g row).pte q a b =
      if q = p ∧ a = i then Function.update row 1023 (va2pa g ||| 0b11111) b else k.pte q a b :=
    fun q hq a ha b => pte_newTable hL₂ hp hf₂ hne hsent hq ha b
  constructor
  case proc | thr | processTable | currentProc | currentThread => rfl
  case odd => exact hodd
  case low => exact hlow
  case high => exact hhigh
  case freeSet => exact (hg.freeSet ▸ Set.sdiff_subset).trans (hs.freeSet ▸ Set.sdiff_subset)
  case layout =>
    refine hL₂.newTable hp hhigh hf₂ hne hsent hin hsodd fun b hb hb0 => ?_
    rw [hrow₂ b hb, windowTable] at hb0 ⊢
    split at hb0
    · next h =>
      rw [if_pos h]
      exact entry_or hgp.1
    · exact absurd rfl hb0
  case empty => exact hempty
  case used =>
    rw [hpde p hp, if_pos ⟨rfl, rfl⟩]
    exact hne
  case pde =>
    intro q hq a hqa
    rw [hpde q hq, if_neg hqa]
  case pte =>
    intro q hq a ha hqa b
    rw [hpte q hq a ha, if_neg hqa]
  case normal =>
    intro b hb
    rw [hpte p hp i hhigh, if_pos ⟨rfl, rfl⟩, hrow₂ b hb, windowTable]
    split
    · exact isPhy_or hgp.1
    · rfl
  case half =>
    have hpage : SameHalf pool k (({ k with heap := h₂ } : Kernel).setPage s
        (Function.update row 1023 (va2pa g ||| 0b11111))) :=
      (sameHalf_setPage hin fun _ hq => hf₂.dir hq).of_heap
    exact hpage.trans_of_eq (sameHalf_setWord (hL₂.dirIn hp) fun _ => hhigh) rfl
  case frames =>
    refine (frameOf_newTable_entry hL₂ hp hhigh hempty hf₂ hne hsent (by decide) hrow₂).trans ?_
    rw [entryFrame_or hgp.1, hgp.2]
    rfl
  case owned => exact hg.enter (.pte p i 1023) (fun _ => by simp) hnone

end Window

/-- A window of its own, or none is left. -/
theorem allocThreadStack_spec (hL : k.Layout phy pool) (hO : Owned k.heap own pool) (hA : Agree own k)
    (hp : p ∈ k.processTable) (hN : ∀ i j, k.pde p i = 0 → own (.pte p i j) = none) :
    Yields (k.allocThreadStack p) fun r => (r = (0, k) ∧ k.FullWindows p) ∨
      ∃ i s g, r.1 = (i + 1) * 2 ^ 22 ∧ Stacked k own phy pool p i s g r.2 := by
  unfold allocThreadStack
  rw [frameAt_cr3 hL hp, va2pde_STACK_TOP, va2pde_STACK_BOTTOM]
  set i := freeStackEntry (k.table (k.pd p)) 16 (USER_PDES - 1) with hi
  by_cases hlow : 736 < i
  · -- an empty window: a table with the top page of the stack
    obtain ⟨h0, hle, hodd⟩ := freeStackEntry_spec (by decide) hlow
    rw [← hi] at h0 hle hodd
    have hhigh : i < USER_PDES := lt_of_le_of_lt hle (by decide)
    have hempty : k.pde p i = 0 := h0
    rw [if_pos hlow]
    refine (allocPage_spec hO).bind fun r hr => ?_
    obtain ⟨s, h₁, rfl, hs⟩ := hr
    have hO₁ := hs.enter (.pageTable p i) (fun _ => by simp)
      ((hA.table p i).trans (frameOf_pageTable_none hempty))
    set row : Nat → Nat := fun b => if b < 1023 then 0 else k.table s b with hrow
    refine (allocPhysicalPage_spec (k := ({ k with heap := h₁ } : Kernel).setPage s row) hO₁).bind
      fun r hr => ?_
    obtain ⟨g, h₂, rfl, hg⟩ := hr
    show Yields (.ok ((i + 1) * PAGE_SIZE * 1024 % 2 ^ 32, ((({ ({ k with heap := h₁ } : Kernel).setPage
      s row with heap := h₂ } : Kernel).setWord s 1023 (va2pa g ||| 0b11111)).setWord (k.pd p) i
        (va2pa s ||| 0b11111)))) _
    rw [show ({ ({ k with heap := h₁ } : Kernel).setPage s row with heap := h₂ } : Kernel) =
        { k.setPage s row with heap := h₂ } from rfl, setPage_setWord]
    refine Or.inr ⟨i, s, g, ?_, .of_allocated hL hO hA hp hN hempty hodd hlow hhigh hs hg
      fun b hb => if_pos hb⟩
    show (i + 1) * PAGE_SIZE * 1024 % 2 ^ 32 = (i + 1) * 2 ^ 22
    unfold USER_PDES at hhigh
    unfold PAGE_SIZE
    omega
  · rw [if_neg hlow]
    -- all windows are taken
    refine Or.inl ⟨rfl, fun a hodd hlo hhi => ?_⟩
    have hend : USER_PDES - 1 = 767 := by decide
    unfold USER_PDES at hhi
    exact freeStackEntry_full (n := 16) (e := USER_PDES - 1) (by decide) (not_lt.mp hlow) hlo
      (by omega) (by omega)

/-! ## The thread

The record takes a third page. The thread gets the smallest number that is free, and with it its
place in the list of the process. -/

/-- The list gets one thread more and loses none. -/
theorem insertById_perm (id : Nat → Nat) (new n : Nat) (l : List Nat) :
    (insertById id new n l).2.Perm (new :: l) := by
  induction l generalizing n with
  | nil => exact List.Perm.refl _
  | cons e l ih =>
    rw [insertById]
    split
    · exact List.Perm.refl _
    · exact ((ih (n + 1)).cons e).trans (List.Perm.swap new e l)

/-- A process with one more thread in its list `l`. -/
def joined (l : List Nat) (P : Process) : Process :=
  { P with thread := l, avlThread := add32 P.avlThread 1 }

/-- The thread `t` of `p` has got the window of directory entry `i`, and nobody's tables differ
otherwise. -/
structure NewWindow (k : Kernel) (p t i : Nat) (k' : Kernel) : Prop where
  window : k'.HasWindow p t i
  empty : k.pde p i = 0
  pde : ∀ q ∈ k.processTable, ∀ a, ¬ (q = p ∧ a = i) → k'.pde q a = k.pde q a
  pte : ∀ q ∈ k.processTable, ∀ a < USER_PDES, ¬ (q = p ∧ a = i) → ∀ b, k'.pte q a b = k.pte q a b
  normal : ∀ b < 1024, isPhy (k'.pte p i b) = false

/-- The thread `t` has been created in `p`. -/
structure Spawned (k : Kernel) (own : Owner → Option Nat) (phy : Prop) (pool : Set Nat) (p t : Nat)
    (k' : Kernel) : Prop where
  processTable : k'.processTable = k.processTable
  currentProc : k'.currentProc = k.currentProc
  currentThread : k'.currentThread = k.currentThread
  proc : ∃ l, l.Perm (t :: (k.proc p).thread) ∧ k'.proc = (k.modProc p (joined l)).proc
  thr : ∀ u, u ≠ t → k'.thr u = k.thr u
  process : (k'.thr t).process = p
  flag : (k'.thr t).flag = 0
  numbered : insertById (fun u => (k.thr u).threadID) t 0 (k.proc p).thread =
    ((k'.thr t).threadID, (k'.proc p).thread)
  free : page t ⊆ k.heap.freeSet
  layout : k'.Layout phy pool
  pte : ∀ q ∈ k.processTable, q ≠ p → ∀ a < USER_PDES, ∀ b, k'.pte q a b = k.pte q a b
  stack : ∃ i, NewWindow k p t i k'
  half : SameHalf pool k k'
  frames : ∃ i s g, k'.frameOf = Function.update (Function.update (Function.update k.frameOf
      (.pageTable p i) (some s)) (.pte p i 1023) (some g)) (.threadPage t) (some t) ∧
    Owned k'.heap (Function.update (Function.update (Function.update own
      (.pageTable p i) (some s)) (.pte p i 1023) (some g)) (.threadPage t) (some t)) pool

section Join

variable {k₁ : Kernel} {h' : Heap} {l : List Nat} {T : Thread} {u : Nat}

/-- `k` with the record `T` for the thread `t`, and `l` as the list of its process `p`. -/
def joinThread (k : Kernel) (h : Heap) (p t : Nat) (T : Thread) (l : List Nat) : Kernel :=
  (({ k with heap := h } : Kernel).modThr t fun _ => T).modProc p (joined l)

@[simp] theorem joinThread_processTable :
    (k₁.joinThread h' p t T l).processTable = k₁.processTable := rfl

theorem joinThread_proc_self : (k₁.joinThread h' p t T l).proc p = joined l (k₁.proc p) := by
  rw [joinThread, modProc_proc_self, modThr_proc]

theorem joinThread_proc_of_ne (hq : q ≠ p) : (k₁.joinThread h' p t T l).proc q = k₁.proc q := by
  rw [joinThread, modProc_proc_of_ne hq, modThr_proc]

theorem joinThread_thr_self : (k₁.joinThread h' p t T l).thr t = T := by
  rw [joinThread, modProc_thr, modThr_thr_self]

theorem joinThread_thr_of_ne (hu : u ≠ t) : (k₁.joinThread h' p t T l).thr u = k₁.thr u := by
  rw [joinThread, modProc_thr, modThr_thr_of_ne hu]

/-- Joining changes the list and a counter, nothing that places a process in memory. -/
theorem sameQueues_joinThread : SameQueues k₁ (k₁.joinThread h' p t T l) := by
  refine ⟨⟨fun q => ?_, rfl⟩, rfl, fun q => ?_, fun q => ?_, fun q => ?_⟩ <;>
  · by_cases hq : q = p
    · rw [hq, joinThread_proc_self]
      rfl
    · rw [joinThread_proc_of_ne hq]

/-- The threads are those from before and the new one. -/
theorem mem_joinThread (hl : l.Perm (t :: (k₁.proc p).thread)) :
    u ∈ ((k₁.joinThread h' p t T l).proc q).thread ↔ (q = p ∧ u = t) ∨ u ∈ (k₁.proc q).thread := by
  by_cases hq : q = p
  · rw [hq, joinThread_proc_self]
    show u ∈ l ↔ _
    rw [hl.mem_iff, List.mem_cons]
    simp
  · rw [joinThread_proc_of_ne hq]
    simp [hq]

/-- A page that was free is no thread's. -/
theorem Stacked.not_thread (hS : Stacked k own phy pool p i s g k₁)
    (hthr : ∀ u, own (.threadPage u) = k.frameOf (.threadPage u)) (ht : page t ⊆ k₁.heap.freeSet) :
    own (.threadPage t) = none := by
  cases ho : own (.threadPage t) with
  | none => rfl
  | some f =>
    have hft : f = t := eq_of_frameOf_threadPage ((hthr t).symm.trans ho)
    have ho₁ : Function.update (Function.update own (.pageTable p i) (some s))
        (.pte p i 1023) (some g) (.threadPage t) = some t := by
      rw [Function.update_of_ne (by simp), Function.update_of_ne (by simp), ho, hft]
    exact absurd rfl (hS.owned.ne_of_free ho₁ ht)

/-- An old thread of `p` has a window of its own, and that window was in use. -/
theorem Stacked.stacktop_ne (hS : Stacked k own phy pool p i s g k₁) (hL : k.Layout phy pool)
    (hp : p ∈ k.processTable) (hu : u ∈ (k.proc p).thread) :
    (k.thr u).stacktop ≠ (i + 1) * 2 ^ 22 := by
  intro htop
  obtain ⟨a, hw⟩ := hL.window hp hu
  have hai : a = i := by
    have heq := hw.stacktop.symm.trans htop
    omega
  exact hw.used (hai ▸ hS.empty)

/-- The window is that of the new thread, by the stack top in its record. -/
theorem Stacked.hasWindow (hS : Stacked k own phy pool p i s g k₁)
    (htop : T.stacktop = (i + 1) * 2 ^ 22) : (k₁.joinThread h' p t T l).HasWindow p t i := by
  refine ⟨hS.odd, ?_, hS.high, by rw [joinThread_thr_self, htop], ?_⟩
  · rw [va2pde_STACK_BOTTOM]
    exact hS.low
  · rw [sameQueues_joinThread.pde]
    exact hS.used

/-- Every thread has a window, and no two the same. -/
theorem Stacked.layout_joinThread (hS : Stacked k own phy pool p i s g k₁) (hL : k.Layout phy pool)
    (hp : p ∈ k.processTable) (hl : l.Perm (t :: (k₁.proc p).thread))
    (hnew : ∀ q ∈ k.processTable, t ∉ (k.proc q).thread) (htop : T.stacktop = (i + 1) * 2 ^ 22) :
    (k₁.joinThread h' p t T l).Layout phy pool := by
  have hthrself : (k₁.joinThread h' p t T l).thr t = T := joinThread_thr_self
  -- the threads from before keep their records
  have hold : ∀ {q u}, q ∈ k₁.processTable → u ∈ (k₁.proc q).thread →
      (q ∈ k.processTable ∧ u ∈ (k.proc q).thread) ∧
      (k₁.joinThread h' p t T l).thr u = k.thr u := by
    intro q u hq hu
    rw [hS.processTable] at hq
    rw [hS.proc] at hu
    have hut : u ≠ t := fun h => hnew q hq (h ▸ hu)
    exact ⟨⟨hq, hu⟩, by rw [joinThread_thr_of_ne hut, hS.thr]⟩
  have hT : SameTables k₁ (k₁.joinThread h' p t T l) := sameQueues_joinThread.toSameTables
  refine hT.layout hS.layout (fun hq => hq) (fun {q u} hq hu => ?_) fun {q u w} hq hu hw heq => ?_
  · rcases (mem_joinThread hl).mp hu with ⟨rfl, rfl⟩ | hu'
    · exact ⟨i, hS.hasWindow htop⟩
    · obtain ⟨a, hwin⟩ := hS.layout.window hq hu'
      refine ⟨a, hwin.odd, hwin.low, hwin.high, ?_, by rw [hT.pde]; exact hwin.used⟩
      rw [(hold hq hu').2, ← hS.thr]
      exact hwin.stacktop
  · rcases (mem_joinThread hl).mp hu with ⟨rfl, rfl⟩ | hu'
    · rcases (mem_joinThread hl).mp hw with ⟨-, rfl⟩ | hw'
      · rfl
      · rw [hthrself, htop, (hold hq hw').2] at heq
        exact absurd heq.symm (hS.stacktop_ne hL hp (hold hq hw').1.2)
    · rcases (mem_joinThread hl).mp hw with ⟨rfl, rfl⟩ | hw'
      · rw [hthrself, htop, (hold hq hu').2] at heq
        exact absurd heq (hS.stacktop_ne hL hp (hold hq hu').1.2)
      · rw [(hold hq hu').2, (hold hq hw').2] at heq
        exact hL.windowsApart (hold hq hu').1.1 (hold hq hu').1.2 (hold hq hw').1.2 heq

/-- The ledger gets the page of the record. -/
theorem frameOf_joinThread (hp : p ∈ k₁.processTable) (hl : l.Perm (t :: (k₁.proc p).thread)) :
    (k₁.joinThread h' p t T l).frameOf = Function.update k₁.frameOf (.threadPage t) (some t) := by
  have htl : t ∈ ((k₁.joinThread h' p t T l).proc p).thread :=
    (mem_joinThread hl).mpr (Or.inl ⟨rfl, rfl⟩)
  rw [← frameOf_threadPage (k := k₁.joinThread h' p t T l) hp htl]
  refine frameOf_update_thread sameQueues_joinThread fun u hu q => ?_
  rw [mem_joinThread hl]
  exact or_iff_right fun h => hu h.2

/-- The new thread in the list of its process, behind a stack that has been set up. -/
theorem Stacked.spawned (hS : Stacked k own phy pool p i s g k₁) (hL : k.Layout phy pool)
    (hp : p ∈ k.processTable) (hthr : ∀ u, own (.threadPage u) = k.frameOf (.threadPage u))
    (ht : Owned.Allocated k₁.heap (Function.update (Function.update own (.pageTable p i) (some s))
      (.pte p i 1023) (some g)) pool t h')
    (hins : insertById (fun u => (k.thr u).threadID) t 0 (k.proc p).thread = (T.threadID, l))
    (hproc : T.process = p) (hflag : T.flag = 0) (htop : T.stacktop = (i + 1) * 2 ^ 22) :
    Spawned k own phy pool p t (k₁.joinThread h' p t T l) := by
  have hl : l.Perm (t :: (k.proc p).thread) := by
    have hperm := insertById_perm (fun u => (k.thr u).threadID) t 0 (k.proc p).thread
    rwa [hins] at hperm
  have hl₁ : l.Perm (t :: (k₁.proc p).thread) := by rwa [hS.proc]
  have hnone : own (.threadPage t) = none := hS.not_thread hthr ht.free
  -- the page of the thread was free, so no thread had it
  have hnew : ∀ q ∈ k.processTable, t ∉ (k.proc q).thread := by
    intro q hq hmem
    have hsome := (hthr t).trans (frameOf_threadPage hq hmem)
    rw [hnone] at hsome
    exact nomatch hsome
  have hT : SameTables k₁ (k₁.joinThread h' p t T l) := sameQueues_joinThread.toSameTables
  constructor
  case processTable => exact hS.processTable
  case currentProc => exact hS.currentProc
  case currentThread => exact hS.currentThread
  case proc =>
    refine ⟨l, hl, funext fun q => ?_⟩
    by_cases hq : q = p
    · rw [hq, joinThread_proc_self, modProc_proc_self, hS.proc]
    · rw [joinThread_proc_of_ne hq, modProc_proc_of_ne hq, hS.proc]
  case thr =>
    intro u hu
    rw [joinThread_thr_of_ne hu, hS.thr]
  case process => rw [joinThread_thr_self, hproc]
  case flag => rw [joinThread_thr_self, hflag]
  case numbered =>
    rw [hins, joinThread_thr_self, joinThread_proc_self]
    rfl
  case free => exact ht.free.trans hS.freeSet
  case layout => exact hS.layout_joinThread hL hp hl₁ hnew htop
  case pte =>
    intro q hq hqp a ha b
    rw [hT.pte, hS.pte q hq a ha fun h => hqp h.1]
  case stack =>
    refine ⟨i, hS.hasWindow htop, hS.empty, fun q hq a hqa => ?_, fun q hq a ha hqa b => ?_,
      fun b hb => ?_⟩
    · rw [hT.pde, hS.pde q hq a hqa]
    · rw [hT.pte, hS.pte q hq a ha hqa]
    · rw [hT.pte]
      exact hS.normal b hb
  case half => exact hS.half.trans_of_eq (SameHalf.of_eq rfl hT.cr3) hS.processTable
  case frames =>
    refine ⟨i, s, g, ?_, ht.enter _ (fun _ => by simp) ?_⟩
    · rw [frameOf_joinThread (hS.processTable ▸ hp) hl₁, hS.frames]
    · rw [Function.update_of_ne (by simp), Function.update_of_ne (by simp), hnone]

end Join

/-- **`createThread`**: a thread, or nothing when no window is left. -/
theorem createThread_spec {ip : Nat} (hL : k.Layout phy pool) (hO : Owned k.heap own pool)
    (hA : Agree own k) (hp : p ∈ k.processTable)
    (hN : ∀ i j, k.pde p i = 0 → own (.pte p i j) = none)
    (hthr : ∀ u, own (.threadPage u) = k.frameOf (.threadPage u)) :
    Yields (k.createThread p ip) fun r => (r = (0, k) ∧ k.FullWindows p) ∨
      Spawned k own phy pool p r.1 r.2 := by
  unfold createThread
  refine (allocThreadStack_spec hL hO hA hp hN).bind fun r hr => ?_
  rcases hr with ⟨rfl, htop⟩ | ⟨i, s, g, hsp, hS⟩
  · exact Or.inl ⟨rfl, htop⟩
  · obtain ⟨sp, k₁⟩ := r
    -- a stack has been set up
    have hne : sp ≠ 0 := by
      rw [show sp = (i + 1) * 2 ^ 22 from hsp]
      omega
    show Yields (if sp = 0 then _ else _) _
    rw [if_neg hne]
    refine (allocPage_spec hS.owned).bind fun r hr => ?_
    obtain ⟨t, h', rfl, ht⟩ := hr
    set k₂ : Kernel := { k₁ with heap := h' } with hk₂
    set start : Thread → Thread := fun T => { T with
      regs := { T.regs with
        cs := SEL_FLAT_C_USR, ds := SEL_FLAT_D_USR, es := SEL_FLAT_D_USR, fs := SEL_FLAT_D_USR,
        ss := SEL_FLAT_D_USR, gs := SEL_FLAT_D_USR, ip := ip, sp := sp,
        flags := if (k₂.proc p).privilege = 0 then 0x3202 else 0x202 }
      stacktop := sp, process := p } with hstart
    set ins := insertById (fun u => ((k₂.modThr t start).thr u).threadID) t 0
      ((k₂.modThr t start).proc p).thread with hins
    -- the list is sorted by the numbers of the threads that were there
    have hid : (fun u => ((k₂.modThr t start).thr u).threadID) = fun u => (k.thr u).threadID := by
      funext u
      rw [modThr_thr, ← hS.thr]
      split
      · next hu => rw [hu]
      · rfl
    have hnum : insertById (fun u => (k.thr u).threadID) t 0 (k.proc p).thread = (ins.1, ins.2) := by
      rw [← hid, ← hS.proc]
      rfl
    have heq : (((k₂.modThr t start).modThr t fun T => { T with threadID := ins.1 }).modProc p
        (joined ins.2)).modThr t (fun T => { T with flag := 0 }) =
        (k₂.modThr t fun _ => { start (k₂.thr t) with threadID := ins.1, flag := 0 }).modProc p
          (joined ins.2) := by
      rw [modThr_modProc, modThr_modThr, modThr_modThr]
      rfl
    show Yields (.ok (t, ((((k₂.modThr t start).modThr t fun T => { T with threadID := ins.1 }).modProc p
      (joined ins.2)).modThr t fun T => { T with flag := 0 }))) _
    rw [heq]
    exact Or.inr (hS.spawned hL hp hthr ht hnum rfl rfl hsp)

end Kernel

end NorlitOS
