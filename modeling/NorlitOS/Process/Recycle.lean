import NorlitOS.Process.Queue
import NorlitOS.Process.Spawn

/-!
# Giving page frames back

The walks over a page table, over the user half of a directory and over a message queue free
what they find. While a walk runs, directories and tables stay as they are: only the heap
changes, and the ledger loses one owner after the other.
-/

namespace NorlitOS

open Dyadic Ledger Loop

/-- The page table `i` of `p` and what its entries own. -/
def tableOwners (p i : Nat) : Set Owner :=
  below (fun j => {Owner.pte p i j}) 1024 ∪ {Owner.pageTable p i}

/-- The directory of `p` and what its user half owns. -/
def spaceOwners (p : Nat) : Set Owner :=
  below (tableOwners p) Kernel.USER_PDES ∪ {Owner.pageDirectory p}

theorem process_of_mem_tableOwners {p i : Nat} {o : Owner} (h : o ∈ tableOwners p i) :
    o.process = some p := by
  rcases h with ⟨j, -, rfl⟩ | rfl
  · rfl
  · rfl

theorem tableOwners_disjoint {p i j : Nat} {o : Owner} (h : o ∈ tableOwners p i)
    (h' : o ∈ tableOwners p j) : i = j := by
  rcases h with ⟨a, -, rfl⟩ | rfl
  · rcases h' with ⟨b, -, hb⟩ | hb
    · exact (Owner.pte.inj hb).2.1
    · exact nomatch hb
  · rcases h' with ⟨b, -, hb⟩ | hb
    · exact nomatch hb
    · exact (Owner.pageTable.inj hb).2

namespace Kernel

variable {k k' : Kernel} {own : Owner → Option Nat} {pool : Set Nat} {p q i j f n cr3 : Nat}
  {keep : Nat → Bool}

/-- The frame a walk recycles behind an entry. -/
def recycled (keep : Nat → Bool) (entry : Nat) : Option Nat :=
  if entry ≠ 0 ∧ keep entry = false then some (frameAt entry) else none

theorem recycled_isPhy (entry : Nat) : recycled isPhy entry = entryFrame entry := by
  unfold recycled entryFrame
  by_cases h0 : entry = 0
  · rw [if_neg fun h => h.1 h0, if_pos (Or.inl h0)]
  · cases hp : isPhy entry with
    | true =>
      rw [if_neg fun h => nomatch h.2]
      exact (if_pos (Or.inr rfl)).symm
    | false =>
      rw [if_pos ⟨h0, rfl⟩]
      exact (if_neg fun h => h.elim h0 nofun).symm

/-- Behind a table without physical pages nothing is kept. -/
theorem recycled_all {entry : Nat} (h : isPhy entry = false) :
    recycled (fun _ => false) entry = entryFrame entry := by
  rw [← recycled_isPhy]
  unfold recycled
  rw [h]

/-! ## A page table

Every entry in use gives its frame back, except physical mappings where they are kept. -/

theorem recycleEntry_spec (hO : Owned k.heap own pool)
    (hent : own (.pte p i j) = recycled keep (k.table f j)) :
    ∃ h', recycleEntry keep f j k = .ok { k with heap := h' } ∧
      Owned h' (without own {.pte p i j}) pool := by
  unfold recycleEntry
  unfold recycled at hent
  by_cases hr : k.table f j ≠ 0 ∧ keep (k.table f j) = false
  · rw [if_pos hr] at hent ⊢
    obtain ⟨h', hok, hO'⟩ := recyclePhysicalPage_spec hO hent
    rw [update_none] at hO'
    exact ⟨h', hok, hO'⟩
  · rw [if_neg hr] at hent ⊢
    refine ⟨k.heap, rfl, ?_⟩
    rw [without_of_none fun o ho => by rw [Set.mem_singleton_iff.mp ho, hent]]
    exact hO

/-- **The walk over a page table** frees what its entries own, and the table. -/
theorem recycleTable_spec (hO : Owned k.heap own pool)
    (hrow : ∀ j < 1024, own (.pte p i j) = recycled keep (k.table f j))
    (htable : own (.pageTable p i) = some f) :
    ∃ h', recycleTable keep f k = .ok { k with heap := h' } ∧
      Owned h' (without own (tableOwners p i)) pool := by
  -- after `n` rounds the first `n` entries have no owner
  have hloop : ∃ t, forRange 1024 (recycleEntry keep f) k = .ok t ∧ ∃ h, t = { k with heap := h } ∧
      Owned h (without own (below (fun j => {Owner.pte p i j}) 1024)) pool := by
    refine forRange_spec (P := fun n s => ∃ h, s = { k with heap := h } ∧
      Owned h (without own (below (fun j => {Owner.pte p i j}) n)) pool)
      ⟨k.heap, rfl, by rwa [below_zero, without_empty]⟩ ?_
    rintro j _ hj ⟨h, rfl, hO⟩
    have hent : without own (below (fun j => {Owner.pte p i j}) j) (.pte p i j) =
        recycled keep (k.table f j) := by
      rw [without_of_notMem, hrow j hj]
      rintro ⟨b, hb, hjb⟩
      exact hb.ne' (Owner.pte.inj hjb).2.2
    obtain ⟨h', hok, hO'⟩ := recycleEntry_spec (k := { k with heap := h }) hO hent
    refine ⟨_, hok, h', rfl, ?_⟩
    rwa [below_succ, without_union]
  obtain ⟨_, hok, h₁, rfl, hO₁⟩ := hloop
  have htab : without own (below (fun j => {Owner.pte p i j}) 1024) (.pageTable p i) = some f := by
    rw [without_of_notMem, htable]
    rintro ⟨b, -, hb⟩
    exact nomatch hb
  obtain ⟨h', hfree, hO'⟩ := freePage_spec (k := { k with heap := h₁ }) hO₁ htab
  refine ⟨h', ?_, ?_⟩
  · rw [recycleTable, hok]
    exact hfree
  · rwa [update_without] at hO'

/-! ## A directory

The tables of the user half, each with what it maps. -/

/-- **`recycleProcessPDE`** frees what the user half owns, and the directory. -/
theorem recycleProcessPDE_spec (hO : Owned k.heap own pool)
    (hdir : own (.pageDirectory p) = some (k.pd p)) (hcr3 : frameAt cr3 = k.pd p)
    (hpd : pa2va cr3 = k.pd p)
    (htable : ∀ i < USER_PDES, own (.pageTable p i) =
      if k.pde p i = 0 then none else some (frameAt (k.pde p i)))
    (hpte : ∀ i < USER_PDES, ∀ j < 1024, own (.pte p i j) = entryFrame (k.pte p i j)) :
    ∃ h', k.recycleProcessPDE cr3 = .ok { k with heap := h' } ∧
      Owned h' (without own (spaceOwners p)) pool := by
  unfold recycleProcessPDE
  dsimp only
  rw [hcr3, hpd, va2pde_STACK_TOP]
  -- after `n` rounds the first `n` tables and what they map have gone
  have hloop : ∃ t, forRange USER_PDES (fun index k' =>
      if k'.table (k.pd p) index ≠ 0 then
        recycleTable isPhy (frameAt (k'.table (k.pd p) index)) k'
      else .ok k') k = .ok t ∧ ∃ h, t = { k with heap := h } ∧
        Owned h (without own (below (tableOwners p) USER_PDES)) pool := by
    refine forRange_spec (P := fun n s => ∃ h, s = { k with heap := h } ∧
      Owned h (without own (below (tableOwners p) n)) pool)
      ⟨k.heap, rfl, by rwa [below_zero, without_empty]⟩ ?_
    rintro i _ hi ⟨h, rfl, hO⟩
    have hsame : ∀ {o}, o ∈ tableOwners p i → without own (below (tableOwners p) i) o = own o := by
      intro o ho
      refine without_of_notMem ?_
      rintro ⟨b, hb, hob⟩
      exact hb.ne' (tableOwners_disjoint ho hob)
    have hmem : ∀ j < 1024, Owner.pte p i j ∈ tableOwners p i := fun j hj => Or.inl ⟨j, hj, rfl⟩
    rw [below_succ, without_union]
    by_cases h0 : k.pde p i = 0
    · refine ⟨{ k with heap := h }, if_neg (not_not.mpr h0), h, rfl, ?_⟩
      rw [without_of_none fun o ho => ?_]
      · exact hO
      · rw [hsame ho]
        rcases ho with ⟨j, hj, rfl⟩ | rfl
        · rw [hpte i hi j hj, pte_of_no_pde h0, entryFrame_zero]
        · rw [htable i hi, if_pos h0]
    · have hrow : ∀ j < 1024, without own (below (tableOwners p) i) (.pte p i j) =
          recycled isPhy (k.table (frameAt (k.pde p i)) j) := fun j hj => by
        rw [hsame (hmem j hj), hpte i hi j hj, recycled_isPhy, pte_of_pde h0]
      obtain ⟨h', hok, hO'⟩ := recycleTable_spec (k := { k with heap := h }) hO hrow
        (by rw [hsame (Or.inr rfl), htable i hi, if_neg h0])
      exact ⟨_, (if_pos h0).trans hok, h', rfl, hO'⟩
  obtain ⟨_, hok, h₁, rfl, hO₁⟩ := hloop
  -- the directory itself is still there
  have hd : without own (below (tableOwners p) USER_PDES) (.pageDirectory p) = some (k.pd p) := by
    rw [without_of_notMem, hdir]
    rintro ⟨i, -, ⟨j, -, h⟩ | h⟩
    · exact nomatch h
    · exact nomatch h
  obtain ⟨h', hfree, hO'⟩ := freePage_spec (k := { k with heap := h₁ }) hO₁ hd
  refine ⟨h', ?_, ?_⟩
  · rw [hok]
    exact hfree
  · rwa [update_without] at hO'

/-! ## A message queue

The pages in the slots, from the tail on. -/

/-- Only the heap and the queue of `p` differ. -/
structure SameButQueue (k : Kernel) (p : Nat) (k' : Kernel) : Prop where
  table : k'.table = k.table
  thr : k'.thr = k.thr
  processTable : k'.processTable = k.processTable
  currentProc : k'.currentProc = k.currentProc
  currentThread : k'.currentThread = k.currentThread
  other : ∀ q, q ≠ p → k'.proc q = k.proc q
  thread : (k'.proc p).thread = (k.proc p).thread

/-- The slots of `p`. -/
def slotOwners (p : Nat) : Set Owner := {o | ∃ n, o = .slot p n}

/-- **The walk over the queue** frees the pages of the queued messages. -/
theorem recycleMessages_spec (hO : Owned k.heap own pool)
    (hn : (k.proc p).msgCount = n) (hle : n ≤ MAX_MESSAGE_COUNT)
    (ht : (k.proc p).msgTail < MAX_MESSAGE_COUNT)
    (hslot : ∀ m, own (.slot p m) = if InQueue (k.proc p) m then
      some (frameAt ((k.proc p).messages m % 2 ^ 32)) else none) :
    ∃ k', recycleMessages p n k = .ok k' ∧ SameButQueue k p k' ∧
      Owned k'.heap (without own (slotOwners p)) pool := by
  induction n generalizing k own with
  | zero =>
    refine ⟨k, rfl, ⟨rfl, rfl, rfl, rfl, rfl, fun _ _ => rfl, rfl⟩, ?_⟩
    rw [without_of_none]
    · exact hO
    · rintro _ ⟨m, rfl⟩
      rw [hslot, if_neg]
      intro hm
      exact Nat.not_lt_zero _ (hn ▸ hm.2)
  | succ n ih =>
    have hne : (k.proc p).msgCount ≠ 0 := by omega
    have hcount : (k.proc p).msgCount ≤ MAX_MESSAGE_COUNT := hn ▸ hle
    -- the message at the tail is freed, and the tail moves on
    have htail : own (.slot p (k.proc p).msgTail) =
        some (frameAt ((k.proc p).messages (k.proc p).msgTail % 2 ^ 32)) := by
      rw [hslot, if_pos (inQueue_tail ht hne)]
    obtain ⟨h', hok, hO'⟩ := recyclePhysicalPage_spec hO htail
    set k₁ : Kernel := ({ k with heap := h' } : Kernel).dequeue p with hk₁
    have hproc : k₁.proc p = { k.proc p with
        msgTail := Ring.next MAX_MESSAGE_COUNT (k.proc p).msgTail
        msgCount := (k.proc p).msgCount - 1 } := modProc_proc_self
    have hin : ∀ m, InQueue (k₁.proc p) m ↔ InQueue (k.proc p) m ∧ m ≠ (k.proc p).msgTail :=
      fun m => inQueue_dequeue ht hcount
    have hslot₁ : ∀ m, Function.update own (.slot p (k.proc p).msgTail) none (.slot p m) =
        if InQueue (k₁.proc p) m then some (frameAt ((k₁.proc p).messages m % 2 ^ 32)) else none := by
      intro m
      have hmsg : (k₁.proc p).messages = (k.proc p).messages := by rw [hproc]
      by_cases hm : m = (k.proc p).msgTail
      · rw [hm, Function.update_self, if_neg fun h => ((hin _).mp h).2 rfl]
      · rw [Function.update_of_ne fun h => hm (Owner.slot.inj h).2, hslot, hmsg]
        by_cases hq : InQueue (k.proc p) m
        · rw [if_pos hq, if_pos ((hin m).mpr ⟨hq, hm⟩)]
        · rw [if_neg hq, if_neg fun h => hq ((hin m).mp h).1]
    have hn₁ : (k₁.proc p).msgCount = n := by
      rw [hproc]
      show (k.proc p).msgCount - 1 = n
      omega
    have ht₁ : (k₁.proc p).msgTail < MAX_MESSAGE_COUNT := by
      rw [hproc]
      exact Ring.next_lt ht
    obtain ⟨k', hrun, hS, hO''⟩ := ih (k := k₁) hO' hn₁ (by omega) ht₁ hslot₁
    refine ⟨k', ?_, ?_, ?_⟩
    · rw [recycleMessages]
      rw [hok]
      exact hrun
    · refine ⟨hS.table, hS.thr, hS.processTable, hS.currentProc, hS.currentThread, fun q hq => ?_, ?_⟩
      · rw [hS.other q hq]
        exact modProc_proc_of_ne hq
      · rw [hS.thread, hproc]
    · -- the slots freed by the rest are slots of the same queue
      have hsub : without (Function.update own (.slot p (k.proc p).msgTail) none) (slotOwners p) =
          without own (slotOwners p) := by
        rw [update_none, ← without_union, Set.union_eq_self_of_subset_left]
        rintro _ rfl
        exact ⟨_, rfl⟩
      rwa [hsub] at hO''

/-! ## The window of a thread

Two tables leave the directory with all that they map. -/

section ClearEntry

variable {phy : Prop} (hL : k.Layout phy pool) (hp : p ∈ k.processTable)

include hL hp

theorem pde_clear (hq : q ∈ k.processTable) (a : Nat) :
    (k.setWord (k.pd p) i 0).pde q a = if q = p ∧ a = i then 0 else k.pde q a := by
  rw [pde_setWord]
  by_cases hqp : q = p
  · subst hqp
    simp
  · rw [if_neg fun h => hqp (hL.dirs hq hp h.1), if_neg fun h => hqp h.1]

theorem pte_clear (hq : q ∈ k.processTable) {a : Nat} (ha : a < USER_PDES) (b : Nat) :
    (k.setWord (k.pd p) i 0).pte q a b = if q = p ∧ a = i then 0 else k.pte q a b := by
  unfold pte
  rw [pde_clear hL hp hq]
  by_cases hqa : q = p ∧ a = i
  · rw [if_pos hqa, if_pos rfl, if_pos hqa]
  · rw [if_neg hqa, if_neg hqa]
    by_cases h0 : k.pde q a = 0
    · rw [if_pos h0, if_pos h0]
    · rw [if_neg h0, if_neg h0, setWord_table, if_neg fun h => hL.tableDir hq hp ha h0 h.1]

/-- A cleared entry takes the table and all behind it from the process. -/
theorem frameOf_clear : (k.setWord (k.pd p) i 0).frameOf = without k.frameOf (tableOwners p i) := by
  have hS : SameLists k (k.setWord (k.pd p) i 0) := sameLists_setWord
  funext o
  -- behind the entry nothing has an owner any more
  by_cases ho : o ∈ tableOwners p i
  · rw [without_of_mem ho]
    rcases ho with ⟨j, hj, rfl⟩ | rfl
    · simp only [frameOf, hS.processTable]
      split
      · next h => rw [pte_clear hL hp hp h.2.1, if_pos ⟨rfl, rfl⟩, entryFrame_zero]
      · rfl
    · exact if_neg fun h => h.2.2 ((pde_clear hL hp hp i).trans (if_pos ⟨rfl, rfl⟩))
  · rw [without_of_notMem ho]
    cases o with
    | pte q a b =>
      simp only [frameOf, hS.processTable]
      by_cases hq : q ∈ k.processTable ∧ a < USER_PDES ∧ b < 1024
      · rw [if_pos hq, if_pos hq, pte_clear hL hp hq.1 hq.2.1, if_neg]
        rintro ⟨rfl, rfl⟩
        exact ho (Or.inl ⟨b, hq.2.2, rfl⟩)
      · rw [if_neg hq, if_neg hq]
    | pageTable q a =>
      have hne : ¬ (q = p ∧ a = i) := by
        rintro ⟨rfl, rfl⟩
        exact ho (Or.inr rfl)
      simp only [frameOf, hS.processTable]
      by_cases hq : q ∈ k.processTable
      · rw [pde_clear hL hp hq, if_neg hne]
      · rw [if_neg fun h => hq h.1, if_neg fun h => hq h.1]
    | pageDirectory q => rfl
    | threadPage t => rfl
    | slot q n => rfl
    | record q => rfl

/-- An entry that is no thread's window may be cleared. -/
theorem Layout.clear (hwin : ∀ t ∈ (k.proc p).thread, ¬ k.HasWindow p t i)
    (hi : i < USER_PDES) : (k.setWord (k.pd p) i 0).Layout phy pool := by
  -- an entry that is not zero has not been cleared
  have hpde : ∀ {q a}, q ∈ k.processTable → (k.setWord (k.pd p) i 0).pde q a ≠ 0 →
      (k.setWord (k.pd p) i 0).pde q a = k.pde q a := by
    intro q a hq h0
    rw [pde_clear hL hp hq] at h0 ⊢
    split at h0
    · exact absurd rfl h0
    · next hqa => rw [if_neg hqa]
  constructor
  case dirs => exact hL.dirs
  case dirIn => exact hL.dirIn
  case cr3 => exact hL.cr3
  case tableDir =>
    intro q r a hq hr ha h0
    have heq := hpde hq h0
    rw [heq] at h0 ⊢
    exact hL.tableDir hq hr ha h0
  case tables =>
    intro q r a b hq hr ha hb h0 h0' h
    have heq := hpde hq h0
    have heq' := hpde hr h0'
    rw [heq] at h0 h
    rw [heq'] at h0' h
    exact hL.tables hq hr ha hb h0 h0' h
  case tableIn =>
    intro q a hq ha h0
    have heq := hpde hq h0
    rw [heq] at h0 ⊢
    exact hL.tableIn hq ha h0
  case pdeOdd =>
    intro q a hq ha h0
    have heq := hpde hq h0
    rw [heq] at h0 ⊢
    exact hL.pdeOdd hq ha h0
  case entry =>
    intro q a b hq ha hb h0
    rw [pte_clear hL hp hq ha] at h0 ⊢
    split at h0
    · exact absurd rfl h0
    · next hqa =>
      rw [if_neg hqa]
      exact hL.entry hq ha hb h0
  case kernelHalf =>
    intro q a hq ha ha' h0
    have heq := hpde hq h0
    rw [heq] at h0 ⊢
    exact hL.kernelHalf hq ha ha' h0
  case window =>
    intro q t hq ht
    obtain ⟨a, hw⟩ := hL.window hq ht
    refine ⟨a, hw.odd, hw.low, hw.high, hw.stacktop, ?_⟩
    rw [pde_clear hL hp hq, if_neg]
    · exact hw.used
    · rintro ⟨rfl, rfl⟩
      exact hwin t ht hw
  case windowsApart => exact hL.windowsApart

end ClearEntry

theorem setWord_self : k.setWord f i (k.table f i) = k := by
  unfold setWord
  rw [Function.update_eq_self, Function.update_eq_self]

/-- The window of a stack that ends at `(i + 1) * 4 MiB`. -/
theorem stackEntry_eq (hodd : i % 2 = 1) (hi : i < USER_PDES) :
    stackEntry ((i + 1) * 2 ^ 22) = i := by
  unfold USER_PDES at hi
  unfold stackEntry va2pde
  rw [sub32_of_le (by omega) (by omega)]
  omega

/-- What the two tables of the window of entry `i` own. -/
def windowOwners (p i : Nat) : Set Owner := tableOwners p i ∪ tableOwners p (i - 1)

/-- A table behind an entry of a window; without physical pages everything behind it is freed. -/
theorem recycleStackTable_spec (hO : Owned k.heap own pool) (h0 : k.pde p i ≠ 0)
    (htable : own (.pageTable p i) = some (frameAt (k.pde p i)))
    (hpte : ∀ j < 1024, own (.pte p i j) = entryFrame (k.pte p i j))
    (hphy : ∀ j < 1024, isPhy (k.pte p i j) = false) :
    ∃ h', k.recycleStackTable (k.pd p) i = .ok { k with heap := h' } ∧
      Owned h' (without own (tableOwners p i)) pool := by
  refine recycleTable_spec hO (fun j hj => ?_) htable
  have hrow := hphy j hj
  rw [pte_of_pde h0] at hrow
  rw [hpte j hj, pte_of_pde h0]
  exact (recycled_all hrow).symm

/-- The lower table of a window is there when the stack has grown into it. -/
theorem recycleLowerTable_spec (hO : Owned k.heap own pool)
    (htable : own (.pageTable p i) = if k.pde p i = 0 then none else some (frameAt (k.pde p i)))
    (hpte : ∀ j < 1024, own (.pte p i j) = entryFrame (k.pte p i j))
    (hphy : ∀ j < 1024, isPhy (k.pte p i j) = false) :
    ∃ h', k.recycleLowerTable (k.pd p) i =
        .ok (({ k with heap := h' } : Kernel).setWord (k.pd p) i 0) ∧
      Owned h' (without own (tableOwners p i)) pool := by
  unfold recycleLowerTable
  -- the stack has not grown into this table
  by_cases h0 : k.pde p i = 0
  · have hself := setWord_self (k := k) (f := k.pd p) (i := i)
    rw [show k.table (k.pd p) i = 0 from h0] at hself
    refine ⟨k.heap, (if_neg (not_not.mpr h0)).trans (congrArg Except.ok hself.symm), ?_⟩
    rw [without_of_none fun o ho => ?_]
    · exact hO
    · rcases ho with ⟨j, hj, rfl⟩ | rfl
      · rw [hpte j hj, pte_of_no_pde h0, entryFrame_zero]
      · rw [htable, if_pos h0]
  · obtain ⟨h', hok, hO'⟩ := recycleStackTable_spec hO h0 (by rw [htable, if_neg h0]) hpte hphy
    refine ⟨h', (if_pos h0).trans ?_, hO'⟩
    rw [hok]
    rfl

/-- **`recycleThreadStack`** frees the two tables of the window and clears their entries. -/
theorem recycleThreadStack_spec {t : Nat} (hO : Owned k.heap own pool)
    (hpd : frameAt (k.proc (k.thr t).process).cr3 = k.pd p)
    (htop : stackEntry (k.thr t).stacktop = i) (hodd : i % 2 = 1) (h0 : k.pde p i ≠ 0)
    (htable : ∀ a, a = i ∨ a = i - 1 → own (.pageTable p a) =
      if k.pde p a = 0 then none else some (frameAt (k.pde p a)))
    (hpte : ∀ a, a = i ∨ a = i - 1 → ∀ j < 1024, own (.pte p a j) = entryFrame (k.pte p a j))
    (hphy : ∀ a, a = i ∨ a = i - 1 → ∀ j < 1024, isPhy (k.pte p a j) = false) :
    ∃ h', k.recycleThreadStack t =
        .ok ((({ k with heap := h' } : Kernel).setWord (k.pd p) (i - 1) 0).setWord (k.pd p) i 0) ∧
      Owned h' (without own (windowOwners p i)) pool := by
  unfold recycleThreadStack
  dsimp only
  rw [hpd, htop]
  obtain ⟨h₁, hok, hO₁⟩ := recycleStackTable_spec hO h0
    (by rw [htable i (Or.inl rfl), if_neg h0]) (hpte i (Or.inl rfl)) (hphy i (Or.inl rfl))
  -- the two tables have no owner in common
  have hsame : ∀ o ∈ tableOwners p (i - 1), without own (tableOwners p i) o = own o := by
    intro o ho
    refine without_of_notMem fun h => ?_
    have hii := tableOwners_disjoint ho h
    omega
  obtain ⟨h₂, hok₂, hO₂⟩ := recycleLowerTable_spec (k := { k with heap := h₁ }) (i := i - 1) hO₁
    (by rw [hsame _ (Or.inr rfl)]; exact htable _ (Or.inr rfl))
    (fun j hj => by rw [hsame _ (Or.inl ⟨j, hj, rfl⟩)]; exact hpte _ (Or.inr rfl) j hj)
    (hphy _ (Or.inr rfl))
  refine ⟨h₂, ?_, ?_⟩
  · rw [hok, ok_bind, show ({ k with heap := h₁ } : Kernel).recycleLowerTable (k.pd p) (i - 1) = _
      from hok₂]
    rfl
  · rwa [windowOwners, without_union]

end Kernel

end NorlitOS
