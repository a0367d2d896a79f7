import NorlitOS.Process.Identifiers

/-!
# Stack windows

A process whose stack region is used by nothing but the stacks of its threads stays so while
threads are created, disposed, and grow their stacks. Then every directory entry of the region
that is in use belongs to the window of one live thread, so a window is free exactly when fewer
than sixteen threads live.
-/

namespace NorlitOS

open Dyadic Ledger

namespace Kernel

variable {k k' k₁ k₂ : Kernel} {phy : Prop} {pool : Set Nat} {own : Owner → Option Nat}
  {p q t u i a flag addr ip kernelPDE : Nat} {regs : StackFrame} {ev : Event} {es : List Event}

/-! ## Windows

A window is eight megabytes, two directory entries, and its top is the top of the stack.
`createThread` looks for a free one among the odd entries, so the upper entry names the window. -/

/-- Eight megabytes. -/
def STACK_SIZE : Nat := 0x800000

/-- The addresses of the stack window of thread `t`. -/
def stackWindow (k : Kernel) (t : Nat) : Set Nat :=
  Set.Ico ((k.thr t).stacktop - STACK_SIZE) (k.thr t).stacktop

/-- The upper directory entry of the window. -/
def upperEntry (k : Kernel) (t : Nat) : Nat := stackEntry (k.thr t).stacktop

/-- The upper entry is read off the top of the stack. -/
theorem HasWindow.upperEntry (h : k.HasWindow p t i) : k.upperEntry t = i := by
  unfold Kernel.upperEntry
  rw [h.stacktop]
  exact stackEntry_eq h.odd h.high

/-- Every thread of every process has its window. -/
theorem Inv.hasWindow (h : k.Inv phy pool) (hp : p ∈ k.processTable) (ht : t ∈ (k.proc p).thread) :
    k.HasWindow p t (k.upperEntry t) := window_stackEntry h hp ht

/-- The window in numbers. -/
theorem HasWindow.bounds (h : k.HasWindow p t i) : i % 2 = 1 ∧ 736 < i ∧ i < 768 ∧
    (k.thr t).stacktop = (i + 1) * 2 ^ 22 := by
  have hlow := h.low
  have hhigh := h.high
  rw [va2pde_STACK_BOTTOM] at hlow
  exact ⟨h.odd, hlow, hhigh, h.stacktop⟩

/-- Faults that grow the stack are those in the window, above its guard page. -/
theorem HasWindow.growsStack_iff (h : k.HasWindow p t i) : growsStack (k.thr t) addr = true ↔
    (k.thr t).stacktop - STACK_SIZE + PAGE_SIZE ≤ addr ∧ addr < (k.thr t).stacktop := by
  obtain ⟨-, hlow, hhigh, htop⟩ := h.bounds
  unfold growsStack
  rw [decide_eq_true_iff]
  have hsub : sub32 (k.thr t).stacktop 0x800000 = (k.thr t).stacktop - STACK_SIZE := by
    apply sub32_of_le <;> omega
  have hsize : STACK_SIZE = 0x800000 := rfl
  have hpage : PAGE_SIZE = 0x1000 := rfl
  rw [hsub, add32_of_lt (by omega)]
  omega

/-- An address of the window is behind one of its two directory entries. -/
theorem HasWindow.va2pde (h : k.HasWindow p t i) (haddr : addr ∈ k.stackWindow t) :
    NorlitOS.va2pde addr = i ∨ NorlitOS.va2pde addr + 1 = i := by
  obtain ⟨hodd, hlow, hhigh, htop⟩ := h.bounds
  obtain ⟨hge, hlt⟩ := haddr
  unfold STACK_SIZE at hge
  unfold NorlitOS.va2pde
  omega

/-! ## Nothing but stacks

What keeps a process in this state: entries that do not change keep it, whatever else the kernel
does. -/

/-- What is mapped in the stack region of `p` are stacks of its threads. -/
structure StackOnly (k : Kernel) (p : Nat) : Prop where
  owned : ∀ a, va2pde STACK_BOTTOM ≤ a → a < USER_PDES → k.pde p a ≠ 0 →
    ∃ t ∈ (k.proc p).thread, a = k.upperEntry t ∨ a + 1 = k.upperEntry t
  normal : k.NormalWindows p

/-- The stacks of `p` have not changed. -/
structure SameStacks (k k' : Kernel) (p : Nat) : Prop where
  thread : (k'.proc p).thread = (k.proc p).thread
  stacktop : ∀ t ∈ (k.proc p).thread, (k'.thr t).stacktop = (k.thr t).stacktop
  pde : ∀ a < USER_PDES, k'.pde p a = 0 ↔ k.pde p a = 0
  pte : ∀ a < USER_PDES, ∀ b, k'.pte p a b = k.pte p a b

namespace SameStacks

theorem trans (h₁ : SameStacks k k₁ p) (h₂ : SameStacks k₁ k₂ p) : SameStacks k k₂ p where
  thread := h₂.thread.trans h₁.thread
  stacktop t ht := (h₂.stacktop t (h₁.thread ▸ ht)).trans (h₁.stacktop t ht)
  pde a ha := (h₂.pde a ha).trans (h₁.pde a ha)
  pte a ha b := (h₂.pte a ha b).trans (h₁.pte a ha b)

/-- Where the stacks are the same there is still nothing but stacks. -/
theorem stackOnly_of_layout (hS : SameStacks k k' p) (h : k.StackOnly p) (hL : k.Layout phy pool)
    (hp : p ∈ k.processTable) : k'.StackOnly p := by
  constructor
  · intro a hlow hhigh h0
    obtain ⟨t, ht, hor⟩ := h.owned a hlow hhigh fun hz => h0 ((hS.pde a hhigh).mpr hz)
    refine ⟨t, hS.thread ▸ ht, ?_⟩
    unfold upperEntry
    rw [hS.stacktop t ht]
    exact hor
  · intro t ht
    rw [hS.thread] at ht
    obtain ⟨i, hW⟩ := hL.window hp ht
    -- both tables of the window are in the user half
    have hhigh := hW.high
    rw [← hW.upperEntry] at hhigh
    unfold upperEntry at hhigh
    unfold NormalWindow
    rw [hS.stacktop t ht]
    intro a ha b hb
    rw [hS.pte a (by omega)]
    exact h.normal t ht a ha b hb

theorem stackOnly (hS : SameStacks k k' p) (h : k.StackOnly p) (hinv : k.Inv phy pool)
    (hp : p ∈ k.processTable) : k'.StackOnly p := hS.stackOnly_of_layout h hinv.layout hp

end SameStacks

/-- Entries are in use where tables are owned. -/
theorem pde_eq_zero_iff (hp : p ∈ k.processTable) (ha : a < USER_PDES) :
    k.pde p a = 0 ↔ k.frameOf (.pageTable p a) = none := by
  constructor
  · exact frameOf_pageTable_none
  · intro h
    by_contra h0
    rw [frameOf_pageTable hp ha h0] at h
    exact nomatch h

/-- If no translation has changed the stacks have not. -/
theorem SameMaps.sameStacks (h : SameMaps k k') : SameStacks k k' p where
  thread := h.thread p
  stacktop t _ := h.stacktop t
  pde a _ := by rw [h.pde]
  pte a _ b := h.pte p a b

/-- The scheduler copies an entry of the kernel half only. -/
theorem Scheduled.sameStacks (hS : Scheduled k flag k') (hinv : k.Inv phy pool)
    (hp : p ∈ k.processTable) : SameStacks k k' p where
  thread := by rw [hS.proc]
  stacktop t _ := by rw [hS.thr]
  pde a ha := by rw [hS.pde_user ha]
  pte a ha b := hS.pte_user hinv.layout hp ha b

/-- A new process has its own directory. -/
theorem Created.sameStacks (hC : Created k phy pool q k') (hp : p ∈ k.processTable) :
    SameStacks k k' p where
  thread := by rw [hC.other p fun h => hC.new (h ▸ hp)]
  stacktop t ht := by rw [hC.thr p hp t ht]
  pde a _ := by rw [hC.pde p hp]
  pte a ha b := hC.pte p hp a ha b

/-- The thread is one of another process. -/
theorem Spawned.sameStacks (hS : Spawned k k.frameOf phy pool q t k') (hinv : k.Inv phy pool)
    (hp : p ∈ k.processTable) (hpq : p ≠ q) : SameStacks k k' p := by
  obtain ⟨i, hW⟩ := hS.stack
  have hnew := hS.not_mem hinv.owned (fun _ => rfl) hp
  refine ⟨by rw [hS.other hpq], fun u hu => ?_, fun a _ => ?_, fun a ha b => ?_⟩
  · rw [hS.thr u fun hut => hnew (hut ▸ hu)]
  · rw [hW.pde p hp a fun h => hpq h.1]
  · exact hW.pte p hp a ha (fun h => hpq h.1) b

/-- A thread of another process takes its own window with it. -/
theorem Disposed.sameStacks (hD : Disposed k pool q t k') (hp : p ∈ k.processTable)
    (hp' : p ∈ k'.processTable) (hpq : p ≠ q) : SameStacks k k' p where
  thread := by rw [hD.other p hpq]
  stacktop u _ := by rw [hD.thr]
  pde a ha := by
    rw [pde_eq_zero_iff hp ha, pde_eq_zero_iff hp' ha, hD.frames, without_of_notMem]
    unfold threadOwners
    rintro (h | h)
    · exact nomatch h
    · split at h
      · exact hpq (Option.some.inj (mem_ownersOf.mp h))
      · rcases h with h | h <;> exact hpq (Option.some.inj (process_of_mem_tableOwners h))
  pte a ha b := hD.pte p hp hpq a ha b

/-- Another process takes its own memory with it. -/
theorem Exited.sameStacks (hE : Exited k pool q k') (hnd : k.processTable.Nodup)
    (hp' : p ∈ k'.processTable) : SameStacks k k' p := by
  have hmem := hp'
  rw [hE.processTable, hnd.mem_erase_iff] at hmem
  obtain ⟨hpq, hp⟩ := hmem
  refine ⟨by rw [hE.other p hpq], fun u _ => by rw [hE.thr], fun a ha => ?_,
    fun a ha b => hE.pte p hp hpq a ha b⟩
  rw [pde_eq_zero_iff hp ha, pde_eq_zero_iff hp' ha, hE.frames, without_of_notMem]
  unfold processOwners
  rintro (⟨u, -, h⟩ | h)
  · exact nomatch h
  · exact hpq (Option.some.inj (mem_ownersOf.mp h))

/-! ## A process comes

It comes with a directory whose user half is empty but for the stack of its first thread. -/

/-- A new process has one window in its directory. -/
theorem Created.stackOnly (hC : Created k phy pool p k') : k'.StackOnly p := by
  obtain ⟨t, hthread, -, i, hW, hpde, hnormal⟩ := hC.first
  constructor
  · intro a _ hhigh h0
    -- the user half has one table, that of the window
    have hai : a = i := by
      by_contra hne
      exact h0 (hpde a hhigh hne)
    refine ⟨t, ?_, Or.inl (hai.trans hW.upperEntry.symm)⟩
    rw [hthread]
    exact List.mem_singleton_self t
  · intro u hu a ha b hb
    change a = k'.upperEntry u ∨ a = k'.upperEntry u - 1 at ha
    rw [hthread] at hu
    rw [List.mem_singleton.mp hu, hW.upperEntry] at ha
    cases ha with
    | inl ha => exact ha ▸ hnormal b hb
    | inr ha =>
      have hodd := hW.odd
      have hhigh := hW.high
      rw [pte_of_no_pde (hpde a (by omega) (by omega))]
      rfl

/-- Init starts with its stack and nothing else in the region. -/
theorem initProc_stackOnly (hB : k.Boot kernelPDE) (hok : k.initProc kernelPDE ip = .ok k₁) :
    k₁.StackOnly k₁.currentProc := by
  obtain ⟨k₂, k₃, p, hnil, hC, rfl⟩ := (initProc_created False hB).elim hok
  have hring : k₃.processTable = [p] := by
    have hperm := hC.ring
    rw [hnil] at hperm
    exact List.perm_singleton.mp hperm
  have hM : SameMaps k₃ (k₃.turnedOver p) := by
    have hflag : SameMaps k₃ (k₃.modProc p fun P => { P with pid := 0, flag := 2 }) :=
      sameMaps_modProc (fun _ => rfl) (fun _ => rfl) (fun _ => rfl) (fun _ => rfl) fun _ => rfl
    exact hflag.trans (SameMaps.of_eq rfl rfl hring.symm rfl fun _ => rfl)
  have hp : p ∈ k₃.processTable := hring ▸ List.mem_singleton_self p
  exact hM.sameStacks.stackOnly_of_layout hC.stackOnly hC.layout hp

/-! ## A thread comes

`createThread` takes a window of which the upper entry is empty. The lower one is empty too,
because nothing but stacks is there and windows do not overlap. -/

/-- Neither entry of a new window was in use. -/
theorem NewWindow.pte_lower (hW : NewWindow k p t i k') (h : k.StackOnly p) (hinv : k.Inv phy pool)
    (hp : p ∈ k.processTable) (b : Nat) : k'.pte p (i - 1) b = 0 := by
  obtain ⟨hodd, hlow, hhigh, -⟩ := hW.window.bounds
  have husers : USER_PDES = 768 := rfl
  have hbottom : NorlitOS.va2pde STACK_BOTTOM = 736 := va2pde_STACK_BOTTOM
  rw [hW.pte p hp (i - 1) (by omega) (by omega)]
  apply pte_of_no_pde
  by_contra h0
  obtain ⟨u, hu, hor⟩ := h.owned (i - 1) (by omega) (by omega) h0
  have hwin := hinv.hasWindow hp hu
  have huodd := hwin.odd
  -- the owner would have the new window
  have hui : k.upperEntry u = i := by omega
  exact hwin.used (hui ▸ hW.empty)

/-- A new thread brings a window of its own, and the others stay. -/
theorem Spawned.stackOnly (hS : Spawned k k.frameOf phy pool p t k') (h : k.StackOnly p)
    (hinv : k.Inv phy pool) (hp : p ∈ k.processTable) : k'.StackOnly p := by
  obtain ⟨i, hW⟩ := hS.stack
  obtain ⟨l, hl, hproc⟩ := hS.proc
  have hnew := hS.not_mem hinv.owned (fun _ => rfl) hp
  have hmem : ∀ u, u ∈ (k'.proc p).thread ↔ u = t ∨ u ∈ (k.proc p).thread := by
    intro u
    rw [hproc, modProc_proc_self]
    exact hl.mem_iff.trans List.mem_cons
  have hupper : ∀ u ∈ (k.proc p).thread, k'.upperEntry u = k.upperEntry u := by
    intro u hu
    unfold upperEntry
    rw [hS.thr u fun hut => hnew (hut ▸ hu)]
  constructor
  · intro a hlow hhigh h0
    -- the new table is the stack of the new thread
    by_cases hai : a = i
    · exact ⟨t, (hmem t).mpr (Or.inl rfl), Or.inl (hai.trans hW.window.upperEntry.symm)⟩
    · rw [hW.pde p hp a fun hc => hai hc.2] at h0
      obtain ⟨u, hu, hor⟩ := h.owned a hlow hhigh h0
      exact ⟨u, (hmem u).mpr (Or.inr hu), by rwa [hupper u hu]⟩
  · intro u hu a ha b hb
    change a = k'.upperEntry u ∨ a = k'.upperEntry u - 1 at ha
    cases (hmem u).mp hu with
    | inl hut =>
      rw [hut, hW.window.upperEntry] at ha
      cases ha with
      | inl ha => exact ha ▸ hW.normal b hb
      | inr ha =>
        rw [ha, hW.pte_lower h hinv hp]
        rfl
    | inr hu =>
      rw [hupper u hu] at ha
      have hwin := hinv.hasWindow hp hu
      have hhigh := hwin.high
      have hodd := hwin.odd
      have hiodd := hW.window.odd
      -- the window of the new thread was empty, so it is no one else's
      have hne : a ≠ i := by
        rintro rfl
        cases ha with
        | inl ha => exact hwin.used (ha ▸ hW.empty)
        | inr ha => omega
      rw [hW.pte p hp a (by omega) fun hc => hne hc.2]
      exact h.normal u hu a ha b hb

/-! ## A thread goes

Both entries of its window are cleared, and the tables and the pages behind them are given back.
-/

/-- The tables of both entries of a window are among what is given back. -/
theorem mem_windowOwners_table (h : a = i ∨ a = i - 1) : Owner.pageTable p a ∈ windowOwners p i := by
  cases h with
  | inl h => exact Or.inl (Or.inr (h ▸ rfl))
  | inr h => exact Or.inr (Or.inr (h ▸ rfl))

theorem mem_windowOwners_pte {b : Nat} (h : a = i ∨ a = i - 1) (hb : b < 1024) :
    Owner.pte p a b ∈ windowOwners p i := by
  cases h with
  | inl h => exact Or.inl (Or.inl ⟨b, hb, h ▸ rfl⟩)
  | inr h => exact Or.inr (Or.inl ⟨b, hb, h ▸ rfl⟩)

/-- What is behind the window of a thread goes with it. -/
theorem mem_threadOwners {o : Owner} (h : o ∈ windowOwners p (k.upperEntry t)) :
    o ∈ k.threadOwners p t := by
  refine Or.inr ?_
  split
  · rcases h with h | h <;> exact mem_ownersOf.mpr (process_of_mem_tableOwners h)
  · exact h

/-- The entries of the window are empty afterwards. -/
theorem Disposed.pde_upper (hD : Disposed k pool p t k') (hinv : k.Inv phy pool)
    (hp : p ∈ k.processTable) (ht : t ∈ (k.proc p).thread) (hp' : p ∈ k'.processTable)
    (ha : a = k.upperEntry t ∨ a = k.upperEntry t - 1) : k'.pde p a = 0 := by
  have hhigh := (hinv.hasWindow hp ht).high
  rw [pde_eq_zero_iff hp' (by omega), hD.frames]
  exact without_of_mem (mem_threadOwners (mem_windowOwners_table ha))

/-- The stacks of the other threads are as they were, so there is still nothing but stacks. -/
theorem Disposed.stackOnly (hD : Disposed k pool p t k') (h : k.StackOnly p) (hinv : k.Inv phy pool)
    (hinv' : k'.Inv phy pool) (hp : p ∈ k.processTable) (ht : t ∈ (k.proc p).thread)
    (hp' : p ∈ k'.processTable) : k'.StackOnly p := by
  have hnd := (hinv.procOk hp).nodup
  refine ⟨fun a hlow hhigh h0 => ?_, hD.normalWindows hp' hinv'.layout hnd h.normal⟩
  have h0' : k.pde p a ≠ 0 := by
    intro hz
    apply h0
    rw [pde_eq_zero_iff hp' hhigh, hD.frames]
    have hnone := frameOf_pageTable_none hz
    by_cases hm : Owner.pageTable p a ∈ k.threadOwners p t
    · exact without_of_mem hm
    · rw [without_of_notMem hm, hnone]
  obtain ⟨u, hu, hor⟩ := h.owned a hlow hhigh h0'
  -- the tables of `t` are gone
  have hut : u ≠ t := by
    rintro rfl
    exact h0 (hD.pde_upper hinv hp ht hp' (by omega))
  refine ⟨u, ?_, ?_⟩
  · rw [hD.thread, hnd.mem_erase_iff]
    exact ⟨hut, hu⟩
  · unfold upperEntry
    rw [hD.thr]
    exact hor

/-- The window of `t` has been cleared, and its frames have been given back. -/
structure Reclaimed (k : Kernel) (p t : Nat) (k' : Kernel) : Prop where
  cleared : p ∈ k'.processTable → k'.pde p (k.upperEntry t) = 0 ∧ k'.pde p (k.upperEntry t - 1) = 0
  tables : ∀ a, a = k.upperEntry t ∨ a = k.upperEntry t - 1 → k.pde p a ≠ 0 →
    page (frameAt (k.pde p a)) ⊆ k'.heap.freeSet
  pages : ∀ a, a = k.upperEntry t ∨ a = k.upperEntry t - 1 → ∀ b < 1024, k.pte p a b ≠ 0 →
    page (frameAt (k.pte p a b)) ⊆ k'.heap.freeSet

/-- The window is clear, and its frames are free. -/
theorem Disposed.reclaimed (hD : Disposed k pool p t k') (h : k.StackOnly p) (hinv : k.Inv phy pool)
    (hinv' : k'.Inv phy pool) (hp : p ∈ k.processTable) (ht : t ∈ (k.proc p).thread) :
    Reclaimed k p t k' := by
  have hhigh := (hinv.hasWindow hp ht).high
  have hacc := hinv'.owned.accounts
  rw [hD.frames] at hacc
  have hfree := hinv.owned.accounts.free_of_without hacc
  have hback : ∀ {o f}, o ∈ windowOwners p (k.upperEntry t) → k.frameOf o = some f →
      page f ⊆ k'.heap.freeSet := by
    intro o f ho hf x hx
    rw [hfree]
    exact Or.inr ⟨o, mem_threadOwners ho, f, hf, hx⟩
  refine ⟨fun hp' => ⟨hD.pde_upper hinv hp ht hp' (Or.inl rfl), hD.pde_upper hinv hp ht hp' (Or.inr rfl)⟩,
    fun a ha h0 => ?_, fun a ha b hb h0 => ?_⟩
  · exact hback (mem_windowOwners_table ha) (frameOf_pageTable hp (by omega) h0)
  · apply hback (mem_windowOwners_pte ha hb)
    rw [frameOf_pte hp (by omega) hb]
    exact entryFrame_of h0 (h.normal t ht a ha b hb)

/-! ## A stack grows

A fault in the window of the running thread, above its guard page, gets a page. The entry that is
written was empty and is in this window. -/

/-- The page at `addr` of the running process has got a fresh frame, and no other translation has
changed. -/
structure StackGrown (k : Kernel) (addr : Nat) (k' : Kernel) : Prop where
  window : addr ∈ k.stackWindow k.currentThread
  noGuard : (k.thr k.currentThread).stacktop - STACK_SIZE + PAGE_SIZE ≤ addr
  absent : k.pte k.currentProc (va2pde addr) (va2pte addr) = 0
  fresh : ∃ f, page f ⊆ k.heap.freeSet ∧ frameAt (va2pa f ||| 0b11111) = f ∧
    ∀ q ∈ k.processTable, ∀ a < USER_PDES, ∀ b, k'.pte q a b =
      if q = k.currentProc ∧ a = va2pde addr ∧ b = va2pte addr then va2pa f ||| 0b11111
      else k.pte q a b
  kernelHalf : ∀ q ∈ k.processTable, ∀ a, USER_PDES ≤ a → k'.pde q a = k.pde q a

/-- What a growing stack leaves alone, for all processes. -/
structure StackGrownQuietly (k : Kernel) (addr : Nat) (k' : Kernel) : Prop
    extends StackGrown k addr k' where
  proc : k'.proc = k.proc
  thr : k'.thr = k.thr
  pde : ∀ q ∈ k.processTable, ∀ a, ¬ (q = k.currentProc ∧ a = va2pde addr) → k'.pde q a = k.pde q a
  normal : isPhy (k'.pte k.currentProc (va2pde addr) (va2pte addr)) = false

/-- What `growStack` does is what a growing stack should do. -/
theorem growStack_grown (h : k.Inv phy pool) (hg : growsStack (k.thr k.currentThread) addr = true)
    (hz : k.pte k.currentProc (va2pde addr) (va2pte addr) = 0) :
    Yields (k.growStack addr) (StackGrownQuietly k addr) := by
  have hrun := h.threads.running
  have hwin := h.hasWindow hrun h.current_mem
  obtain ⟨hguard, htop⟩ := hwin.growsStack_iff.mp hg
  have hmem : addr ∈ k.stackWindow k.currentThread := ⟨(Nat.le_add_right _ _).trans hguard, htop⟩
  have hi := va2pde_user (h.lt_of_growsStack hg)
  -- the table is made first if there is none; that step changes no entry of a page
  refine (growStack_replaced h hg hz).mono fun k' hk' => ?_
  obtain ⟨k₁, f, h₁, hT, hr⟩ := hk'
  have hcur : k₁.currentProc = k.currentProc := hT.currentProc
  have hring : ∀ q ∈ k.processTable, q ∈ k₁.processTable := fun q hq => hT.processTable.symm ▸ hq
  have hpde : ∀ q ∈ k.processTable, ∀ a, ¬ (q = k.currentProc ∧ a = va2pde addr) →
      k'.pde q a = k.pde q a :=
    fun q hq a hqa => (hr.pde q (hring q hq) a).trans (hT.pde q hq a hqa)
  have hpte : ∀ q ∈ k.processTable, ∀ a < USER_PDES, ∀ b, k'.pte q a b =
      if q = k.currentProc ∧ a = va2pde addr ∧ b = va2pte addr then va2pa f ||| 0b11111
      else k.pte q a b := by
    intro q hq a ha b
    rw [hr.pte q (hring q hq) a ha b, hcur, hT.pte q hq a ha b]
  refine ⟨⟨hmem, hguard, hz, ⟨f, hr.free.trans hT.freeSet, hr.physical, hpte⟩, fun q hq a ha => ?_⟩,
    hr.proc.trans hT.proc, hr.thr.trans hT.thr, hpde, ?_⟩
  · exact hpde q hq a fun hc => absurd (hc.2 ▸ hi) (not_lt.mpr ha)
  · have hown : Function.update k₁.frameOf (.pte k₁.currentProc (va2pde addr) (va2pte addr)) (some f)
        (.pte k₁.currentProc (va2pde addr) (va2pte addr)) = some f := Function.update_self _ _ _
    rw [hpte k.currentProc hrun _ hi, if_pos ⟨rfl, rfl, rfl⟩]
    exact isPhy_or (hr.owned.physical hown).1

namespace StackGrownQuietly

variable (hG : StackGrownQuietly k addr k')

include hG

/-- Another process grows a stack. -/
theorem sameStacks (hp : p ∈ k.processTable) (hne : p ≠ k.currentProc) : SameStacks k k' p := by
  obtain ⟨f, -, -, hpte⟩ := hG.fresh
  refine ⟨by rw [hG.proc], fun t _ => by rw [hG.thr], fun a _ => ?_, fun a ha b => ?_⟩
  · rw [hG.pde p hp a fun hc => hne hc.1]
  · rw [hpte p hp a ha b, if_neg fun hc => hne hc.1]

/-- The new page belongs to the stack of the thread that runs. -/
theorem stackOnly (h : k.StackOnly k.currentProc) (hinv : k.Inv phy pool) :
    k'.StackOnly k.currentProc := by
  have hrun := hinv.threads.running
  have hwin := hinv.hasWindow hrun hinv.current_mem
  obtain ⟨f, -, -, hpte⟩ := hG.fresh
  have hupper : ∀ t, k'.upperEntry t = k.upperEntry t := fun t => by
    unfold upperEntry
    rw [hG.thr]
  constructor
  · intro a hlow hhigh h0
    rw [hG.proc]
    simp only [hupper]
    -- the table behind the fault, or one from before
    by_cases ha : a = va2pde addr
    · refine ⟨k.currentThread, hinv.current_mem, ?_⟩
      rw [ha]
      exact hwin.va2pde hG.window
    · rw [hG.pde _ hrun a fun hc => ha hc.2] at h0
      exact h.owned a hlow hhigh h0
  · intro t ht a ha b hb
    change a = k'.upperEntry t ∨ a = k'.upperEntry t - 1 at ha
    rw [hG.proc] at ht
    rw [hupper] at ha
    have hhigh := (hinv.hasWindow hrun ht).high
    by_cases hab : a = va2pde addr ∧ b = va2pte addr
    · rw [hab.1, hab.2]
      exact hG.normal
    · rw [hpte _ hrun a (by omega) b, if_neg fun hc => hab hc.2]
      exact h.normal t ht a ha b hb

end StackGrownQuietly

/-! ## Sixteen windows

The region holds sixteen windows, so a process with nothing but stacks there can have sixteen
threads, and `createThread` fails with the sixteenth and not before. -/

/-- The upper entries of the windows there are. -/
def windows : Finset Nat := (Finset.Ico 737 768).filter fun i => i % 2 = 1

theorem mem_windows : i ∈ windows ↔ i % 2 = 1 ∧ 736 < i ∧ i < 768 := by
  unfold windows
  rw [Finset.mem_filter, Finset.mem_Ico]
  omega

theorem card_windows : windows.card = 16 := by decide

/-- The windows of the threads of `p`. -/
def usedWindows (k : Kernel) (p : Nat) : Finset Nat :=
  ((k.proc p).thread.map k.upperEntry).toFinset

section Count

variable (hinv : k.Inv phy pool) (hp : p ∈ k.processTable)

include hinv hp

/-- The windows of the threads are among them. -/
theorem usedWindows_subset : k.usedWindows p ⊆ windows := by
  intro i hi
  obtain ⟨t, ht, rfl⟩ := List.mem_map.mp (List.mem_toFinset.mp hi)
  obtain ⟨hodd, hlow, hhigh, -⟩ := (hinv.hasWindow hp ht).bounds
  exact mem_windows.mpr ⟨hodd, hlow, hhigh⟩

/-- Threads have different windows. -/
theorem card_usedWindows : (k.usedWindows p).card = (k.proc p).thread.length := by
  have hinj : ((k.proc p).thread.map k.upperEntry).Nodup := by
    refine List.Nodup.map_on (fun t ht u hu heq => ?_) (hinv.procOk hp).nodup
    refine hinv.layout.windowsApart hp ht hu ?_
    rw [(hinv.hasWindow hp ht).stacktop, (hinv.hasWindow hp hu).stacktop, heq]
  unfold usedWindows
  rw [List.toFinset_card_of_nodup hinj, List.length_map]

/-- **All windows are in use** exactly when sixteen threads live. -/
theorem fullWindows_iff (h : k.StackOnly p) : k.FullWindows p ↔ (k.proc p).thread.length = 16 := by
  have hsub := usedWindows_subset hinv hp
  have hcard := card_usedWindows hinv hp
  -- an entry is in use exactly if it is the upper entry of a thread: a lower one is even
  have hused : ∀ i ∈ windows, i ∈ k.usedWindows p ↔ k.pde p i ≠ 0 := by
    intro i hi
    obtain ⟨hodd, hlow, hhigh⟩ := mem_windows.mp hi
    unfold usedWindows
    rw [List.mem_toFinset, List.mem_map]
    constructor
    · rintro ⟨t, ht, rfl⟩
      exact (hinv.hasWindow hp ht).used
    · intro h0
      have hbottom : NorlitOS.va2pde STACK_BOTTOM = 736 := va2pde_STACK_BOTTOM
      obtain ⟨t, ht, hor⟩ := h.owned i (by omega) hhigh h0
      have htodd := (hinv.hasWindow hp ht).odd
      exact ⟨t, ht, by omega⟩
  constructor
  · intro hfull
    have hall : windows ⊆ k.usedWindows p := fun i hi => by
      obtain ⟨hodd, hlow, hhigh⟩ := mem_windows.mp hi
      exact (hused i hi).mpr (hfull i hodd hlow hhigh)
    rw [← hcard, ← card_windows, Finset.Subset.antisymm hsub hall]
  · intro hlen i hodd hlow hhigh
    have heq : k.usedWindows p = windows :=
      Finset.eq_of_subset_of_card_le hsub (by rw [hcard, hlen, card_windows])
    have hi : i ∈ windows := mem_windows.mpr ⟨hodd, hlow, hhigh⟩
    exact (hused i hi).mp (heq ▸ hi)

/-- `createThread` fails, and then changes nothing, exactly when sixteen threads live. -/
theorem createThread_null_iff (h : k.StackOnly p) {r : Nat × Kernel} (hok : k.createThread p ip = .ok r) :
    (r.1 = 0 ↔ (k.proc p).thread.length = 16) ∧ (r.1 = 0 → r.2 = k) := by
  have hN : ∀ i j, k.pde p i = 0 → k.frameOf (.pte p i j) = none := by
    intro i j h0
    simp only [frameOf, pte_of_no_pde h0, entryFrame_zero, ite_self]
  rw [← fullWindows_iff hinv hp h]
  rcases (createThread_spec hinv.layout hinv.owned (Agree.refl k) hp hN fun _ => rfl).elim hok with
    ⟨rfl, hfull⟩ | hS
  · exact ⟨iff_of_true rfl hfull, fun _ => rfl⟩
  · obtain ⟨i, hW⟩ := hS.stack
    obtain ⟨hodd, hlow, hhigh, -⟩ := hW.window.bounds
    have hnot : ¬ k.FullWindows p := fun hfull => hfull i hodd hlow hhigh hW.empty
    have hne : r.1 ≠ 0 := by
      intro h0
      have hin := hinv.owned.inside (hinv.owned.accounts.free_subset (hS.free (self_mem_page r.1)))
      rw [h0] at hin
      exact absurd hin.1 (by decide)
    exact ⟨iff_of_false hne hnot, fun h0 => absurd h0 hne⟩

end Count

/-! ## Runs

The events here create and dispose threads and processes and let stacks grow. Mappings into the
stack region are left out: they would put something there that is no stack. -/

/-- Threads are created and disposed, and stacks grow. -/
def StackEvent : Event → Prop
  | .pageFault _ _ => True
  | .createProcess ip privilege priority => Lifecycle (.createProcess ip privilege priority)
  | .disposeProcess p => Lifecycle (.disposeProcess p)
  | .systemCall regs => Lifecycle (.systemCall regs)
  | .interrupt regs p => Lifecycle (.interrupt regs p)
  | .tick regs => Lifecycle (.tick regs)
  | .exception regs => Lifecycle (.exception regs)

/-- Such an entry, which `p` survives. It is careful with the windows of the other processes. -/
def EntersStacks (p : Nat) (k : Kernel) (ev : Event) (k' : Kernel) : Prop :=
  StackEvent ev ∧ k.Enters ev k' ∧ (k.NormalWindows p → k.Careful ev) ∧ p ∈ k'.processTable

section Step

variable (hinv : k.Inv phy pool) (hp : p ∈ k.processTable) (h : k.StackOnly p)

include hinv hp h

/-- The system call either fails and changes nothing, or a thread of the running process comes. -/
theorem sysCreateThread_stackOnly {edx : Nat} :
    Yields (k.sysCreateThread edx) fun k' => k'.StackOnly p := by
  refine (sysCreateThread_spec hinv).mono fun k' hk' => ?_
  obtain ⟨-, k₁, v, rfl, hor⟩ := hk'
  rcases hor with rfl | ⟨t, hS⟩
  · exact (sameButRegs_setAx v).sameMaps.sameStacks.stackOnly h hinv hp
  · have hinv₁ := Spawned.inv hinv hS
    have hp₁ : p ∈ k₁.processTable := hS.processTable.symm ▸ hp
    refine (sameButRegs_setAx v).sameMaps.sameStacks.stackOnly ?_ hinv₁ hp₁
    by_cases hpc : p = k.currentProc
    · subst hpc
      exact hS.stackOnly h hinv hp
    · exact (hS.sameStacks hinv hp hpc).stackOnly h hinv hp

/-- A thread goes, perhaps with its process, perhaps one of `p`. -/
theorem sysDisposeThread_stackOnly {edx : Nat} (hq : q ∈ k.processTable)
    (ht : k.disposeTarget edx ∈ (k.proc q).thread) (hw : k.NormalWindow q (k.disposeTarget edx)) :
    Yields (k.sysDisposeThread edx) fun k' => p ∈ k'.processTable → k'.StackOnly p := by
  refine (sysDisposeThread_spec hinv hq ht hw).mono fun k' hk' hp' => ?_
  obtain ⟨hinv', hD⟩ := hk'
  by_cases hpq : p = q
  · subst hpq
    exact hD.stackOnly h hinv hinv' hp ht hp'
  · exact (hD.sameStacks hp hp' hpq).stackOnly h hinv hp

theorem exceptionHandler_stackOnly (hw : k.NormalWindows k.currentProc) :
    Yields k.exceptionHandler fun k' => p ∈ k'.processTable → k'.StackOnly p := by
  refine (exceptionHandler_spec hinv hw).mono fun k' hk' hp' => ?_
  exact (hk'.2.sameStacks hinv.threads.nodup hp').stackOnly h hinv hp

/-- The priority changes, and the scheduler is called. -/
theorem sysNice_stackOnly : Yields k.sysNice fun k' => k'.StackOnly p := by
  refine (sysNice_spec hinv).mono fun k' hk' => ?_
  obtain ⟨-, k₁, hS, rfl⟩ := hk'
  have hflag : SameMaps k₁ (k₁.modProc k.currentProc fun P => { P with flag := 0 }) :=
    sameMaps_modProc (fun _ => rfl) (fun _ => rfl) (fun _ => rfl) (fun _ => rfl) fun _ => rfl
  exact ((hS.sameStacks hinv hp).trans hflag.sameStacks).stackOnly h hinv hp

/-- The stack grows, or the running process goes. -/
theorem pageFaultHandler_stackOnly
    (hz : k.GrowsStack addr → k.pte k.currentProc (va2pde addr) (va2pte addr) = 0)
    (hw : ¬ k.GrowsStack addr → k.NormalWindows k.currentProc) :
    Yields (k.pageFaultHandler addr) fun k' => p ∈ k'.processTable → k'.StackOnly p := by
  show Yields (if growsStack (k.thr k.currentThread) addr then _ else _) _
  by_cases hg : k.GrowsStack addr
  · rw [if_pos (show growsStack (k.thr k.currentThread) addr = true from hg)]
    refine (growStack_grown hinv hg (hz hg)).mono fun k' hG _ => ?_
    by_cases hpc : p = k.currentProc
    · subst hpc
      exact hG.stackOnly h hinv
    · exact (hG.sameStacks hp hpc).stackOnly h hinv hp
  · rw [if_neg (show ¬ growsStack (k.thr k.currentThread) addr = true from hg)]
    exact exceptionHandler_stackOnly hinv hp h (hw hg)

/-- **One entry.** -/
theorem step_stackOnly (hs : EntersStacks p k ev k') : k'.StackOnly p := by
  obtain ⟨hev, ⟨hadm, hok⟩, hcare, hp'⟩ := hs
  have hcare := hcare h.normal
  have hsave : ∀ regs, (k.save regs).StackOnly p := fun regs =>
    (sameButRegs_save regs).sameMaps.sameStacks.stackOnly h hinv hp
  cases ev with
  | createProcess ip privilege priority =>
    have hC : Yields (k.step (.createProcess ip privilege priority)) fun k' => k'.StackOnly p :=
      (createProcess_spec hinv).bind fun r hr => (hr.2.sameStacks hp).stackOnly h hinv hp
    exact hC.elim hok
  | disposeProcess q =>
    -- the other processes keep their stacks
    have hE := ((disposeProcess_spec hinv hadm.mem hcare).elim hok).2
    exact (hE.sameStacks hinv.threads.nodup hp').stackOnly h hinv hp
  | systemCall regs =>
    have hax : regs.ax = 2 ∨ regs.ax = 3 ∨ 6 ≤ regs.ax := hev
    have hcall : Yields ((k.save regs).systemCall regs.ax regs.dx regs.cx regs.bx)
        fun k' => p ∈ k'.processTable → k'.StackOnly p := by
      match hc : regs.ax with
      | 2 => exact (sysCreateThread_stackOnly hinv.save hp (hsave regs)).mono fun _ hk' _ => hk'
      | 3 =>
        obtain ⟨q, hq, ht, -⟩ := hadm.1 hc
        have hwin := hcare.2.1 hc
        rw [(hinv.procOk hq).back _ ht] at hwin
        exact sysDisposeThread_stackOnly hinv.save hp (hsave regs) hq ht (normalWindow_save.mpr hwin)
      | 6 => exact (sysNice_stackOnly hinv.save hp (hsave regs)).mono fun _ hk' _ => hk'
      | n + 7 =>
        exact exceptionHandler_stackOnly hinv.save hp (hsave regs)
          (normalWindows_save.mpr (hcare.2.2 (by omega)))
      | 0 | 1 | 4 | 5 => omega
    exact hcall.elim hok hp'
  | interrupt regs q => exact hev.elim
  | tick regs =>
    obtain ⟨-, k₁, hT, hS⟩ := (timerTick_spec hinv.save).elim hok
    have hinv₁ := hT.inv (Inv.save hinv)
    have hp₁ : p ∈ k₁.processTable := hT.processTable.symm ▸ hp
    -- neither the tick nor `schedule` writes an entry
    have hall := (hT.sameMaps.sameStacks (p := p)).trans (hS.sameStacks hinv₁ hp₁)
    exact hall.stackOnly (hsave regs) hinv.save hp
  | pageFault regs cr2 =>
    refine (pageFaultHandler_stackOnly hinv.save hp (hsave regs) (fun hg => ?_) fun hg => ?_).elim
      hok hp'
    · unfold GrowsStack at hg
      rw [growsStack_save] at hg
      exact (save_pte _ _ _).trans (hadm.1 hg)
    · unfold GrowsStack at hg
      rw [growsStack_save] at hg
      exact normalWindows_save.mpr (hcare hg)
  | exception regs =>
    exact (exceptionHandler_stackOnly hinv.save hp (hsave regs) (normalWindows_save.mpr hcare)).elim
      hok hp'

end Step

/-- What is asked of the stack windows of `p`. -/
structure StackWindows (k : Kernel) (p : Nat) : Prop where
  inside : ∀ t ∈ (k.proc p).thread, STACK_BOTTOM + STACK_SIZE ≤ (k.thr t).stacktop ∧
    (k.thr t).stacktop ≤ STACK_TOP
  apart : ∀ t ∈ (k.proc p).thread, ∀ u ∈ (k.proc p).thread, t ≠ u →
    Disjoint (k.stackWindow t) (k.stackWindow u)
  grows : ∀ regs cr2 k', p = k.currentProc → k.GrowsStack cr2 →
    k.Enters (.pageFault regs cr2) k' → StackGrown k cr2 k'
  disposes : ∀ regs k', regs.ax = 3 → k.disposeTarget regs.dx ∈ (k.proc p).thread →
    k.Enters (.systemCall regs) k' → Reclaimed k p (k.disposeTarget regs.dx) k'
  creates : ∀ ip t k', k.createThread p ip = .ok (t, k') →
    (t = 0 ↔ (k.proc p).thread.length = 16) ∧ (t = 0 → k' = k)

/-- Saved registers do not matter to a window. -/
theorem stackWindow_save (t : Nat) : (k.save regs).stackWindow t = k.stackWindow t := by
  unfold stackWindow
  rw [save_stacktop]

/-- Saving the registers leaves the windows alone. -/
theorem upperEntry_save (t : Nat) : (k.save regs).upperEntry t = k.upperEntry t := by
  unfold upperEntry
  rw [save_stacktop]

/-- What grows after the entry has grown since before it. -/
theorem StackGrown.of_save (hG : StackGrown (k.save regs) addr k') : StackGrown k addr k' where
  window := by
    have hwindow := hG.window
    rw [stackWindow_save] at hwindow
    exact hwindow
  noGuard := by
    have hguard := hG.noGuard
    rw [save_stacktop] at hguard
    exact hguard
  absent := (save_pte _ _ _).symm.trans hG.absent
  fresh := by
    obtain ⟨f, hfree, hf, hpte⟩ := hG.fresh
    refine ⟨f, hfree, hf, fun q hq a ha b => ?_⟩
    have hsame := hpte q hq a ha b
    rw [save_pte] at hsame
    exact hsame
  kernelHalf := hG.kernelHalf

/-- So it is with what is given back. -/
theorem Reclaimed.of_save (hR : Reclaimed (k.save regs) p t k') : Reclaimed k p t k' where
  cleared hp' := by
    have hcleared := hR.cleared hp'
    rw [upperEntry_save] at hcleared
    exact hcleared
  tables a ha := by
    have htables := hR.tables a
    rw [upperEntry_save] at htables
    exact htables ha
  pages a ha b hb := by
    have hpages := hR.pages a
    rw [upperEntry_save] at hpages
    have hpage := hpages ha b hb
    rw [save_pte] at hpage
    exact hpage

/-- Where there is nothing but stacks all that is asked of the windows holds. -/
theorem StackOnly.stackWindows (h : k.StackOnly p) (hinv : k.Inv phy pool) (hp : p ∈ k.processTable) :
    k.StackWindows p := by
  refine ⟨fun t ht => ?_, fun t ht u hu htu => ?_, fun regs cr2 k' hpc hg hs => ?_,
    fun regs k' hax ht hs => ?_, fun ip t k' hok => createThread_null_iff hinv hp h hok⟩
  · obtain ⟨hodd, hlow, hhigh, htop⟩ := (hinv.hasWindow hp ht).bounds
    unfold STACK_BOTTOM STACK_SIZE STACK_TOP PAGE_OFFSET
    omega
  · obtain ⟨hodd, hlow, hhigh, htop⟩ := (hinv.hasWindow hp ht).bounds
    obtain ⟨hodd', hlow', hhigh', htop'⟩ := (hinv.hasWindow hp hu).bounds
    -- the tops are different multiples of 8 MB
    have hne : (k.thr t).stacktop ≠ (k.thr u).stacktop :=
      fun heq => htu (hinv.layout.windowsApart hp ht hu heq)
    rw [Set.disjoint_left]
    intro x hx hx'
    obtain ⟨hge, hlt⟩ := hx
    obtain ⟨hge', hlt'⟩ := hx'
    unfold STACK_SIZE at hge hge'
    omega
  · obtain ⟨hadm, hok⟩ := hs
    have hg' : growsStack ((k.save regs).thr (k.save regs).currentThread) cr2 = true := by
      rw [growsStack_save]
      exact hg
    change (if growsStack ((k.save regs).thr (k.save regs).currentThread) cr2 then
      (k.save regs).growStack cr2 else (k.save regs).exceptionHandler) = .ok k' at hok
    rw [if_pos hg'] at hok
    have hz : (k.save regs).pte k.currentProc (va2pde cr2) (va2pte cr2) = 0 :=
      (save_pte _ _ _).trans (hadm.1 hg)
    exact ((growStack_grown hinv.save hg' hz).elim hok).toStackGrown.of_save
  · obtain ⟨hadm, hok⟩ := hs
    change (k.save regs).systemCall regs.ax regs.dx regs.cx regs.bx = .ok k' at hok
    rw [hax] at hok
    have hwin : (k.save regs).NormalWindow p (k.disposeTarget regs.dx) :=
      normalWindow_save.mpr (h.normal _ ht)
    obtain ⟨hinv', hD⟩ := (disposeThread_spec hinv.save hp ht hwin).elim hok
    have hsave : (k.save regs).StackOnly p :=
      (sameButRegs_save regs).sameMaps.sameStacks.stackOnly h hinv hp
    exact (hD.reclaimed hsave hinv.save hinv' hp ht).of_save

/-- **Stack windows.** Start from any state that careful entries reach and any process whose stack
region is used only by stacks: in every state that creations, disposals and page faults lead to,
live threads have windows of their own inside the region, a growing stack gets one page, a
disposed thread gives all back, and a thread cannot be created exactly when sixteen live. -/
theorem run_stackWindows {es' : List Event} (hB : k.Boot kernelPDE)
    (hinit : k.initProc kernelPDE ip = .ok k₁) (hreach : Run EntersCarefully k₁ es k₂)
    (hp : p ∈ k₂.processTable) (hstacks : k₂.StackOnly p) (hrun : Run (EntersStacks p) k₂ es' k') :
    k'.StackWindows p := by
  obtain ⟨pool, -, h₂⟩ := hB.run_inv hinit hreach
  have hI : (∃ pool, k'.Inv True pool) ∧ p ∈ k'.processTable ∧ k'.StackOnly p := by
    refine Run.invariant (I := fun k' => (∃ pool, k'.Inv True pool) ∧ p ∈ k'.processTable ∧
      k'.StackOnly p) ?_ hrun ⟨⟨pool, h₂⟩, hp, hstacks⟩
    intro s e t hst hs
    obtain ⟨⟨pool, hinv⟩, hps, h⟩ := hst
    have hcare := hs.2.2.1 h.normal
    obtain ⟨⟨pool', -, hinv'⟩, -⟩ :=
      (step_spec hinv hs.2.1.1 hcare fun _ _ _ => trivial).elim hs.2.1.2
    exact ⟨⟨pool', hinv'⟩, hs.2.2.2, step_stackOnly hinv hps h hs⟩
  obtain ⟨⟨pool', hinv⟩, hp', h⟩ := hI
  exact h.stackWindows hinv hp'

/-- One entry of such a run. -/
def enterStacks (p : Nat) (k : Kernel) (ev : Event) : Option Kernel :=
  (k.enterCarefully ev).filter fun k' => p ∈ k'.processTable

theorem enters_of_enterStacks (h : enterStacks p k ev = some k') :
    k.EntersCarefully ev k' ∧ p ∈ k'.processTable := by
  obtain ⟨hstep, hp⟩ := Option.filter_eq_some_iff.mp h
  exact ⟨enters_of_enterCarefully hstep, of_decide_eq_true hp⟩

/-- Init makes a second thread, touches the second page of its own stack, and disposes that thread. -/
theorem run_stackWindows_grown : ∃ (k k₁ k' : Kernel) (p : Nat) (es : List Event), k.Boot 0 ∧
    k.initProc 0 0 = .ok k₁ ∧ p ∈ k₁.processTable ∧ Run (EntersStacks p) k₁ es k' ∧
      es.length = 3 ∧ k'.pte p 767 1022 ≠ 0 ∧ k'.StackWindows p := by
  obtain ⟨k, k₁, k₂, hB, -, hinit, hnil, hp, hany⟩ := run_of_booted_any (a := 0xC0400000)
    (n := 0x400000) (l := []) (P := fun k => k.currentProc ∈ k.processTable ∧
      (Run.follow (enterStacks k.currentProc) k [call 2 0 0 0, .pageFault noRegs 0xBFFFE000,
        call 3 0xC0407000 0 0]).any (fun k' => decide (k'.pte k.currentProc 767 1022 ≠ 0)) = true)
    (by decide +kernel)
  cases hnil
  obtain ⟨k', hk', hpte⟩ := (Option.any_eq_true _ _).mp hany
  have hsteps := Run.of_follow (fun _ _ _ => enters_of_enterStacks) hk'
  have hevents : ∀ ev ∈ [call 2 0 0 0, .pageFault noRegs 0xBFFFE000, call 3 0xC0407000 0 0],
      StackEvent ev := by simp [StackEvent, Lifecycle, call, noRegs]
  have hrun : Run (EntersStacks k₁.currentProc) k₁ _ k' := (hsteps.restrict hevents).mono
    fun _ _ _ hs => ⟨hs.1, hs.2.1.2, fun _ => hs.2.1.1, hs.2.2⟩
  exact ⟨k, k₁, k', _, _, hB, hinit, hp, hrun, rfl, of_decide_eq_true hpte,
    run_stackWindows hB hinit (.nil k₁) hp (initProc_stackOnly hB hinit) hrun⟩

end Kernel

end NorlitOS
