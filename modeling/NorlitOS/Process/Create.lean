import NorlitOS.Process.Queue
import NorlitOS.Process.Spawn

/-!
# New threads and processes

`SYSCALL_CREATE_THREAD`, `createProcess` and `init_proc`. A new process is set up before it
joins the ring; the page functions do not look at the ring, so its setting-up is that of a
process already in it.
-/

namespace NorlitOS

open Dyadic Ledger

namespace Kernel

variable {k k' k₁ : Kernel} {own : Owner → Option Nat} {phy : Prop} {pool : Set Nat}
  {p q t u d f ip flag privilege priority : Nat} {l : List Nat}

/-! ## `SYSCALL_CREATE_THREAD`

The new thread joins the list of the running process and is ready. Of the counters only
`avlThread` has to change. -/

/-- Counting with a new thread in the list. -/
theorem countFlag_joined {old : List Nat} (hlist : (k'.proc p).thread = l)
    (hl : l.Perm (t :: old)) (hold : ∀ u ∈ old, (k'.thr u).flag = (k.thr u).flag) :
    k'.countFlag p flag = (old.countP fun u => (k.thr u).flag = flag) +
      if (k'.thr t).flag = flag then 1 else 0 := by
  unfold countFlag
  rw [hlist, hl.countP_eq, List.countP_cons]
  have hrest : (old.countP fun u => decide ((k'.thr u).flag = flag)) =
      old.countP fun u => decide ((k.thr u).flag = flag) := by
    refine List.countP_congr fun u hu => ?_
    rw [hold u hu]
  rw [hrest]
  simp

namespace Spawned

variable (hS : Spawned k own phy pool p t k')

include hS

/-- The page of the new thread was free, so it is no thread of anyone. -/
theorem not_mem (hO : Owned k.heap own pool)
    (hthr : ∀ u, own (.threadPage u) = k.frameOf (.threadPage u)) (hq : q ∈ k.processTable) :
    t ∉ (k.proc q).thread := fun hmem =>
  hO.ne_of_free ((hthr t).trans (frameOf_threadPage hq hmem)) hS.free rfl

theorem other (hq : q ≠ p) : k'.proc q = k.proc q := by
  obtain ⟨l, -, hproc⟩ := hS.proc
  rw [hproc, modProc_proc_of_ne hq]

end Spawned

/-- The running process with its new thread. -/
theorem Spawned.inv (h : k.Inv phy pool) (hS : Spawned k k.frameOf phy pool k.currentProc t k') : k'.Inv phy pool := by
  have hrun := h.threads.running
  have hP := h.procOk hrun
  have hnot := fun {q} (hq : q ∈ k.processTable) => hS.not_mem h.owned (fun _ => rfl) hq
  obtain ⟨l, hl, hproc⟩ := hS.proc
  obtain ⟨i, s, g, hframes, hO⟩ := hS.frames
  have hself : k'.proc k.currentProc = joined l (k.proc k.currentProc) := by
    rw [hproc, modProc_proc_self]
  have hlist : (k'.proc k.currentProc).thread = l := by rw [hself]; rfl
  have hmem : ∀ u, u ∈ l ↔ u = t ∨ u ∈ (k.proc k.currentProc).thread := fun u =>
    hl.mem_iff.trans List.mem_cons
  have hold : ∀ {q}, q ∈ k.processTable → ∀ u ∈ (k.proc q).thread, k'.thr u = k.thr u :=
    fun hq u hu => hS.thr u fun hut => hnot hq (hut ▸ hu)
  -- the new thread is ready and the others are as they were
  have hcount : ∀ flag, k'.countFlag k.currentProc flag = k.countFlag k.currentProc flag +
      if (k'.thr t).flag = flag then 1 else 0 := fun flag =>
    countFlag_joined hlist hl fun u hu => by rw [hold hrun u hu]
  refine ⟨by rw [hframes]; exact hO, hS.layout, ?_⟩
  refine h.threads_of (p := k.currentProc) hS.processTable hS.currentProc hS.currentThread
    (by rw [hself]; rfl) (fun q hq => hS.other hq) (fun q hq _ u hu => hold hq u hu)
    (fun q hq hne _ => hS.pte q hq hne) ?_
  constructor
  case current =>
    rw [hlist, hself]
    exact (hmem _).mpr (Or.inr hP.current)
  case nodup =>
    rw [hlist]
    exact hl.nodup_iff.mpr (List.nodup_cons.mpr ⟨hnot hrun, hP.nodup⟩)
  case back =>
    intro u hu
    rw [hlist] at hu
    rcases (hmem u).mp hu with rfl | hu
    · exact hS.process
    · rw [hold hrun u hu]
      exact hP.back u hu
  case flags =>
    intro u hu
    rw [hlist] at hu
    rcases (hmem u).mp hu with rfl | hu
    · exact Or.inl hS.flag
    · rw [hold hrun u hu]
      exact hP.flags u hu
  case avl =>
    rw [hcount, hS.flag, if_pos rfl, ← hP.avl, hself]
    show add32 (k.proc k.currentProc).avlThread 1 = _
    rw [add32_of_lt (by rw [hP.avl]; exact countFlag_lt h.layout hrun hP.nodup 0)]
  case receiving =>
    rw [hcount, hS.flag, if_neg (by decide), hself]
    exact hP.receiving
  case head =>
    rw [hself]
    exact hP.head
  case tail =>
    rw [hself]
    exact hP.tail
  case count =>
    rw [hself]
    exact hP.count
  case blocked =>
    -- no thread of the running process is blocked
    intro u hu hf
    rw [hlist] at hu
    rcases (hmem u).mp hu with rfl | hu
    · rw [hS.flag] at hf
      exact absurd hf (by decide)
    · rw [hold hrun u hu, h.flag_eq_zero hu] at hf
      exact absurd hf (by decide)

/-- **`SYSCALL_CREATE_THREAD`.** -/
theorem sysCreateThread_spec {edx : Nat} (h : k.Inv phy pool) :
    Yields (k.sysCreateThread edx) fun k' => Keeps k phy pool k' ∧
      ∃ k₁ v, k' = k₁.setAx k₁.currentThread v ∧
        (k₁ = k ∨ ∃ t, Spawned k k.frameOf phy pool k.currentProc t k₁) := by
  unfold sysCreateThread
  have hN : ∀ i j, k.pde k.currentProc i = 0 → k.frameOf (.pte k.currentProc i j) = none := by
    intro i j h0
    simp only [frameOf, pte_of_no_pde h0, entryFrame_zero, ite_self]
  refine (createThread_spec h.layout h.owned (Agree.refl k) h.threads.running hN fun _ => rfl).bind
    fun r hr => ?_
  rcases hr with ⟨rfl, -⟩ | hS
  · exact ⟨⟨(sameButRegs_setAx 0).inv h, (sameButRegs_setAx 0).half⟩, k, 0, rfl, Or.inl rfl⟩
  · exact ⟨⟨(sameButRegs_setAx _).inv (Spawned.inv h hS),
      hS.half.trans_of_eq (sameButRegs_setAx _).half hS.processTable⟩, r.2, r.1, rfl, Or.inr ⟨_, hS⟩⟩

/-! ## The ring is not looked at

`createThread` for a process that is not in the ring yet does what it does for one that is. Hence
the first thread of a process can be treated with the lemmas about threads of processes in the
ring. -/

/-- Another ring. -/
def withTable (l : List Nat) (k : Kernel) : Kernel := { k with processTable := l }

theorem withTable_table : (k.withTable l).table = k.table := (rfl)

theorem withTable_proc : (k.withTable l).proc = k.proc := (rfl)

theorem withTable_setWord {i v : Nat} :
    (k.withTable l).setWord f i v = (k.setWord f i v).withTable l := (rfl)

theorem withTable_setPage {row : Nat → Nat} :
    (k.withTable l).setPage f row = (k.setPage f row).withTable l := (rfl)

theorem allocPage_withTable :
    (k.withTable l).allocPage = k.allocPage.map fun r => (r.1, r.2.withTable l) := by
  unfold allocPage
  rw [bind_map]
  rfl

theorem allocPhysicalPage_withTable :
    (k.withTable l).allocPhysicalPage = k.allocPhysicalPage.map fun r => (r.1, r.2.withTable l) := by
  unfold allocPhysicalPage
  rw [allocPage_withTable, map_bind, bind_map]
  rfl

theorem allocThreadStack_withTable :
    (k.withTable l).allocThreadStack p =
      (k.allocThreadStack p).map fun r => (r.1, r.2.withTable l) := by
  unfold allocThreadStack
  simp only [allocPage_withTable, withTable_table, withTable_proc, map_bind, withTable_setPage,
    allocPhysicalPage_withTable, withTable_setWord, apply_ite (Except.map _), bind_map, map_ok]

/-- So neither does `createThread`. -/
theorem createThread_withTable :
    (k.withTable l).createThread p ip =
      (k.createThread p ip).map fun r => (r.1, r.2.withTable l) := by
  unfold createThread
  rw [allocThreadStack_withTable, map_bind, bind_map]
  congr 1
  funext r
  obtain ⟨sp, k₁⟩ := r
  show (if sp = 0 then _ else (k₁.withTable l).allocPage >>= _) =
    Except.map _ (if sp = 0 then _ else k₁.allocPage >>= _)
  rw [allocPage_withTable, map_bind, apply_ite (Except.map _), bind_map]
  rfl

/-- The ring stays as it is. -/
theorem createThread_processTable {r : Nat × Kernel} (h : k.createThread p ip = .ok r) :
    r.2.processTable = k.processTable := by
  have hmap : (k.withTable k.processTable).createThread p ip =
      (k.createThread p ip).map fun r => (r.1, r.2.withTable k.processTable) :=
    createThread_withTable
  have hself : k.withTable k.processTable = k := rfl
  rw [hself, h, map_ok] at hmap
  have hr : r = (r.1, r.2.withTable k.processTable) := Except.ok.inj hmap
  rw [hr]
  rfl

/-! ## A new process

Three things come one after the other: the record and the directory, the first thread, and the
fields of the record with the identifier. `born`, `Spawned` and `initialised` are the states in
between. -/

/-- The process `p` has been created; the processes there were are as before. -/
structure Created (k : Kernel) (phy : Prop) (pool : Set Nat) (p : Nat) (k' : Kernel) : Prop where
  new : p ∉ k.processTable
  ring : k'.processTable.Perm (p :: k.processTable)
  currentProc : k'.currentProc = k.currentProc
  currentThread : k'.currentThread = k.currentThread
  other : ∀ q, q ≠ p → k'.proc q = k.proc q
  thr : ∀ q ∈ k.processTable, ∀ u ∈ (k.proc q).thread, k'.thr u = k.thr u
  pde : ∀ q ∈ k.processTable, ∀ a, k'.pde q a = k.pde q a
  pte : ∀ q ∈ k.processTable, ∀ a < USER_PDES, ∀ b, k'.pte q a b = k.pte q a b
  first : ∃ t, (k'.proc p).thread = [t] ∧ (k'.thr t).threadID = 0 ∧ ∃ i, k'.HasWindow p t i ∧
    (∀ a < USER_PDES, a ≠ i → k'.pde p a = 0) ∧ ∀ b < 1024, isPhy (k'.pte p i b) = false
  numbered : ∃ id : Nat → Nat, (∀ q ∈ k.processTable, id q = (k.proc q).pid) ∧
    insertProcess id p k.processTable = ((k'.proc p).pid, k'.processTable)
  procOk : k'.ProcOk p
  flag : (k'.proc p).flag = 0
  avlThread : (k'.proc p).avlThread = 1
  owned : Owned k'.heap k'.frameOf pool
  layout : k'.Layout phy pool

/-- The ledger when record and directory of the new process `p` are there. -/
def bornLedger (k : Kernel) (p d : Nat) : Owner → Option Nat :=
  Function.update (Function.update k.frameOf (.record p) (some (p - 4))) (.pageDirectory p) (some d)

/-- Besides these two owners the ledger is that of the kernel. -/
theorem bornLedger_of_ne {o : Owner} (hr : o ≠ .record p) (hd : o ≠ .pageDirectory p) :
    k.bornLedger p d o = k.frameOf o := by
  unfold bornLedger
  rw [Function.update_of_ne hd, Function.update_of_ne hr]

/-- The record at `p` before the process has a thread. -/
def newborn (d privilege : Nat) (P : Process) : Process :=
  { P with cr3 := va2pa d, privilege := privilege, avlThread := 0, thread := [] }

/-- The state with the new process in the ring `l`, before it has a thread. -/
def born (k : Kernel) (h : Heap) (p d privilege : Nat) (l : List Nat) : Kernel :=
  (({ k with heap := h } : Kernel).modProc p (newborn d privilege)).withTable l

section Born

variable {h : Heap} (hL : k.Layout phy pool) (hd : k.Directory pool d) (hnew : p ∉ k.processTable)
  (hl : l.Perm (p :: k.processTable))

include hl

theorem mem_born : q ∈ (k.born h p d privilege l).processTable ↔ q = p ∨ q ∈ k.processTable :=
  hl.mem_iff.trans List.mem_cons

include hL hd in
/-- With an empty directory the layout is kept. -/
theorem born_layout : (k.born h p d privilege l).Layout phy pool := by
  refine hL.insert hd (fun q => mem_born hl) rfl (fun q hq => modProc_proc_of_ne hq) ?_ ?_
    fun _ => rfl
  · show (Kernel.proc (modProc _ _ _) p).cr3 = va2pa d
    rw [modProc_proc_self]
    rfl
  · show (Kernel.proc (modProc _ _ _) p).thread = []
    rw [modProc_proc_self]
    rfl

omit hl in
include hd in
/-- The user half of the new directory is empty. -/
theorem born_pde_user {i : Nat} (hi : i < USER_PDES) : (k.born h p d privilege l).pde p i = 0 := by
  have hpd : (k.born h p d privilege l).pd p = d := by
    show pa2va (Kernel.proc (modProc _ _ _) p).cr3 = d
    rw [modProc_proc_self]
    exact hd.physical.2
  rw [pde, hpd]
  exact hd.user i hi

include hnew

/-- The others own what they owned. -/
theorem born_frameOf_other {o : Owner} (ho : o ∉ ownersOf p) :
    (k.born h p d privilege l).frameOf o = k.frameOf o := by
  have hsame : ∀ q, q ≠ p → (k.born h p d privilege l).proc q = k.proc q :=
    fun q hq => modProc_proc_of_ne hq
  have herase := frameOf_erase (p := p) (show k.table = (k.born h p d privilege l).table from rfl)
    (fun q => by
      rw [mem_born hl]
      constructor
      · exact fun hq => ⟨Or.inr hq, fun h => hnew (h ▸ hq)⟩
      · exact fun hq => hq.1.resolve_left hq.2)
    (fun q hq => by rw [hsame q hq]) (fun q hq => by rw [hsame q hq])
    (fun q hq n => by rw [hsame q hq]; exact ⟨Iff.rfl, rfl⟩) (by
      show (Kernel.proc (modProc _ _ _) p).thread = []
      rw [modProc_proc_self]
      rfl)
  rw [herase, without_of_notMem ho]

include hd in
/-- Besides what a garbage message count suggests, the new process owns its record and its
directory. -/
theorem born_frameOf {o : Owner} (ho : ∀ n, o ≠ .slot p n) :
    (k.born h p d privilege l).frameOf o = k.bornLedger p d o := by
  have hp : p ∈ (k.born h p d privilege l).processTable := (mem_born hl).mpr (Or.inl rfl)
  -- the owners of the new process, and those of the others
  by_cases hop : o ∈ ownersOf p
  · have hnone := frameOf_of_not_mem hnew hop
    cases o with
    | pte q a b =>
      obtain rfl := Option.some.inj hop
      rw [bornLedger_of_ne (by simp) (by simp), hnone]
      simp only [frameOf]
      split
      · next hab => rw [pte_of_no_pde (born_pde_user hd hab.2.1), entryFrame_zero]
      · rfl
    | pageTable q a =>
      obtain rfl := Option.some.inj hop
      rw [bornLedger_of_ne (by simp) (by simp), hnone]
      exact if_neg fun ha => ha.2.2 (born_pde_user hd ha.2.1)
    | pageDirectory q =>
      obtain rfl := Option.some.inj hop
      rw [frameOf_pageDirectory hp, bornLedger, Function.update_self]
      show some (pa2va (Kernel.proc (modProc _ _ _) q).cr3) = some d
      rw [modProc_proc_self]
      exact congrArg some hd.physical.2
    | threadPage u => cases (hop : Owner.process _ = some p)
    | slot q n =>
      obtain rfl := Option.some.inj hop
      exact absurd rfl (ho n)
    | record q =>
      obtain rfl := Option.some.inj hop
      rw [bornLedger, Function.update_of_ne (by simp), Function.update_self]
      exact if_pos hp
  · rw [born_frameOf_other hnew hl hop, bornLedger_of_ne]
    · rintro rfl
      exact hop rfl
    · rintro rfl
      exact hop rfl

omit hl in
include hL hd in
/-- The first thread of the new process. -/
theorem firstThread_spec (hO : Owned h (k.bornLedger p d) pool) :
    Yields ((({ k with heap := h } : Kernel).modProc p (newborn d privilege)).createThread p ip)
      fun r => ∀ l : List Nat, l.Perm (p :: k.processTable) →
        Spawned (k.born h p d privilege l) (k.bornLedger p d) phy pool p r.1 (r.2.withTable l) := by
  refine Yields.forall_of (List.Perm.refl (p :: k.processTable)) fun l hl => ?_
  have hframe : ∀ o : Owner, (∀ n, o ≠ .slot p n) →
      k.bornLedger p d o = (k.born h p d privilege l).frameOf o :=
    fun o ho => (born_frameOf hd hnew hl ho).symm
  have hA : Agree (k.bornLedger p d) (k.born h p d privilege l) :=
    ⟨fun q => hframe _ (by simp), fun q i => hframe _ (by simp)⟩
  have hN : ∀ i j, (k.born h p d privilege l).pde p i = 0 → k.bornLedger p d (.pte p i j) = none := by
    intro i j _
    rw [bornLedger_of_ne (by simp) (by simp), frameOf_of_not_mem hnew rfl]
  -- a thread of a process that is in the ring already
  have hspec : Yields ((k.born h p d privilege l).createThread p ip) _ :=
    createThread_spec (born_layout hL hd hl) hO hA ((mem_born hl).mpr (Or.inl rfl)) hN
      fun u => hframe _ (by simp)
  have hmap : (k.born h p d privilege l).createThread p ip =
      ((({ k with heap := h } : Kernel).modProc p (newborn d privilege)).createThread p ip).map
        fun r => (r.1, r.2.withTable l) := createThread_withTable
  rw [hmap] at hspec
  refine hspec.of_map.mono fun r hr => ?_
  rcases hr with ⟨-, htop⟩ | hS
  -- the user half is empty, so there is a window
  · exact absurd (born_pde_user hd (by decide : 767 < USER_PDES))
      (htop 767 (by decide) (by decide) (by decide))
  · exact hS

end Born

/-- The record when the process has its thread `t`. -/
def initialised (t priority pid : Nat) (P : Process) : Process :=
  { P with
    current := t, flag := 0, msgCount := 0, msgHead := 0, msgTail := 0, receiving := 0,
    priority := priority, ticks := s32 priority, pid := pid }

/-- Filling in the record moves nothing in memory. -/
theorem sameSpaces_initialised {pid : Nat} :
    SameSpaces k₁ (k₁.modProc p (initialised t priority pid)) := by
  refine ⟨rfl, fun q => ?_, fun q => ?_⟩ <;>
  · rw [modProc_proc]
    split
    · next h => rw [h]; rfl
    · rfl

theorem born_proc_self {h : Heap} :
    (k.born h p d privilege l).proc p = newborn d privilege (k.proc p) := by
  show (Kernel.proc (modProc _ _ _) p) = _
  rw [modProc_proc_self]

theorem born_proc_of_ne {h : Heap} (hq : q ≠ p) : (k.born h p d privilege l).proc q = k.proc q :=
  modProc_proc_of_ne hq

namespace Spawned

section Initialised

variable {h : Heap} {pid : Nat}
  (hS : Spawned (k.born h p d privilege l) (k.bornLedger p d) phy pool p t k₁)

include hS

/-- The list of the process is the new thread alone. -/
theorem initialised_self (priority pid : Nat) : (k₁.modProc p (initialised t priority pid)).proc p =
    initialised t priority pid (joined [t] (newborn d privilege (k.proc p))) := by
  obtain ⟨l', hl', hproc⟩ := hS.proc
  rw [born_proc_self] at hl'
  obtain rfl := List.perm_singleton.mp hl'
  rw [modProc_proc_self, hproc, modProc_proc_self, born_proc_self]

/-- Filling in the new record changes no other. -/
theorem initialised_of_ne (hq : q ≠ p) :
    (k₁.modProc p (initialised t priority pid)).proc q = k.proc q := by
  rw [modProc_proc_of_ne hq, hS.other hq, born_proc_of_ne hq]

/-- The first thread has the number zero. -/
theorem initialised_threadID : (k₁.thr t).threadID = 0 := by
  have hnum := hS.numbered
  rw [born_proc_self] at hnum
  exact (congrArg Prod.fst hnum).symm

/-- The bookkeeping of a process with one thread, which is ready. -/
theorem initialised_procOk : (k₁.modProc p (initialised t priority pid)).ProcOk p := by
  have hself := hS.initialised_self priority pid
  set k' := k₁.modProc p (initialised t priority pid) with hk'
  -- the list holds the first thread and no other
  have hthread : (k'.proc p).thread = [t] := by
    rw [hself]
    rfl
  have havl : (k'.proc p).avlThread = 1 := by
    rw [hself]
    rfl
  have hflag : (k'.thr t).flag = 0 := hS.flag
  constructor
  case current =>
    rw [hthread, hself]
    exact List.mem_singleton_self t
  case nodup =>
    rw [hthread]
    exact List.nodup_singleton t
  case back =>
    intro u hu
    rw [hthread] at hu
    obtain rfl := List.mem_singleton.mp hu
    exact hS.process
  case flags =>
    intro u hu
    rw [hthread] at hu
    obtain rfl := List.mem_singleton.mp hu
    exact Or.inl hflag
  case avl =>
    rw [havl, countFlag, hthread]
    simp [hflag]
  case receiving =>
    rw [hself, countFlag, hthread]
    simp [hflag, initialised]
  case head =>
    rw [hself]
    rfl
  case tail =>
    rw [hself]
    exact (by decide : 0 < MAX_MESSAGE_COUNT)
  case count =>
    rw [hself]
    exact Nat.zero_le _
  case blocked =>
    -- the only thread is not blocked
    intro u hu hf
    rw [hthread] at hu
    obtain rfl := List.mem_singleton.mp hu
    rw [hflag] at hf
    exact absurd hf (by decide)

/-- The garbage in the record suggested messages; now there are none, and the ledgers agree. -/
theorem initialised_owned (hd : k.Directory pool d) (hnew : p ∉ k.processTable)
    (hl : l.Perm (p :: k.processTable)) :
    Owned (k₁.modProc p (initialised t priority pid)).heap
      (k₁.modProc p (initialised t priority pid)).frameOf pool := by
  obtain ⟨i, s, g, hframes, hown⟩ := hS.frames
  have hfinal : (k₁.modProc p (initialised t priority pid)).frameOf =
      Function.update (Function.update (Function.update (k.bornLedger p d)
        (.pageTable p i) (some s)) (.pte p i 1023) (some g)) (.threadPage t) (some t) := by
    funext o
    -- the queue is new and empty
    by_cases ho : ∃ n, o = .slot p n
    · obtain ⟨n, rfl⟩ := ho
      rw [Function.update_of_ne (by simp), Function.update_of_ne (by simp),
        Function.update_of_ne (by simp), bornLedger_of_ne (by simp) (by simp),
        frameOf_of_not_mem hnew rfl]
      refine frameOf_slot_none fun hn => ?_
      have hlt := hn.2
      rw [hS.initialised_self] at hlt
      exact Nat.not_lt_zero _ hlt
    · have ho' : ∀ n, o ≠ .slot p n := fun n h => ho ⟨n, h⟩
      rw [frameOf_of_ne_slot sameSpaces_initialised rfl (fun q hq => modProc_proc_of_ne hq) ho',
        hframes]
      simp only [Function.update_apply, born_frameOf hd hnew hl ho']
  rw [hfinal]
  exact hown

end Initialised

end Spawned

/-- With its first thread and its fields the process is there. -/
theorem Created.of_spawned {h : Heap} {pid : Nat} (hd : k.Directory pool d)
    (hnew : p ∉ k.processTable) (hl : l.Perm (p :: k.processTable))
    (hid : ∃ id : Nat → Nat, (∀ q ∈ k.processTable, id q = (k.proc q).pid) ∧
      insertProcess id p k.processTable = (pid, l))
    (hO : Owned h (k.bornLedger p d) pool)
    (hS : Spawned (k.born h p d privilege l) (k.bornLedger p d) phy pool p t k₁) :
    Created k phy pool p (k₁.modProc p (initialised t priority pid)) := by
  set k₀ := k.born h p d privilege l with hk₀
  have hself := hS.initialised_self priority pid
  set k' := k₁.modProc p (initialised t priority pid) with hk'
  have hspaces : SameSpaces k₁ k' := sameSpaces_initialised
  have hpde₁ : ∀ q a, k'.pde q a = k₁.pde q a := fun q a => pde_of_sameSpaces hspaces rfl q a
  have hpte₁ : ∀ q a b, k'.pte q a b = k₁.pte q a b := fun q a b => pte_of_sameSpaces hspaces rfl q a b
  have hp₀ : p ∈ k₀.processTable := (mem_born hl).mpr (Or.inl rfl)
  have hmem : ∀ q ∈ k.processTable, q ∈ k₀.processTable ∧ q ≠ p := fun q hq =>
    ⟨(mem_born hl).mpr (Or.inr hq), fun h => hnew (h ▸ hq)⟩
  have hpde₀ : ∀ q, q ≠ p → ∀ a, k₀.pde q a = k.pde q a := fun q hq a => by
    unfold Kernel.pde Kernel.pd
    rw [born_proc_of_ne hq]
    rfl
  constructor
  case new => exact hnew
  case ring => exact hS.processTable ▸ hl
  case currentProc => exact hS.currentProc
  case currentThread => exact hS.currentThread
  case other => exact fun q hq => hS.initialised_of_ne hq
  -- the thread is new, so it is none of theirs
  case thr =>
    intro q hq u hu
    obtain ⟨hq₀, hqp⟩ := hmem q hq
    refine hS.thr u ?_
    rintro rfl
    refine hS.not_mem hO (fun w => (born_frameOf hd hnew hl (by simp)).symm) hq₀ ?_
    rw [born_proc_of_ne hqp]
    exact hu
  case pde =>
    intro q hq a
    obtain ⟨hq₀, hqp⟩ := hmem q hq
    obtain ⟨i, hW⟩ := hS.stack
    rw [hpde₁, hW.pde q hq₀ a fun h => hqp h.1, hpde₀ q hqp]
  case pte =>
    intro q hq a ha b
    obtain ⟨hq₀, hqp⟩ := hmem q hq
    rw [hpte₁, hS.pte q hq₀ hqp a ha b]
    unfold Kernel.pte
    rw [hpde₀ q hqp]
    rfl
  case first =>
    -- the directory was empty before the thread came
    obtain ⟨i, hW⟩ := hS.stack
    refine ⟨t, by rw [hself]; rfl, hS.initialised_threadID, i,
      ⟨hW.window.odd, hW.window.low, hW.window.high, hW.window.stacktop,
        by rw [hpde₁]; exact hW.window.used⟩, fun a ha hai => ?_, fun b hb => ?_⟩
    · rw [hpde₁, hW.pde p hp₀ a fun hc => hai hc.2]
      exact born_pde_user hd ha
    · rw [hpte₁]
      exact hW.normal b hb
  case numbered =>
    obtain ⟨id, hsame, hins⟩ := hid
    refine ⟨id, hsame, hins.trans ?_⟩
    rw [hself, show k'.processTable = l from hS.processTable]
    rfl
  case procOk => exact hS.initialised_procOk
  case flag =>
    rw [hself]
    rfl
  case avlThread =>
    rw [hself]
    rfl
  case owned => exact hS.initialised_owned hd hnew hl
  case layout => exact hS.layout.of_sameSpaces hspaces rfl fun _ => rfl

/-- The new process stands somewhere in the ring, and the others stay. -/
theorem insertProcess_perm (id : Nat → Nat) (new : Nat) (ring : List Nat) :
    (insertProcess id new ring).2.Perm (new :: ring) := by
  cases ring with
  | nil => exact List.Perm.refl _
  | cons init ring =>
    exact ((insertById_perm id new 1 ring).cons init).trans (List.Perm.swap new init ring)

/-- The record of a process with the thread `t`, except for its pid. -/
def started (t priority : Nat) (ticks : Int) (P : Process) : Process :=
  { P with
    current := t, flag := 0, msgCount := 0, msgHead := 0, msgTail := 0, receiving := 0,
    priority := priority, ticks := ticks }

/-- A store into a record does not care about the ring. -/
theorem withTable_modProc {g : Process → Process} :
    (k.modProc p g).withTable l = (k.withTable l).modProc p g := (rfl)

/-- The order in which the source fills in the record and the ring does not matter. -/
theorem withTable_started {pid : Nat} :
    (((k.modProc p (started t priority (s32 priority))).modProc p fun P => { P with pid := pid }).withTable
      l) = (k.withTable l).modProc p (initialised t priority pid) := by
  rw [modProc_modProc, withTable_modProc]
  have hcomp : (fun P : Process => { P with pid := pid }) ∘ started t priority (s32 priority) =
      initialised t priority pid := by
    unfold initialised
    generalize s32 priority = ticks
    rfl
  rw [hcomp]

/-- **`newProcess`** with the page `d` as directory. -/
theorem newProcess_spec (hL : k.Layout phy pool) (hd : k.Directory pool d)
    (hO : Owned k.heap (Function.update k.frameOf inHand (some d)) pool) :
    Yields (k.newProcess (va2pa d) ip privilege priority) fun r => Created k phy pool r.1 r.2 := by
  unfold newProcess
  refine hO.malloc.bind fun r hr => ?_
  obtain ⟨p, h⟩ := r
  obtain ⟨f, hp, hfree, -, henter⟩ := hr
  have hpf : p = f + 4 := hp
  rw [← hpf] at henter
  have hsub : p - 4 = f := by omega
  -- the record was free, so it belongs to no process
  have hnew : p ∉ k.processTable := by
    intro hmem
    have hrec : Function.update k.frameOf inHand (some d) (.record p) = some f := by
      rw [Function.update_of_ne (by simp [inHand]), ← hsub]
      exact if_pos hmem
    exact hO.ne_of_free hrec hfree rfl
  -- the directory goes from the hand of `createProcess` to the new process
  have hO₁ : Owned h (k.bornLedger p d) pool := by
    have hrec : Function.update k.frameOf inHand (some d) (.record p) = none := by
      rw [Function.update_of_ne (by simp [inHand]), frameOf_of_not_mem hnew rfl]
    have hand : Function.update k.frameOf inHand none = k.frameOf :=
      Function.update_eq_self_iff.mpr frameOf_inHand.symm
    have hmove := (henter hrec).move (o := inHand) (x := .pageDirectory p) (f := d)
      (by rw [Function.update_of_ne (by simp [inHand]), Function.update_self])
      (by rw [Function.update_of_ne (by simp), Function.update_of_ne (by simp [inHand]),
        frameOf_of_not_mem hnew rfl]) fun _ => by simp
    rw [Function.update_comm (a := Owner.record p) (b := inHand) (by simp [inHand]),
      Function.update_idem, hand] at hmove
    rw [bornLedger, hsub]
    exact hmove
  refine (firstThread_spec hL hd hnew hO₁).with_eq.bind fun r hr => ?_
  obtain ⟨t, k₁⟩ := r
  set k₂ := k₁.modProc p (started t priority (s32 priority)) with hk₂
  set ins := insertProcess (fun p => (k₂.proc p).pid) p k₂.processTable with hins
  obtain ⟨hok, hspawned⟩ := hr
  have hring : ins.2.Perm (p :: k.processTable) := by
    rw [← show k₁.processTable = k.processTable from createThread_processTable hok]
    exact insertProcess_perm _ _ _
  have hS := hspawned ins.2 hring
  -- the number is chosen against those of the processes that exist
  have hid : ∃ id : Nat → Nat, (∀ q ∈ k.processTable, id q = (k.proc q).pid) ∧
      insertProcess id p k.processTable = (ins.1, ins.2) := by
    refine ⟨fun q => (k₂.proc q).pid, fun q hq => ?_, ?_⟩
    · have hqp : q ≠ p := fun hqp => hnew (hqp ▸ hq)
      have hq₁ : k₁.proc q = k.proc q := (hS.other hqp).trans (modProc_proc_of_ne hqp)
      show (k₂.proc q).pid = _
      rw [hk₂, modProc_proc_of_ne hqp, hq₁]
    · rw [hins, show k₂.processTable = k.processTable from createThread_processTable hok]
  show Yields (.ok (p, (k₂.modProc p fun P => { P with pid := ins.1 }).withTable ins.2)) _
  rw [hk₂, withTable_started]
  exact Created.of_spawned hd hnew hring hid hO₁ hS

/-! ## `createProcess`

The directory is made first, a copy of that of the running process with an empty user half. Until
the process has it, it is in no ledger but in the hand of `createProcess`. -/

/-- Heap and a page that is no table do not matter to the processes there are. -/
theorem Created.of_setPage {h : Heap} {row : Nat → Nat} (hf : k.Fresh d)
    (hC : Created (({ k with heap := h } : Kernel).setPage d row) phy pool p k') :
    Created k phy pool p k' := by
  have hf' : ({ k with heap := h } : Kernel).Fresh d := ⟨hf.dir, hf.table⟩
  refine ⟨hC.new, hC.ring, hC.currentProc, hC.currentThread, hC.other, hC.thr, fun q hq a => ?_,
    fun q hq a ha b => ?_, hC.first, hC.numbered, hC.procOk, hC.flag, hC.avlThread, hC.owned,
    hC.layout⟩
  · exact (hC.pde q hq a).trans (hf'.pde_setPage hq a)
  · exact (hC.pte q hq a ha b).trans (hf'.pte_setPage hq ha b)

/-- The state with the new process in the ring. -/
theorem Created.inv (hC : Created k phy pool p k') (h : k.Inv phy pool) : k'.Inv phy pool := by
  have hmem : ∀ q, q ∈ k'.processTable ↔ q = p ∨ q ∈ k.processTable := fun q =>
    hC.ring.mem_iff.trans List.mem_cons
  have hne : ∀ q ∈ k.processTable, q ≠ p := fun q hq hqp => hC.new (hqp ▸ hq)
  refine ⟨hC.owned, hC.layout, ?_, ?_, ?_, fun q hq => ?_⟩
  · exact hC.ring.nodup_iff.mpr (List.nodup_cons.mpr ⟨hC.new, h.threads.nodup⟩)
  · rw [hC.currentProc, hmem]
    exact Or.inr h.threads.running
  · rw [hC.currentThread, hC.currentProc, hC.other _ (hne _ h.threads.running)]
    exact h.threads.currentThread
  · rcases (hmem q).mp hq with rfl | hq
    · exact hC.procOk
    · have hpq := hC.other q (hne q hq)
      refine (h.procOk hq).congr (SameProc.of_eq hpq (hC.thr q hq)) fun t ht hB => ?_
      exact hB.congr (by rw [hpq]) (by rw [hpq]) hC.currentProc (by rw [hpq])
        (by rw [hC.thr q hq t ht]) (hC.pte q hq)

/-- **`createProcess`.** -/
theorem createProcess_spec (h : k.Inv phy pool) : Yields (k.createProcess ip privilege priority)
    fun r => r.2.Inv phy pool ∧ Created k phy pool r.1 r.2 := by
  have hrun := h.threads.running
  unfold createProcess createProcessPDE
  rw [frameAt_cr3 h.layout hrun]
  refine Yields.bind (P := fun r => ∃ d, r.1 = va2pa d ∧ k.Fresh d ∧ ∃ h' row, r.2 =
      ({ k with heap := h' } : Kernel).setPage d row ∧ r.2.Directory pool d ∧ r.2.Layout phy pool ∧
      Owned r.2.heap (Function.update r.2.frameOf inHand (some d)) pool) ?_ fun r hr => ?_
  · refine (allocPage_spec h.owned).bind fun r hr => ?_
    obtain ⟨d, h', rfl, hd⟩ := hr
    have hf := fresh_of_free h.owned (Agree.refl k) hd.free
    have hf' : ({ k with heap := h' } : Kernel).Fresh d := ⟨hf.dir, hf.table⟩
    -- what is written into the new directory
    set row : Nat → Nat := fun i => if i < va2pde PAGE_OFFSET then 0 else
      k.table (k.pd k.currentProc) i with hrow
    have hself : ∀ i, (({ k with heap := h' } : Kernel).setPage d row).table d i = row i := by
      intro i
      rw [setPage_table, if_pos rfl]
    have hO := hd.enter inHand (fun _ => by simp [inHand]) frameOf_inHand
    refine ⟨d, rfl, hf, h', row, rfl, ?_, (h.layout.withHeap h').setPage_fresh hf', ?_⟩
    · refine ⟨hd.physical h.owned, ⟨hf.dir, fun hq hi h0 => ?_⟩,
        h.owned.accounts.free_subset (hd.free (self_mem_page d)), fun i hi => ?_,
        fun i hi hi' h0 => ?_⟩
      · rw [hf'.pde_setPage hq] at h0 ⊢
        exact hf.table hq hi h0
      · rw [hself, hrow, va2pde_PAGE_OFFSET]
        exact if_pos hi
      · -- the kernel half is that of the running process
        have hval : row i = k.pde k.currentProc i := by
          rw [hrow, va2pde_PAGE_OFFSET]
          exact if_neg (Nat.not_lt.mpr hi)
        rw [hself, hval] at h0 ⊢
        exact h.layout.kernelHalf hrun hi hi' h0
    · rw [hf'.frameOf_setPage]
      exact hO
  · obtain ⟨cr3, k₁⟩ := r
    obtain ⟨d, hcr3, hf, h', row, hk₁, hd, hL, hO⟩ := hr
    replace hcr3 : cr3 = va2pa d := hcr3
    replace hk₁ : k₁ = ({ k with heap := h' } : Kernel).setPage d row := hk₁
    subst hk₁
    rw [hcr3]
    refine Yields.mono (newProcess_spec hL hd hO) fun r hC => ?_
    have hC' := Created.of_setPage hf hC
    exact ⟨hC'.inv h, hC'⟩

end Kernel

end NorlitOS
