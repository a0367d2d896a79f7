import NorlitOS.Process.Access
import NorlitOS.Process.Bookkeeping
import NorlitOS.Process.Ownership

/-!
# Records of a process that is disposed

`disposeProcess` disposes the threads one after the other. The last `disposeThread` enters
`disposeProcess` again, which gives the record of the process back, and then the loop outside looks
at the list of threads in that record once more. Apart from this read every record is read only
while it is allocated.
-/

namespace NorlitOS

open Loop Dyadic Ledger

namespace Kernel

variable {k k' : Kernel} {pool : Set Nat} {p q t n addr cr3 : Nat}

/-! ## Lists of threads

These hold in any state, for calls that return. -/

/-- The processes have the threads they had. -/
def SameThreads (k k' : Kernel) : Prop := ∀ q, (k'.proc q).thread = (k.proc q).thread

theorem SameThreads.refl (k : Kernel) : SameThreads k k := fun _ => rfl

theorem SameThreads.trans {k₁ k₂ k₃ : Kernel} (h : SameThreads k₁ k₂) (h' : SameThreads k₂ k₃) :
    SameThreads k₁ k₃ := fun q => (h' q).trans (h q)

/-- A store into a record that keeps its list of threads keeps all of them. -/
theorem sameThreads_modProc (f : Process → Process) (hf : ∀ P, (f P).thread = P.thread) :
    SameThreads k (k.modProc p f) := by
  intro q
  rw [modProc_proc]
  split
  · next heq => rw [heq, hf]
  · rfl

/-- `freePage` changes the allocator only. -/
theorem freePage_sameThreads (hok : k.freePage addr = .ok k') : SameThreads k k' := by
  obtain ⟨h, -, hok⟩ := bind_eq_ok.mp hok
  cases hok
  exact SameThreads.refl _

/-- Giving back the pages of a table changes the table and the allocator only. -/
theorem recycleTable_sameThreads {keep : Nat → Bool} (hok : recycleTable keep addr k = .ok k') :
    SameThreads k k' := by
  obtain ⟨k₁, hloop, hfree⟩ := bind_eq_ok.mp hok
  refine SameThreads.trans ?_ (freePage_sameThreads hfree)
  refine forRange_rel SameThreads.refl (fun _ _ _ h h' => h.trans h') (fun j k k' hentry => ?_) hloop
  unfold recycleEntry at hentry
  split at hentry
  · exact freePage_sameThreads hentry
  · cases hentry
    exact SameThreads.refl _

/-- So does giving back a directory. -/
theorem recycleProcessPDE_sameThreads (hok : k.recycleProcessPDE cr3 = .ok k') : SameThreads k k' := by
  obtain ⟨k₁, hloop, hfree⟩ := bind_eq_ok.mp hok
  refine SameThreads.trans ?_ (freePage_sameThreads hfree)
  refine forRange_rel SameThreads.refl (fun _ _ _ h h' => h.trans h') (fun j k k' hentry => ?_) hloop
  split at hentry
  · exact recycleTable_sameThreads hentry
  · cases hentry
    exact SameThreads.refl _

/-- The stack of a thread is pages, and not its record. -/
theorem recycleThreadStack_sameThreads (hok : k.recycleThreadStack t = .ok k') : SameThreads k k' := by
  obtain ⟨k₁, hupper, hok⟩ := bind_eq_ok.mp hok
  obtain ⟨k₂, hlower, hok⟩ := bind_eq_ok.mp hok
  cases hok
  refine (recycleTable_sameThreads hupper).trans (SameThreads.trans ?_ fun _ => rfl)
  unfold recycleLowerTable at hlower
  split at hlower
  · obtain ⟨k₃, htable, hok⟩ := bind_eq_ok.mp hlower
    cases hok
    have hsame := recycleTable_sameThreads htable
    exact hsame
  · cases hlower
    exact SameThreads.refl _

/-- Messages are dropped from the queue of the process, with their pages. -/
theorem recycleMessages_sameThreads (hok : recycleMessages p n k = .ok k') : SameThreads k k' := by
  induction n generalizing k with
  | zero =>
    cases hok
    exact SameThreads.refl _
  | succ n ih =>
    obtain ⟨k₁, hpage, hok⟩ := bind_eq_ok.mp hok
    refine (freePage_sameThreads hpage).trans (SameThreads.trans ?_ (ih hok))
    exact sameThreads_modProc _ fun _ => rfl

/-- The scheduler writes flags and ticks. -/
theorem schedule_sameThreads {flag : Nat} (hok : k.schedule flag = .ok k') : SameThreads k k' :=
  fun q => by rw [(schedule_spec.elim hok).proc]

/-- Leaving a process is a call of the scheduler, or nothing. -/
theorem switchFrom_sameThreads (hok : k.switchFrom p = .ok k') : SameThreads k k' := by
  unfold switchFrom at hok
  split at hok
  · exact schedule_sameThreads hok
  · cases hok
    exact SameThreads.refl _

/-- When the last thread has gone nothing more is taken from the lists of threads. -/
theorem disposeEmpty_sameThreads (hok : k.disposeEmpty p = .ok k') : SameThreads k k' := by
  obtain ⟨k₁, hswitch, hok⟩ := bind_eq_ok.mp hok
  obtain ⟨k₂, hdirectory, hok⟩ := bind_eq_ok.mp hok
  obtain ⟨k₃, hmessages, hok⟩ := bind_eq_ok.mp hok
  obtain ⟨h, -, hok⟩ := bind_eq_ok.mp hok
  cases hok
  have hrest := (recycleProcessPDE_sameThreads hdirectory).trans (recycleMessages_sameThreads hmessages)
  exact (switchFrom_sameThreads hswitch).trans hrest

/-- Nor is it by what `disposeThread` does behind the unlinking. -/
theorem disposeRest_sameThreads (hok : k.disposeRest p t = .ok k') : SameThreads k k' := by
  unfold disposeRest at hok
  split at hok
  · exact disposeEmpty_sameThreads hok
  · split at hok
    · refine SameThreads.trans ?_ (schedule_sameThreads hok)
      exact sameThreads_modProc _ fun _ => rfl
    · cases hok
      exact SameThreads.refl _

/-! ## Termination

The handlers call `schedule(2)` first. So another process runs, with ticks left, and `p` itself is
not ready: the `schedule(0)` of a thread that is disposed finds a process at once. -/

/-- The process `p` is going to be disposed and does not run: another one does, with ticks left.
-/
structure Doomed (k : Kernel) (p : Nat) : Prop where
  away : k.currentProc ≠ p
  ticks : 0 < (k.proc k.currentProc).ticks
  flag : (k.proc p).flag ≠ 0

/-- The process that `schedule` has picked has ticks. -/
theorem schedule_ticks_pos {flag : Nat} (hok : k.schedule flag = .ok k') :
    0 < (k'.proc k'.currentProc).ticks := by
  obtain ⟨r, hpick, hcur, hticks⟩ := schedule_ticks hok
  rw [hticks, hcur]
  rcases pickReady_cases hpick with ⟨hfirst, heq⟩ | ⟨-, -, hsecond⟩
  · rw [heq]
    exact (mostTicks_gt hfirst).resolve_left nofun
  · exact (mostTicks_gt hsecond).resolve_left nofun

/-- `schedule(2)` takes the process that calls it off the processor and blocks it. -/
theorem doomed_of_schedule (hok : k.schedule 2 = .ok k') : Doomed k' k.currentProc := by
  have hS := schedule_spec.elim hok
  have hne := hS.next_ne (by decide)
  refine ⟨hne, schedule_ticks_pos hok, ?_⟩
  rw [hS.proc]
  show (if k.currentProc = k'.currentProc then 2 else if k.currentProc = k.currentProc then 2 else _) ≠ 0
  rw [if_neg hne.symm, if_pos rfl]
  decide

/-- A thread of `p` that is disposed calls `schedule(0)`. It returns at once, because the process
that runs has ticks left and is made ready by the call itself. -/
theorem Doomed.schedule (h : Doomed k p) (hrun : k.currentProc ∈ k.processTable) :
    ∃ k', k.schedule 0 = .ok k' ∧ Doomed k' p := by
  obtain ⟨r, hr⟩ : ∃ r, mostTicks (k.modProc k.currentProc fun P => { P with flag := 0 }).proc
      k.processTable 0 none = some r := by
    cases hr : mostTicks (k.modProc k.currentProc fun P => { P with flag := 0 }).proc
        k.processTable 0 none with
    | some r => exact ⟨r, rfl⟩
    | none =>
      have hle := (mostTicks_eq_none_iff.mp hr).2 k.currentProc hrun
      rw [modProc_proc_self] at hle
      exact absurd (hle rfl) (not_le.mpr h.ticks)
  obtain ⟨k', hok⟩ : ∃ k', k.schedule 0 = .ok k' := by
    unfold Kernel.schedule pickReady
    dsimp only
    rw [modProc_processTable, hr]
    exact ⟨_, rfl⟩
  have hS := schedule_spec.elim hok
  -- only ready processes are chosen, and `p` is not
  have hne : k'.currentProc ≠ p := by
    intro hc
    have hready := hS.ready
    rw [hc, if_neg h.away.symm] at hready
    exact h.flag hready
  refine ⟨k', hok, hne, schedule_ticks_pos hok, ?_⟩
  rw [hS.proc]
  show (if p = k'.currentProc then 2 else if p = k.currentProc then 0 else (k.proc p).flag) ≠ 0
  rw [if_neg hne.symm, if_neg h.away.symm]
  exact h.flag

variable {k₁ : Kernel} {phy : Prop}

/-- The unlinking of a thread keeps the process doomed. -/
theorem Departed.doomed (hD : Departed k p t k₁) (h : Doomed k p) : Doomed k₁ p := by
  refine ⟨hD.currentProc ▸ h.away, ?_, ?_⟩
  · rw [hD.currentProc, hD.proc_of_ne h.away]
    exact h.ticks
  · rw [hD.proc_self]
    exact h.flag

/-- **`disposeThread` returns.** -/
theorem disposeThread_returns (h : k.Inv phy pool) (hp : p ∈ k.processTable)
    (ht : t ∈ (k.proc p).thread) (hphy : k.NormalWindow p t) (hdoom : Doomed k p) :
    ∃ k', k.disposeThread t = .ok k' ∧ (p ∈ k'.processTable → Doomed k' p) := by
  obtain ⟨k₁, heq, hD, hO⟩ := depart_spec h hp ht hphy
  have hdoom₁ := hD.doomed hdoom
  rw [heq]
  unfold disposeRest
  cases hl : (k₁.proc p).thread with
  | nil =>
    -- the last thread: the process goes with it
    have hnil := hl
    rw [hD.thread_self, erase_eq_nil ht] at hl
    obtain ⟨hrun, hcur, hcount, htail⟩ := hD.running h hp
    have hring : k₁.processTable = k.processTable := hD.processTable
    have hstay : k₁.switchFrom p = .ok k₁ := if_neg hdoom₁.away
    obtain ⟨hL, hS⟩ := (switchFrom_spec (hD.layout h hp ht) hrun hcur fun q hq hqp =>
      hD.procOk_of_ne h hp ht (hring ▸ hq) hqp).elim hstay
    obtain ⟨k₂, hok₂, hL₂, hT₂, hO₂, hR⟩ := hS.recycled hL (by rw [hring]; exact h.threads.nodup)
      (hring.symm ▸ hp) hnil hcount htail hO
    obtain ⟨h', hok, -⟩ := hD.removed h hp ht hl hL₂ hT₂ hO₂ hR
    have hgone : p ∉ k₂.processTable := by
      rw [hR.processTable, hring]
      exact h.threads.nodup.not_mem_erase
    refine ⟨{ k₂ with heap := h' }, ?_, fun hmem => absurd hmem hgone⟩
    show k₁.disposeEmpty p >>= _ = _
    rw [disposeEmpty_eq, hstay, ok_bind, hok₂, ok_bind, hok]
  | cons first rest =>
    dsimp only
    split
    · next hcur =>
      have hcur₁ : (k₁.proc p).current = (k.proc p).current := by
        rw [hD.proc_self]
        rfl
      -- another process runs, with ticks left, so `schedule` finds it at once
      have hdoom₂ : Doomed (k₁.modProc p fun P => { P with current := first }) p := by
        refine ⟨hdoom₁.away, ?_, ?_⟩
        · rw [modProc_currentProc, modProc_proc_of_ne hdoom₁.away]
          exact hdoom₁.ticks
        · rw [modProc_proc_self]
          exact hdoom₁.flag
      obtain ⟨k₂, hok₂, hdoom'⟩ := hdoom₂.schedule (hD.running h hp).1
      obtain ⟨h', hok, -⟩ := hD.scheduled h hp ht hO (hcur₁.symm.trans hcur)
        (by rw [hl]; exact List.mem_cons_self) (schedule_spec.elim hok₂)
      refine ⟨{ k₂ with heap := h' }, ?_, fun _ => ⟨hdoom'.away, hdoom'.ticks, hdoom'.flag⟩⟩
      rw [hok₂, ok_bind, hok]
    · next hne =>
      have hcur₁ : (k₁.proc p).current = (k.proc p).current := by
        rw [hD.proc_self]
        rfl
      obtain ⟨h', hok, -⟩ := disposeRest_keep h hp ht hD hO (hcur₁ ▸ hne)
      exact ⟨{ k₁ with heap := h' }, hok, fun _ => ⟨hdoom₁.away, hdoom₁.ticks, hdoom₁.flag⟩⟩

/-- The rounds of `disposeProcess`, by the number of threads. -/
theorem disposeThreads_returns (h : k.Inv phy pool) (hp : p ∈ k.processTable)
    (hn : (k.proc p).thread.length = n) (hw : k.NormalWindows p) (hdoom : Doomed k p) :
    ∃ k', disposeThreads p n k = .ok k' := by
  have hP := h.procOk hp
  have hcur := hP.current
  induction n generalizing k with
  | zero => exact absurd (List.length_eq_zero_iff.mp hn) (List.ne_nil_of_mem hcur)
  | succ n ih =>
    unfold disposeThreads
    obtain ⟨k₁, hok, hdoom₁⟩ := disposeThread_returns h hp hcur (hw _ hcur) hdoom
    obtain ⟨h₁, hD⟩ := (disposeThread_spec h hp hcur (hw _ hcur)).elim hok
    rw [hok, ok_bind]
    -- the test of the loop, in the record of `p`
    split
    · next hne =>
      have hne' : ¬ (k.proc p).thread = [(k.proc p).current] := fun hc =>
        hne (hD.thread.trans ((erase_eq_nil hcur).mpr hc))
      have hp₁ : p ∈ k₁.processTable := by rwa [hD.processTable, if_neg hne']
      have hlen : (k₁.proc p).thread.length = n := by
        rw [hD.thread, List.length_erase_of_mem hcur, hn]
        rfl
      have hP₁ := h₁.procOk hp₁
      exact ih h₁ hp₁ hlen (hD.normalWindows hp₁ h₁.layout hP.nodup hw) (hdoom₁ hp₁) hP₁ hP₁.current
    · exact ⟨k₁, rfl⟩

/-- **`disposeProcess` returns** when it is called by a handler. -/
theorem disposeProcess_returns (h : k.Inv phy pool) (hp : p ∈ k.processTable)
    (hw : k.NormalWindows p) (hdoom : Doomed k p) : ∃ k', k.disposeProcess p = .ok k' := by
  unfold disposeProcess
  rw [if_pos (List.ne_nil_of_mem (h.procOk hp).current)]
  exact disposeThreads_returns h hp rfl hw hdoom

end Kernel

namespace Watched

open Record RecordAccess

variable {w w' w₁ : Watched} {proc thread flag n : Nat} {as bs es es' l l₁ l' : List RecordAccess} {r : Record}
  {S T : Set Record} {g : Kernel → Except Stop Kernel}

/-! ## What a step adds to the log

The log is read in two parts. The effects (what is disposed, unlinked and given back) come in an
order that is fixed, and the reads in between are of a known set of records. Both are followed
step by step by `Adds`. -/

/-- All but the reads. -/
def effects (as : List RecordAccess) : List RecordAccess :=
  as.filter fun
    | .reads _ => false
    | _ => true

/-- The effects of one part, and then those of the other. -/
theorem effects_append : effects (as ++ bs) = effects as ++ effects bs := List.filter_append ..

theorem reads_notMem_effects : reads r ∉ effects as := fun hr =>
  Bool.false_ne_true (List.mem_filter.mp hr).2

/-- From `l` to `l'`: `es` in this order, and reads of records of `S` in between. -/
def Adds (es : List RecordAccess) (S : Set Record) (l l' : List RecordAccess) : Prop :=
  ∃ as, l' = l ++ as ∧ effects as = es ∧ ∀ r, reads r ∈ as → r ∈ S

namespace Adds

theorem refl (S : Set Record) (l : List RecordAccess) : Adds [] S l l :=
  ⟨[], (List.append_nil _).symm, rfl, fun _ hr => nomatch hr⟩

/-- One part of the log, and another one behind it. -/
theorem trans (h : Adds es S l l₁) (h' : Adds es' S l₁ l') : Adds (es ++ es') S l l' := by
  obtain ⟨as, hlog, heff, hreads⟩ := h
  obtain ⟨as', hlog', heff', hreads'⟩ := h'
  refine ⟨as ++ as', ?_, ?_, fun r hr => ?_⟩
  · rw [hlog', hlog, List.append_assoc]
  · rw [effects_append, heff, heff']
  · exact (List.mem_append.mp hr).elim (hreads r) (hreads' r)

/-- The set of records that may be read can be larger. -/
theorem mono (h : Adds es S l l') (hST : S ⊆ T) : Adds es T l l' := by
  obtain ⟨as, hlog, heff, hreads⟩ := h
  exact ⟨as, hlog, heff, fun r hr => hST (hreads r hr)⟩

theorem read (hr : r ∈ S) : Adds [] S l (l ++ [reads r]) := by
  refine ⟨[reads r], rfl, rfl, fun r' hr' => ?_⟩
  obtain rfl := reads.inj (List.mem_singleton.mp hr')
  exact hr

/-- Accesses that are no reads. -/
theorem note (h : effects as = as) : Adds as S l (l ++ as) :=
  ⟨as, rfl, h, fun _ hr => absurd (h.symm ▸ hr) reads_notMem_effects⟩

end Adds

/-- The records of processes. -/
def processes : Set Record := {r | ∃ p, r = process p}

/-- Every process has its record there. -/
theorem mem_processes (p : Nat) : process p ∈ processes := ⟨p, rfl⟩

/-- A call of a function that reads no records leaves the log alone. -/
theorem call_ok (hok : w.call g = .ok w') : w'.log = w.log ∧ g w.kernel = .ok w'.kernel := by
  obtain ⟨k, hk, hok⟩ := bind_eq_ok.mp hok
  cases hok
  exact ⟨rfl, hk⟩

/-- Going round the ring of processes reads records of processes. -/
theorem readRing_adds (w : Watched) : Adds [] processes w.log w.readRing.log := by
  refine ⟨_, rfl, List.filter_eq_nil_iff.mpr fun a ha => ?_, fun r hr => ?_⟩
  · obtain ⟨p, -, rfl⟩ := List.mem_map.mp ha
    exact Bool.false_ne_true
  · obtain ⟨p, -, hp⟩ := List.mem_map.mp hr
    exact ⟨p, (reads.inj hp).symm⟩

/-- The choice of the next process goes round the ring, perhaps several times. -/
theorem pickReady_adds {ready : Nat} (hok : w.pickReady = .ok (ready, w')) :
    Adds [] processes w.log w'.log := by
  have hround := readRing_adds w
  unfold pickReady at hok
  dsimp only at hok
  split at hok
  · cases hok
    exact hround
  · split at hok
    · cases hok
      exact hround.trans ((readRing_adds _).trans (readRing_adds _))
    · exact nomatch hok

/-- `schedule` reads records of processes. -/
theorem schedule_adds (hok : w.schedule flag = .ok w') : Adds [] processes w.log w'.log := by
  obtain ⟨⟨ready, w₁⟩, hpick, hok⟩ := bind_eq_ok.mp hok
  cases hok
  have hcr3 : Adds [] processes w₁.log (w₁.log ++ [reads (process ready)]) := Adds.read (mem_processes ready)
  exact ((Adds.read (mem_processes _)).trans (pickReady_adds hpick)).trans
    (hcr3.trans (Adds.read (mem_processes ready)))

/-- Dropping messages reads the record of the process. -/
theorem recycleMessages_adds (hok : recycleMessages proc n w = .ok w') :
    Adds [] processes w.log w'.log := by
  induction n generalizing w with
  | zero =>
    cases hok
    exact Adds.read (mem_processes proc)
  | succ n ih =>
    obtain ⟨w₁, hcall, hok⟩ := bind_eq_ok.mp hok
    have hround : Adds [] processes w.log w₁.log := by
      rw [(call_ok hcall).1]
      exact (Adds.read (mem_processes proc)).trans (Adds.read (mem_processes proc))
    exact hround.trans ((Adds.read (mem_processes proc)).trans (ih hok))

/-- Leaving the process reads what the scheduler reads. -/
theorem switchFrom_adds (hok : w.switchFrom proc = .ok w') : Adds [] processes w.log w'.log := by
  unfold switchFrom at hok
  split at hok
  · exact schedule_adds hok
  · cases hok
    exact Adds.refl _ _

/-- Nothing is read behind `free(proc)`. -/
theorem disposeEmpty_adds (hok : w.disposeEmpty proc = .ok w') :
    ∃ l, Adds [unlinks (process proc)] processes w.log l ∧ w'.log = l ++ [returns (process proc)] := by
  obtain ⟨w₁, hswitch, hok⟩ := bind_eq_ok.mp hok
  obtain ⟨w₂, hdirectory, hok⟩ := bind_eq_ok.mp hok
  obtain ⟨w₃, hmessages, hok⟩ := bind_eq_ok.mp hok
  obtain ⟨w₄, hfree, hok⟩ := bind_eq_ok.mp hok
  cases hok
  refine ⟨w₃.log, ?_, by rw [note_log, (call_ok hfree).1]⟩
  have hread : ∀ l, Adds [] processes l (l ++ [reads (process proc)]) :=
    fun _ => Adds.read (mem_processes proc)
  have hunlink : Adds [unlinks (process proc)] processes w₁.log w₂.log := by
    rw [(call_ok hdirectory).1]
    exact ((hread _).trans (Adds.note rfl)).trans (hread _)
  exact (switchFrom_adds hswitch).trans (hunlink.trans (recycleMessages_adds hmessages))

/-- Whether the process has gone is seen in the list of its threads. -/
theorem disposeRest_adds (hok : w.disposeRest proc thread = .ok w') :
    ((w.kernel.proc proc).thread = [] ∧ ∃ l, Adds [unlinks (process proc)] processes w.log l ∧
      w'.log = l ++ [returns (process proc)]) ∨
    ((w.kernel.proc proc).thread ≠ [] ∧ Adds [] processes w.log w'.log) := by
  have hread : ∀ l, Adds [] processes l (l ++ [reads (process proc)]) :=
    fun _ => Adds.read (mem_processes proc)
  unfold disposeRest at hok
  dsimp only at hok
  split at hok
  · next hnil =>
    obtain ⟨l, hadds, hlog⟩ := disposeEmpty_adds hok
    exact Or.inl ⟨hnil, l, (hread _).trans ((hread _).trans hadds), hlog⟩
  · next hcons =>
    refine Or.inr ⟨by rw [hcons]; exact List.cons_ne_nil _ _, ?_⟩
    split at hok
    · exact (hread _).trans ((hread _).trans ((hread _).trans (schedule_adds hok)))
    · cases hok
      exact (hread _).trans (hread _)

/-- What `disposeThread` reads. -/
def disposalReads (thread : Nat) : Set Record := insert (Record.thread thread) processes

/-- The records of processes are among what `disposeThread` reads. -/
theorem processes_subset : processes ⊆ disposalReads thread := Set.subset_insert _ _

/-- A read of the thread that is disposed. -/
theorem read_thread : Adds [] (disposalReads thread) l (l ++ [reads (Record.thread thread)]) :=
  Adds.read (Set.mem_insert _ _)

/-- The record of the process of the thread is read. -/
theorem read_process : Adds [] (disposalReads thread) l (l ++ [reads (process proc)]) :=
  Adds.read (processes_subset (mem_processes proc))

/-- The thread is unlinked. -/
theorem hideThread_adds : Adds [unlinks (Record.thread thread)] (disposalReads thread) w.log
    (w.hideThread proc thread).log := by
  have hlist : Adds [unlinks (Record.thread thread)] (disposalReads thread) w.log
      (w.log ++ [reads (Record.thread thread)] ++ [unlinks (Record.thread thread)] ++
        [reads (Record.thread thread)]) :=
    (read_thread.trans (Adds.note rfl)).trans read_thread
  unfold hideThread
  dsimp only
  split
  · exact hlist.trans read_process
  · exact hlist

/-- That is all that changes in the lists of threads. -/
theorem hideThread_sameThreads : Kernel.SameThreads
    (w.kernel.modProc proc fun P => { P with thread := P.thread.erase thread })
    (w.hideThread proc thread).kernel := by
  rw [hideThread_kernel]
  dsimp only
  split
  · exact Kernel.sameThreads_modProc _ fun _ => rfl
  · exact Kernel.SameThreads.refl _

/-- `avlThread` is counted down; no record goes. -/
theorem countThread_adds : Adds [] (disposalReads thread) w.log (w.countThread proc thread).log := by
  unfold countThread
  dsimp only
  split
  · exact read_thread.trans read_process
  · exact read_thread

/-- The lists of threads do not change with it. -/
theorem countThread_sameThreads : Kernel.SameThreads w.kernel (w.countThread proc thread).kernel := by
  rw [countThread_kernel]
  split
  · exact Kernel.sameThreads_modProc _ fun _ => rfl
  · exact Kernel.SameThreads.refl _

/-- The stack is given back; the record of the thread is read for it. -/
theorem recycleThreadStack_adds (hok : w.recycleThreadStack proc thread = .ok w') :
    Adds [] (disposalReads thread) w.log w'.log ∧ Kernel.SameThreads w.kernel w'.kernel := by
  obtain ⟨hlog, hkernel⟩ := call_ok (g := fun k => k.recycleThreadStack thread) hok
  rw [hlog]
  exact ⟨(read_thread.trans read_process).trans read_thread,
    Kernel.recycleThreadStack_sameThreads hkernel⟩

/-- **One `disposeThread`**: nothing is read behind `free` and `FREE_PAGES`. -/
theorem disposeThread_adds (hok : w.disposeThread thread = .ok w')
    (hproc : (w.kernel.thr thread).process = proc) :
    Kernel.SameThreads (w.kernel.modProc proc fun P => { P with thread := P.thread.erase thread })
      w'.kernel ∧
    (((w.kernel.proc proc).thread.erase thread = [] ∧ ∃ l,
      Adds [disposes thread, unlinks (Record.thread thread), unlinks (process proc)]
        (disposalReads thread) w.log l ∧
      w'.log = l ++ [returns (process proc)] ++ [returns (Record.thread thread)]) ∨
    ((w.kernel.proc proc).thread.erase thread ≠ [] ∧ ∃ l,
      Adds [disposes thread, unlinks (Record.thread thread)] (disposalReads thread) w.log l ∧
      w'.log = l ++ [returns (Record.thread thread)])) := by
  subst hproc
  obtain ⟨w₁, hstack, hok⟩ := bind_eq_ok.mp hok
  obtain ⟨w₂, hrest, hok⟩ := bind_eq_ok.mp hok
  obtain ⟨w₃, hpage, hok⟩ := bind_eq_ok.mp hok
  cases hok
  have hread : Adds [disposes thread] (disposalReads thread) w.log
      (w.log ++ [disposes thread] ++ [reads (Record.thread thread)]) := (Adds.note rfl).trans read_thread
  obtain ⟨hadds₁, hsame₁⟩ := recycleThreadStack_adds hstack
  obtain ⟨hlog₃, hkernel₃⟩ := call_ok (g := fun k => k.freePage thread) hpage
  -- the first part, up to the last `if`
  have hhead : Adds [disposes thread, unlinks (Record.thread thread)] (disposalReads thread) w.log
      (w₁.countThread (w.kernel.thr thread).process thread).log :=
    hread.trans (hideThread_adds.trans (hadds₁.trans countThread_adds))
  have hsame : Kernel.SameThreads
      (w.kernel.modProc (w.kernel.thr thread).process fun P => { P with thread := P.thread.erase thread })
      (w₁.countThread (w.kernel.thr thread).process thread).kernel :=
    (hideThread_sameThreads.trans hsame₁).trans countThread_sameThreads
  have hthread := hsame (w.kernel.thr thread).process
  rw [Kernel.modProc_proc_self] at hthread
  have hrest' := Kernel.disposeRest_sameThreads (erase_ok disposeRest_erase hrest)
  refine ⟨(hsame.trans hrest').trans (Kernel.freePage_sameThreads hkernel₃), ?_⟩
  -- with the last thread the process goes as well, and its record is given back before that of
  -- the thread
  rcases disposeRest_adds hrest with ⟨hnil, l, hadds, hlog⟩ | ⟨hne, hadds⟩
  · refine Or.inl ⟨hthread.symm.trans hnil, l, hhead.trans (hadds.mono processes_subset), ?_⟩
    rw [note_log, hlog₃, hlog]
    rfl
  · refine Or.inr ⟨fun hc => hne (hthread.trans hc), w₂.log,
      hhead.trans (hadds.mono processes_subset), ?_⟩
    rw [note_log, hlog₃]

/-! ## Reads of records that have gone back

The log of `disposeProcess` is clean up to its last access, the one with which the loop ends. That
one reads the record of the process after it was given back. -/

/-- No record is read behind the access that gives it back. -/
def Clean (as : List RecordAccess) : Prop := as.Pairwise fun a b => ∀ r, a = returns r → b ≠ reads r

theorem returns_mem_effects : returns r ∈ effects as ↔ returns r ∈ as := by
  unfold effects
  rw [List.mem_filter]
  exact and_iff_left rfl

/-- Where nothing is given back nothing is read afterwards. -/
theorem clean_of_notMem (h : ∀ r, returns r ∉ as) : Clean as :=
  List.pairwise_iff_forall_sublist.mpr fun hsub r ha =>
    absurd (hsub.subset (ha ▸ List.mem_cons_self)) (h r)

/-- Two parts are clean together if the second reads nothing the first has given back. -/
theorem clean_append : Clean (as ++ bs) ↔
    Clean as ∧ Clean bs ∧ ∀ r, returns r ∈ as → reads r ∉ bs := by
  unfold Clean
  rw [List.pairwise_append]
  refine and_congr_right fun _ => and_congr_right fun _ => ⟨fun h r hr hr' => ?_, ?_⟩
  · exact h _ hr _ hr' r rfl rfl
  · rintro h a ha b hb r rfl rfl
    exact h r ha hb

/-- Where nothing is read the log is clean. -/
theorem clean_of_notMem_reads (h : ∀ r, reads r ∉ as) : Clean as :=
  List.pairwise_iff_forall_sublist.mpr fun hsub r _ hb =>
    absurd (hsub.subset (hb ▸ List.mem_cons_of_mem _ List.mem_cons_self)) (h r)

/-- First reads, then records go back. -/
theorem clean_round (has : ∀ r, returns r ∉ as) (hbs : ∀ r, reads r ∉ bs) : Clean (as ++ bs) :=
  clean_append.mpr ⟨clean_of_notMem has, clean_of_notMem_reads hbs, fun r hr => absurd hr (has r)⟩

/-- What `disposeProcess` does besides reading when it disposes the threads in this order. -/
def teardown (proc : Nat) : List Nat → List RecordAccess
  | [] => []
  | [t] => [disposes t, unlinks (Record.thread t), unlinks (process proc), returns (process proc),
      returns (Record.thread t)]
  | t :: ts => disposes t :: unlinks (Record.thread t) :: returns (Record.thread t) :: teardown proc ts

/-- Every access but a read is counted among the effects. -/
theorem count_effects {a : RecordAccess} (ha : ∀ r, a ≠ reads r) : (effects as).count a = as.count a := by
  refine List.count_filter ?_
  cases a with
  | reads r => exact absurd rfl (ha r)
  | disposes t => rfl
  | unlinks r => rfl
  | returns r => rfl

/-- A thread is disposed as often as it is in the list. -/
theorem count_disposes (t : Nat) (ts : List Nat) : (teardown proc ts).count (disposes t) = ts.count t := by
  induction ts using teardown.induct with
  | case1 => rfl
  | case2 u => simp [teardown, List.count_cons]
  | case3 u ts hne ih =>
    rw [teardown]
    · simp [List.count_cons, ih]
    · exact hne

/-- Every record is unlinked once and goes back once. -/
theorem count_records {ts : List Nat} (hts : ts ≠ []) :
    (teardown proc ts).count (unlinks r) = (process proc :: ts.map Record.thread).count r ∧
      (teardown proc ts).count (returns r) = (process proc :: ts.map Record.thread).count r := by
  induction ts using teardown.induct with
  | case1 => exact absurd rfl hts
  | case2 u =>
    simp [teardown, List.count_cons]
    omega
  | case3 u ts hne ih =>
    rw [teardown]
    · simp [List.count_cons, ih hne]
      omega
    · exact hne

/-- The accesses of `disposeProcess` but the last, for the threads `ts` in this order. -/
structure Sequence (proc : Nat) (ts : List Nat) (as : List RecordAccess) : Prop where
  effects : effects as = teardown proc ts
  clean : Clean as
  reads : ∀ r, reads r ∈ as → r ∈ processes ∨ ∃ t ∈ ts, r = Record.thread t

/-- What the disposal of one of the threads reads is among what the whole teardown reads. -/
theorem read_or {ts : List Nat} {t : Nat} (ht : t ∈ ts) (hr : r ∈ disposalReads t) :
    r ∈ processes ∨ ∃ t ∈ ts, r = Record.thread t :=
  (Set.mem_insert_iff.mp hr).elim (fun heq => Or.inr ⟨t, ht, heq⟩) Or.inl

/-- What a round that ends with `rs` does before. -/
theorem read_first {t : Nat} (hreads : ∀ r, reads r ∈ as → r ∈ disposalReads t)
    (hr : reads r ∈ reads (process proc) :: as) : r ∈ disposalReads t := by
  rcases List.mem_cons.mp hr with heq | hr
  · exact processes_subset ⟨proc, reads.inj heq⟩
  · exact hreads r hr

/-- The disposal of the last thread, which takes the process with it. -/
theorem Sequence.last {t : Nat}
    (heff : Watched.effects as = [disposes t, unlinks (Record.thread t), unlinks (process proc)])
    (hreads : ∀ r, RecordAccess.reads r ∈ as → r ∈ disposalReads t) :
    Sequence proc [t] (RecordAccess.reads (process proc) :: as ++
      [returns (process proc), returns (Record.thread t)]) where
  effects := by
    rw [effects_append]
    exact congrArg (· ++ _) heff
  clean := by
    refine clean_round (fun r hr => ?_) (by simp)
    rw [← returns_mem_effects] at hr
    rw [show Watched.effects (RecordAccess.reads (process proc) :: as) = Watched.effects as from rfl, heff] at hr
    simp at hr
  reads r hr := by
    rcases List.mem_append.mp hr with hr | hr
    · exact read_or List.mem_cons_self (read_first hreads hr)
    · simp at hr

/-- A read of the process in front. -/
theorem Sequence.cons {ts : List Nat} (hs : Sequence proc ts as) :
    Sequence proc ts (RecordAccess.reads (process proc) :: as) where
  effects := hs.effects
  clean := by
    refine clean_append.mpr (show Clean [RecordAccess.reads (process proc)] ∧ _ from ?_)
    exact ⟨clean_of_notMem (by simp), hs.clean, by simp⟩
  reads r hr := by
    rcases List.mem_cons.mp hr with heq | hr
    · exact Or.inl ⟨proc, RecordAccess.reads.inj heq⟩
    · exact hs.reads r hr

/-- One thread before those of `ts`. The thread is not among them, so that its record is not read
again. -/
theorem Sequence.next {t : Nat} {ts : List Nat} (hs : Sequence proc ts bs) (hts : ts ≠ []) (ht : t ∉ ts)
    (heff : Watched.effects as = [disposes t, unlinks (Record.thread t)])
    (hreads : ∀ r, RecordAccess.reads r ∈ as → r ∈ disposalReads t) :
    Sequence proc (t :: ts) ((RecordAccess.reads (process proc) :: as ++ [returns (Record.thread t)]) ++
      RecordAccess.reads (process proc) :: bs) := by
  have hfirst : ∀ r, returns r ∉ RecordAccess.reads (process proc) :: as := fun r hr => by
    rw [← returns_mem_effects] at hr
    rw [show Watched.effects (RecordAccess.reads (process proc) :: as) = Watched.effects as from rfl, heff] at hr
    simp at hr
  refine ⟨?_, ?_, fun r hr => ?_⟩
  · rw [effects_append, effects_append, teardown]
    · exact congrArg₂ (· ++ [returns (Record.thread t)] ++ ·) heff hs.effects
    · exact hts
  · refine clean_append.mpr ⟨clean_round hfirst (by simp), hs.cons.clean, fun r hr hr' => ?_⟩
    -- only the thread has gone back, and it is not among those left
    obtain rfl : r = Record.thread t := by
      rcases List.mem_append.mp hr with hr | hr
      · exact absurd hr (hfirst r)
      · exact returns.inj (List.mem_singleton.mp hr)
    rcases hs.cons.reads _ hr' with ⟨q, hq⟩ | ⟨u, hu, heq⟩
    · exact nomatch hq
    · exact ht (Record.thread.inj heq ▸ hu)
  · rcases List.mem_append.mp hr with hr | hr
    · rcases List.mem_append.mp hr with hr | hr
      · exact read_or List.mem_cons_self (read_first hreads hr)
      · simp at hr
    · exact (hs.cons.reads r hr).imp_right fun ⟨u, hu, heq⟩ => ⟨u, List.mem_cons_of_mem t hu, heq⟩

/-! ## The loop

`disposeThreads` takes the current thread each time, so the order is that of the scheduler and not
of the list: the log speaks of a permutation of the threads. What is known of the state between
two rounds is the invariant of the kernel. -/

section Careful

variable {phy : Prop} {pool : Set Nat}

/-- **The rounds of `disposeProcess`**, by the number of threads: every access but the last read is
to a record that is still allocated. -/
theorem disposeThreads_log (h : w.kernel.Inv phy pool) (hp : proc ∈ w.kernel.processTable)
    (hn : (w.kernel.proc proc).thread.length = n) (hw : w.kernel.NormalWindows proc)
    (hok : disposeThreads proc n w = .ok w') :
    ∃ ts as, ts.Perm (w.kernel.proc proc).thread ∧
      w'.log = w.log ++ as ++ [reads (process proc)] ∧ Sequence proc ts as := by
  have hP := h.procOk hp
  have hcur := hP.current
  -- on the number of threads; the invariant gives the state of the next round
  induction n generalizing w with
  | zero => exact absurd (List.length_eq_zero_iff.mp hn) (List.ne_nil_of_mem hcur)
  | succ n ih =>
    obtain ⟨w₁, hround, hok⟩ := bind_eq_ok.mp hok
    set t := (w.kernel.proc proc).current
    have hkernel : w.kernel.disposeThread t = .ok w₁.kernel :=
      erase_ok (disposeThread_erase (w := w.reading (process proc))) hround
    obtain ⟨h₁, hD⟩ := (Kernel.disposeThread_spec h hp hcur (hw t hcur)).elim hkernel
    have hsame : (w₁.kernel.proc proc).thread = (w.kernel.proc proc).thread.erase t := hD.thread
    have hadds : ((w.kernel.proc proc).thread.erase t = [] ∧ ∃ l,
        Adds [disposes t, unlinks (Record.thread t), unlinks (process proc)] (disposalReads t)
          (w.log ++ [reads (process proc)]) l ∧
        w₁.log = l ++ [returns (process proc)] ++ [returns (Record.thread t)]) ∨
      ((w.kernel.proc proc).thread.erase t ≠ [] ∧ ∃ l,
        Adds [disposes t, unlinks (Record.thread t)] (disposalReads t)
          (w.log ++ [reads (process proc)]) l ∧ w₁.log = l ++ [returns (Record.thread t)]) :=
      (disposeThread_adds (w := w.reading (process proc)) hround (hP.back t hcur)).2
    rcases hadds with ⟨hnil, l, ⟨as, hl, heff, hreads⟩, hlog⟩ | ⟨hne, l, ⟨as, hl, heff, hreads⟩, hlog⟩
    · -- the last round
      have hnot : ¬ (w₁.kernel.proc proc).thread ≠ [] := not_not.mpr (hsame.trans hnil)
      obtain rfl : w₁.reading (process proc) = w' := Except.ok.inj ((if_neg hnot).symm.trans hok)
      have hsingle := (Kernel.erase_eq_nil hcur).mp hnil
      refine ⟨[t], _, by rw [hsingle], ?_, Sequence.last heff hreads⟩
      rw [reading_log, hlog, hl]
      simp
    · have hne₁ : (w₁.kernel.proc proc).thread ≠ [] := fun hc => hne (hsame.symm.trans hc)
      -- the process is still there, and the rest is another such teardown
      have hrest : disposeThreads proc n (w₁.reading (process proc)) = .ok w' :=
        (if_pos hne₁).symm.trans hok
      have hring : w₁.kernel.processTable = w.kernel.processTable := by
        rw [hD.processTable, if_neg fun hc => hne ((Kernel.erase_eq_nil hcur).mpr hc)]
      have hp₁ : proc ∈ w₁.kernel.processTable := hring ▸ hp
      have hP₁ := h₁.procOk hp₁
      have hlen : (w₁.kernel.proc proc).thread.length = n := by
        rw [hsame, List.length_erase_of_mem hcur, hn]
        rfl
      obtain ⟨ts, as', hperm, hlog', hs⟩ := ih (w := w₁.reading (process proc)) h₁ hp₁ hlen
        (hD.normalWindows hp₁ h₁.layout hP.nodup hw) hrest hP₁ hP₁.current
      have hperm : ts.Perm ((w.kernel.proc proc).thread.erase t) := hsame ▸ hperm
      refine ⟨t :: ts, _, (hperm.cons t).trans (List.perm_cons_erase hcur).symm, ?_,
        hs.next (fun hc => hne (List.nil_perm.mp (hc ▸ hperm)))
          (fun hc => hP.nodup.not_mem_erase (hperm.mem_iff.mp hc)) heff hreads⟩
      rw [hlog', reading_log, hlog, hl]
      simp

end Careful

/-- The last round reads the record of the process once more, in any state: only a round for the
process itself can leave it without threads. -/
theorem disposeThreads_reads (hne : (w.kernel.proc proc).thread ≠ [])
    (hok : disposeThreads proc n w = .ok w') :
    ∃ l, w'.log = l ++ [reads (process proc)] ∧ returns (process proc) ∈ l := by
  induction n generalizing w with
  | zero => exact nomatch hok
  | succ n ih =>
    obtain ⟨w₁, hround, hok⟩ := bind_eq_ok.mp hok
    obtain ⟨hsame, hadds⟩ := disposeThread_adds (w := w.reading (process proc)) hround rfl
    set t := (w.kernel.proc proc).current
    set q := (w.kernel.thr t).process
    have hthread : (w₁.kernel.proc proc).thread =
        if proc = q then (w.kernel.proc q).thread.erase t else (w.kernel.proc proc).thread := by
      rw [hsame proc, Kernel.modProc_proc]
      exact apply_ite Process.thread ..
    -- the round that empties the list gives the record back
    have hlast : (w.kernel.proc q).thread.erase t = [] → returns (process q) ∈ w₁.log := by
      intro hnil
      rcases hadds with ⟨-, l, -, hlog⟩ | ⟨hleft, -⟩
      · rw [hlog]
        exact List.mem_append_left _ (List.mem_append_right _ (List.mem_singleton_self _))
      · exact absurd hnil hleft
    by_cases hnil : (w₁.kernel.proc proc).thread = []
    · obtain rfl : w₁.reading (process proc) = w' :=
        Except.ok.inj ((if_neg (not_not.mpr hnil)).symm.trans hok)
      refine ⟨w₁.log, rfl, ?_⟩
      by_cases hq : proc = q
      · rw [if_pos hq] at hthread
        rw [hq]
        exact hlast (hthread.symm.trans hnil)
      · rw [if_neg hq] at hthread
        exact absurd (hthread.symm.trans hnil) hne
    · exact ih (w := w₁.reading (process proc)) hnil ((if_pos hnil).symm.trans hok)

/-- A read behind the giving back is enough. -/
theorem not_clean (h : returns r ∈ l) : ¬ Clean (l ++ [reads r]) := fun hc =>
  (clean_append.mp hc).2.2 r h (List.mem_singleton_self _)

end Watched

namespace Kernel

open Watched Record RecordAccess

variable {k k' : Kernel} {pool : Set Nat} {phy : Prop} {p : Nat} {regs : StackFrame}
  {w : Watched}

/-- Behind `disposeProcess`: every thread was disposed once, and every record unlinked and given
back once. The memory of the process is free and was not, and the other processes are as they were,
but for what the scheduler writes. -/
structure Torn (k : Kernel) (p : Nat) (w : Watched) : Prop where
  disposes : ∀ t, w.log.count (disposes t) = if t ∈ (k.proc p).thread then 1 else 0
  unlinks : ∀ r, w.log.count (unlinks r) =
    if r ∈ process p :: (k.proc p).thread.map Record.thread then 1 else 0
  returns : ∀ r, w.log.count (.returns r) =
    if r ∈ process p :: (k.proc p).thread.map Record.thread then 1 else 0
  processTable : w.kernel.processTable = k.processTable.erase p
  wellFormed : w.kernel.heap.WellFormed
  allocated : Disjoint (k.framesOf p) k.heap.freeSet
  freeSet : w.kernel.heap.freeSet = k.heap.freeSet ∪ k.framesOf p
  thr : w.kernel.thr = k.thr
  other : ∀ q, q ≠ p → w.kernel.proc q =
    { k.proc q with flag := (w.kernel.proc q).flag, ticks := (w.kernel.proc q).ticks }

/-- `disposeProcess` returns, has disposed what it should, and has read no record that had gone
back. -/
def TearsDown (k : Kernel) (p : Nat) : Prop :=
  ∃ w, k.watch.disposeProcess p = .ok w ∧ Torn k p w ∧ Clean w.log

/-- In no state does `disposeProcess` of a process with threads get by without such a read. -/
theorem disposeProcess_not_clean (hthreads : (k.proc p).thread ≠ [])
    (hok : k.watch.disposeProcess p = .ok w) : ¬ Clean w.log := by
  have hrounds : Watched.disposeThreads p (k.proc p).thread.length (k.watch.reading (process p)) = .ok w :=
    (if_pos hthreads).symm.trans hok
  obtain ⟨l, hlog, hmem⟩ := disposeThreads_reads hthreads hrounds
  rw [hlog]
  exact not_clean hmem

/-- What the log of the sequence says, and what the kernel is like afterwards, is together what is
asked of a teardown. -/
theorem Exited.torn (h : k.Inv phy pool) (hp : p ∈ k.processTable) (h' : w.kernel.Inv phy pool)
    (hE : Exited k pool p w.kernel) {ts : List Nat} {as : List RecordAccess}
    (hperm : ts.Perm (k.proc p).thread) (hlog : w.log = as ++ [reads (process p)])
    (hs : Sequence p ts as) : Torn k p w := by
  have hP := h.procOk hp
  have hts : ts ≠ [] := fun hc => List.ne_nil_of_mem hP.current (List.nil_perm.mp (hc ▸ hperm))
  have hcount : ∀ a, (∀ r, a ≠ reads r) → w.log.count a = (teardown p ts).count a := fun a ha => by
    have heff : (teardown p ts).count a = as.count a :=
      (congrArg (List.count a) hs.effects).symm.trans (count_effects ha)
    have hread : [reads (process p)].count a = 0 :=
      List.count_eq_zero_of_not_mem fun hmem => ha _ (List.mem_singleton.mp hmem)
    rw [hlog, List.count_append, hread, heff, Nat.add_zero]
  -- every record is there once, so counting is membership
  have hnodup : (process p :: (k.proc p).thread.map Record.thread).Nodup := by
    refine List.nodup_cons.mpr ⟨by simp, hP.nodup.map fun _ _ heq => Record.thread.inj heq⟩
  have hrecords : ∀ r, (process p :: ts.map Record.thread).count r =
      if r ∈ process p :: (k.proc p).thread.map Record.thread then 1 else 0 := fun r => by
    rw [((hperm.map Record.thread).cons (process p)).count_eq, hnodup.count]
  refine ⟨fun t => ?_, fun r => ?_, fun r => ?_, hE.processTable, h'.owned.wellFormed, ?_,
    hE.freeSet h h', hE.thr, hE.other⟩
  · rw [hcount (disposes t) (fun _ => nofun), count_disposes, hperm.count_eq, hP.nodup.count]
  · rw [hcount (unlinks r) (fun _ => nofun), (count_records hts).1, hrecords]
  · rw [hcount (.returns r) (fun _ => nofun), (count_records hts).2, hrecords]
  · refine Set.disjoint_left.mpr ?_
    rintro x ⟨o, -, f, ho, hxf⟩ hfree
    exact Set.disjoint_left.mp (h.owned.accounts.unfree ho) hxf hfree

/-- **`disposeProcess` behind `schedule(2)`**: all is torn down, and all reads but the last are of
records that are still allocated. -/
theorem disposeProcess_torn (h : k.Inv phy pool) (hp : p ∈ k.processTable) (hw : k.NormalWindows p)
    (hdoom : Doomed k p) : ∃ w as, k.watch.disposeProcess p = .ok w ∧ Torn k p w ∧
      w.log = as ++ [reads (process p)] ∧ Clean as := by
  have hne := List.ne_nil_of_mem (h.procOk hp).current
  obtain ⟨k', hok⟩ := disposeProcess_returns h hp hw hdoom
  obtain ⟨w, hok', hk'⟩ := map_eq_ok.mp ((disposeProcess_erase (w := k.watch)).trans hok)
  obtain ⟨h', hE⟩ := (disposeProcess_spec h hp hw).elim hok
  rw [← hk'] at h' hE
  have hrounds : Watched.disposeThreads p (k.proc p).thread.length (k.watch.reading (process p)) = .ok w :=
    (if_pos hne).symm.trans hok'
  obtain ⟨ts, as, hperm, hlog, hs⟩ := disposeThreads_log (w := k.watch.reading (process p)) h hp rfl hw hrounds
  have hlog : w.log = (reads (process p) :: as) ++ [reads (process p)] := hlog
  exact ⟨w, _, hok', hE.torn h hp h' hperm hlog hs.cons, hlog, hs.cons.clean⟩

/-- **Teardown.** The running process is killed: `k.save regs` is the state at entry, and `k'` the
state when the handler calls `disposeProcess`. Whatever the state is, the call reads the record of
the process after it has gone back. In a careful run that is all that goes wrong. -/
theorem run_teardown (hok : (k.save regs).schedule 2 = .ok k')
    (hthreads : (k'.proc k.currentProc).thread ≠ []) :
    ¬ TearsDown k' k.currentProc ∧
      ∀ (k₀ k₁ : Kernel) (kernelPDE ip : Nat) (es : List Event), k₀.Boot kernelPDE →
        k₀.initProc kernelPDE ip = .ok k₁ → Run EntersCarefully k₁ es k →
        k.NormalWindows k.currentProc → ∃ w as, k'.watch.disposeProcess k.currentProc = .ok w ∧
          Torn k' k.currentProc w ∧ w.log = as ++ [reads (process k.currentProc)] ∧ Clean as := by
  refine ⟨fun ⟨_, hdisposed, _, hclean⟩ => disposeProcess_not_clean hthreads hdisposed hclean,
    fun k₀ k₁ kernelPDE ip es hB hinit hrun hw => ?_⟩
  obtain ⟨pool, -, h⟩ := hB.run_inv hinit hrun
  have hS := schedule_spec.elim hok
  have h' := h.save.scheduled hS
  have hp : k.currentProc ∈ k'.processTable := by
    rw [hS.processTable]
    exact h.threads.running
  have hw' : k'.NormalWindows k.currentProc :=
    hS.normalWindows h.save h.threads.running (normalWindows_save.mpr hw)
  exact disposeProcess_torn h' hp hw' (doomed_of_schedule (k := k.save regs) hok)

/-- A process with a second thread runs and can be killed. -/
theorem exists_killed : ∃ (k₀ k₁ k k' : Kernel) (es : List Event), k₀.Boot 0 ∧
    k₀.initProc 0 0 = .ok k₁ ∧ Run EntersCarefully k₁ es k ∧ k.Mortal k.currentProc ∧
    (k'.proc k.currentProc).thread.length = 2 ∧ (k.save noRegs).schedule 2 = .ok k' := by
  obtain ⟨k₀, k₁, k, hB, -, hinit, hrun, hmortal, hlength, hsched⟩ := run_of_booted_any
    (a := 0xC0400000) (n := 0x400000) (P := fun k => k.currentProc ∈ k.processTable.tail ∧
      (k.proc k.currentProc).thread.length = 2 ∧ ((k.save noRegs).schedule 2).isOk = true)
    (l := [.createProcess 0 0 100, call 6 0 0 0, call 2 0 0 0]) (by decide +kernel)
  obtain ⟨k', hok⟩ := exists_of_isOk hsched
  have hS := schedule_spec.elim hok
  refine ⟨k₀, k₁, k, k', _, hB, hinit, run_of_plain (by simp [Plain, call, noRegs]) hrun, hmortal, ?_, hok⟩
  rw [hS.proc]
  exact hlength

/-- Such a state with two threads, in which the teardown reads what it has given back. -/
theorem run_teardown_two : ∃ (k k' : Kernel), (k.save noRegs).schedule 2 = .ok k' ∧
    (k'.proc k.currentProc).thread.length = 2 ∧ ¬ TearsDown k' k.currentProc := by
  obtain ⟨k₀, k₁, k, k', es, hB, hinit, hrun, hmortal, hlength, hok⟩ := exists_killed
  have hthreads : (k'.proc k.currentProc).thread ≠ [] :=
    List.ne_nil_of_length_pos (hlength ▸ Nat.two_pos)
  exact ⟨k, k', hok, hlength, (run_teardown hok hthreads).1⟩

/-- `list_empty(&proc->thread)` behind `free(proc)`. -/
theorem not_run_tearsDown : ¬ ∀ (k₀ k₁ k k' : Kernel) (kernelPDE ip : Nat) (regs : StackFrame)
    (es : List Event), k₀.Boot kernelPDE → k₀.initProc kernelPDE ip = .ok k₁ →
    Run EntersCarefully k₁ es k → k.Mortal k.currentProc → (k'.proc k.currentProc).thread ≠ [] →
    (k.save regs).schedule 2 = .ok k' → TearsDown k' k.currentProc := by
  intro hall
  obtain ⟨k₀, k₁, k, k', es, hB, hinit, hrun, hmortal, hlength, hok⟩ := exists_killed
  have hthreads : (k'.proc k.currentProc).thread ≠ [] :=
    List.ne_nil_of_length_pos (hlength ▸ Nat.two_pos)
  obtain ⟨w, hdisposed, -, hclean⟩ := hall k₀ k₁ k k' 0 0 noRegs es hB hinit hrun hmortal hthreads hok
  exact disposeProcess_not_clean hthreads hdisposed hclean

end Kernel

end NorlitOS
