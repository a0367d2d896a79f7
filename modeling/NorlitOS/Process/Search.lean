import NorlitOS.Process.Replay

/-!
# The search of the scheduler

`searchRounds` is the loop `while (p_ready == NULL)` of `schedule`, given up after a number of
rounds. A round that finds no ready process gives them new ticks, and a second refill changes
nothing, so the search ends in the first two rounds or never. It ends exactly if a process has
the flag 0 after the flag of the caller has been written, and ticks to run on.

`SYSCALL_NICE` writes the flag 2, and 0 only after `schedule` has returned. So a process that is
the only one ready never comes back from it.
-/

namespace NorlitOS

namespace Kernel

variable {k k' : Kernel} {p q : Nat}

/-! ## One round -/

theorem mostTicks_eq_none_iff {proc : Nat → Process} {ring : List Nat} {greatest : Int}
    {ready : Option Nat} : mostTicks proc ring greatest ready = none ↔
      ready = none ∧ ∀ p ∈ ring, (proc p).flag = 0 → (proc p).ticks ≤ greatest := by
  induction ring generalizing greatest ready with
  | nil => simp [mostTicks]
  | cons q ring ih =>
    rw [mostTicks, List.forall_mem_cons]
    split
    · next hq =>
      rw [ih]
      constructor
      · exact fun h => absurd h.1 (Option.some_ne_none q)
      · exact fun h => absurd (h.2.1 hq.1) (not_le.mpr hq.2)
    · next hq =>
      have hle : (proc q).flag = 0 → (proc q).ticks ≤ greatest :=
        fun hf => not_lt.mp fun hlt => hq ⟨hf, hlt⟩
      rw [ih]
      exact ⟨fun h => ⟨h.1, hle, h.2⟩, fun h => ⟨h.1, h.2.2⟩⟩

/-- Who is found has more ticks than were asked for. -/
theorem mostTicks_gt {proc : Nat → Process} {ring : List Nat} {greatest : Int}
    {ready : Option Nat} (h : mostTicks proc ring greatest ready = some p) :
    ready = some p ∨ greatest < (proc p).ticks := by
  induction ring generalizing greatest ready with
  | nil => exact Or.inl h
  | cons q ring ih =>
    rw [mostTicks] at h
    split at h
    · next hq =>
      apply Or.inr
      cases ih h with
      | inl hqp =>
        obtain rfl := Option.some.inj hqp
        exact hq.2
      | inr hlt => exact hq.2.trans hlt
    · exact ih h

theorem refill_ticks {ring : List Nat} : ((k.refill ring).proc q).ticks =
    if q ∈ ring ∧ (k.proc q).flag = 0 then s32 (k.proc q).priority else (k.proc q).ticks := by
  induction ring generalizing k with
  | nil => simp [refill]
  | cons p ring ih =>
    rw [refill]
    split
    · next hp =>
      rw [ih]
      by_cases hq : q = p
      · subst hq
        simp [hp]
      · simp [modProc_proc_of_ne hq, hq]
    · next hp =>
      rw [ih]
      by_cases hq : q = p
      · subst hq
        simp [hp]
      · simp [hq]

/-! ## The loop -/

/-- `while (p_ready == NULL)`, for so many rounds. -/
def searchRounds (k : Kernel) : Nat → Option (Nat × Kernel)
  | 0 => none
  | n + 1 =>
    match mostTicks k.proc k.processTable 0 none with
    | some p => some (p, k)
    | none => (k.refill k.processTable).searchRounds n

/-- Process `p` has ticks to run on, at once or after a refill. -/
def Runnable (k : Kernel) (p : Nat) : Prop :=
  (k.proc p).flag = 0 ∧ (0 < (k.proc p).ticks ∨ 0 < s32 (k.proc p).priority)

/-- A refill makes nobody runnable who was not. -/
theorem runnable_refill : (k.refill k.processTable).Runnable p → k.Runnable p := by
  intro ⟨hflag, hticks⟩
  have hS : SameButTicks k (k.refill k.processTable) := refill_sameButTicks _
  rw [hS.proc] at hflag
  have hprio : ((k.refill k.processTable).proc p).priority = (k.proc p).priority := by rw [hS.proc]
  rw [refill_ticks, hprio] at hticks
  refine ⟨hflag, ?_⟩
  split at hticks
  · exact Or.inr (hticks.elim id id)
  · exact hticks

/-- Without a runnable process every round is like the one before. -/
theorem searchRounds_none (h : ∀ p ∈ k.processTable, ¬ k.Runnable p) (n : Nat) :
    k.searchRounds n = none := by
  induction n generalizing k with
  | zero => rfl
  | succ n ih =>
    have hnone : mostTicks k.proc k.processTable 0 none = none := by
      apply mostTicks_eq_none_iff.mpr
      exact ⟨rfl, fun p hp hf => not_lt.mp fun hlt => h p hp ⟨hf, Or.inl hlt⟩⟩
    have hring : (k.refill k.processTable).processTable = k.processTable :=
      (refill_sameButTicks _).processTable
    rw [searchRounds, hnone]
    apply ih
    rw [hring]
    exact fun p hp hr => h p hp (runnable_refill hr)

/-- A process that is runnable is found, in the second round at the latest. -/
theorem searchRounds_of_runnable (hp : p ∈ k.processTable) (h : k.Runnable p) :
    ∃ r, k.searchRounds 2 = some r := by
  obtain ⟨hflag, hticks⟩ := h
  rw [searchRounds]
  cases hfirst : mostTicks k.proc k.processTable 0 none with
  | some q => exact ⟨(q, k), rfl⟩
  | none =>
    simp only
    rw [searchRounds]
    have hS : SameButTicks k (k.refill k.processTable) := refill_sameButTicks _
    cases hsecond : mostTicks (k.refill k.processTable).proc
        (k.refill k.processTable).processTable 0 none with
    | some q => exact ⟨(q, _), rfl⟩
    | none =>
      -- after the refill it has as many ticks as its priority
      have hle := (mostTicks_eq_none_iff.mp hfirst).2 p hp hflag
      have hprio := hticks.resolve_left (not_lt.mpr hle)
      have hle' := (mostTicks_eq_none_iff.mp hsecond).2 p (hS.processTable.symm ▸ hp) (by
        rw [hS.proc]
        exact hflag)
      rw [refill_ticks, if_pos ⟨hp, hflag⟩] at hle'
      exact absurd hprio (not_lt.mpr hle')

/-- **The search ends** exactly if there is a runnable process. -/
theorem searchRounds_ends_iff :
    (∃ n r, k.searchRounds n = some r) ↔ ∃ p ∈ k.processTable, k.Runnable p := by
  constructor
  · rintro ⟨n, r, hr⟩
    by_contra hnone
    push Not at hnone
    rw [searchRounds_none hnone] at hr
    exact nomatch hr
  · rintro ⟨p, hp, h⟩
    exact ⟨2, searchRounds_of_runnable hp h⟩

/-- More rounds do not change what has been found. -/
theorem searchRounds_mono {n m : Nat} {r : Nat × Kernel} (hnm : n ≤ m)
    (h : k.searchRounds n = some r) : k.searchRounds m = some r := by
  induction n generalizing k m with
  | zero => exact nomatch h
  | succ n ih =>
    cases m with
    | zero => omega
    | succ m =>
      rw [searchRounds] at h ⊢
      cases hfirst : mostTicks k.proc k.processTable 0 none with
      | some q =>
        rw [hfirst] at h
        exact h
      | none =>
        rw [hfirst] at h
        exact ih (by omega) h

theorem pickReady_eq : k.pickReady =
    match k.searchRounds 2 with
    | some r => .ok r
    | none => .error .hang := by
  unfold pickReady
  rw [searchRounds]
  cases mostTicks k.proc k.processTable 0 none with
  | some q => rfl
  | none =>
    simp only
    rw [searchRounds]
    cases mostTicks (k.refill k.processTable).proc (k.refill k.processTable).processTable 0 none with
    | some q => rfl
    | none => rfl

/-- `pickReady` is the loop: it returns what the loop finds, and hangs if the loop does not end. -/
theorem pickReady_eq_ok_iff {r : Nat × Kernel} :
    k.pickReady = .ok r ↔ ∃ n, k.searchRounds n = some r := by
  rw [pickReady_eq]
  cases h2 : k.searchRounds 2 with
  | some r₂ =>
    constructor
    · intro hok
      cases hok
      exact ⟨2, h2⟩
    · rintro ⟨n, hn⟩
      -- more rounds give the same result
      have hmax := searchRounds_mono (Nat.le_max_left n 2) hn
      rw [searchRounds_mono (Nat.le_max_right n 2) h2] at hmax
      rw [Option.some.inj hmax]
  | none =>
    constructor
    · exact nofun
    · rintro ⟨n, hn⟩
      obtain ⟨p, hp, hrun⟩ := searchRounds_ends_iff.mp ⟨n, r, hn⟩
      obtain ⟨r₂, hr₂⟩ := searchRounds_of_runnable hp hrun
      rw [h2] at hr₂
      exact nomatch hr₂

/-- `schedule` returns exactly if its loop ends. -/
theorem schedule_returns_iff {flag : Nat} : (∃ k', k.schedule flag = .ok k') ↔
    ∃ n r, (k.modProc k.currentProc fun P => { P with flag := flag }).searchRounds n = some r := by
  constructor
  · rintro ⟨k', hok⟩
    unfold schedule at hok
    obtain ⟨r, hr, -⟩ := bind_eq_ok.mp hok
    obtain ⟨n, hn⟩ := pickReady_eq_ok_iff.mp hr
    exact ⟨n, r, hn⟩
  · rintro ⟨n, r, hn⟩
    exact ⟨_, bind_eq_ok.mpr ⟨r, pickReady_eq_ok_iff.mpr ⟨n, hn⟩, rfl⟩⟩

/-! ## The calls of `schedule` -/

/-- Who calls `schedule`: `SYSCALL_NICE`, the timer, a thread that has to wait for a message, a
disposed thread that leaves others of its process behind, and a process at its end. -/
inductive Caller where
  | nice
  | tick
  | receive
  | disposeThread
  | disposeProcess
  deriving DecidableEq

/-- The argument of the call. -/
def Caller.flag : Caller → Nat
  | .nice => 2
  | .tick => 0
  | .receive => 1
  | .disposeThread => 0
  | .disposeProcess => 2

/-- The state in which the search begins. -/
def searched (k : Kernel) (c : Caller) : Kernel :=
  k.modProc k.currentProc fun P => { P with flag := c.flag }

/-- A process is willing to run: the caller, if it has called `SYSCALL_NICE` or was preempted, or
another one with the flag 0. -/
def Willing (k : Kernel) (c : Caller) : Prop :=
  ∃ p ∈ k.processTable, (p = k.currentProc ∧ (c = .nice ∨ c = .tick)) ∨
    (p ≠ k.currentProc ∧ (k.proc p).flag = 0)

/-- What is asked of a call: the loop ends, and `SYSCALL_NICE` returns to its caller when no other
process is willing to run. -/
structure Served (k : Kernel) (c : Caller) : Prop where
  ends : ∃ n r, (k.searched c).searchRounds n = some r
  returns : c = .nice → (∀ q ∈ k.processTable, q ≠ k.currentProc → (k.proc q).flag ≠ 0) →
    ∃ k', k.sysNice = .ok k' ∧ k'.currentProc = k.currentProc

theorem searched_runnable {c : Caller} : (k.searched c).Runnable p ↔
    (if p = k.currentProc then c.flag else (k.proc p).flag) = 0 ∧
      (0 < (k.proc p).ticks ∨ 0 < s32 (k.proc p).priority) := by
  unfold Runnable searched
  rw [modProc_proc]
  split
  · next h => rw [h]
  · rfl

/-- A willing process is found unless it called `SYSCALL_NICE`. -/
theorem Willing.served {c : Caller} (h : k.Willing c) (hc : c ≠ .nice)
    (hprio : ∀ p ∈ k.processTable, 0 < s32 (k.proc p).priority) : k.Served c := by
  refine ⟨?_, fun hnice => absurd hnice hc⟩
  obtain ⟨p, hp, hor⟩ := h
  apply searchRounds_ends_iff.mpr
  refine ⟨p, hp, searched_runnable.mpr ⟨?_, Or.inr (hprio p hp)⟩⟩
  rcases hor with ⟨rfl, hcaller⟩ | ⟨hne, hflag⟩
  · rw [if_pos rfl, hcaller.resolve_left hc]
    rfl
  · rw [if_neg hne]
    exact hflag

/-- **When the scheduler comes back.** A call is served exactly if some process has the flag 0
once the flag of the caller has been overwritten, and ticks, or a priority that gives it some. -/
theorem served_iff {c : Caller} : k.Served c ↔
    ∃ p ∈ k.processTable, (if p = k.currentProc then c.flag else (k.proc p).flag) = 0 ∧
      (0 < (k.proc p).ticks ∨ 0 < s32 (k.proc p).priority) := by
  have hends : (∃ n r, (k.searched c).searchRounds n = some r) ↔
      ∃ p ∈ k.processTable, (k.searched c).Runnable p := searchRounds_ends_iff
  simp only [searched_runnable] at hends
  constructor
  · exact fun h => hends.mp h.ends
  · intro h
    refine ⟨hends.mpr h, fun hnice hnone => ?_⟩
    -- the process that is found is not the caller
    obtain ⟨p, hp, hflag, -⟩ := h
    subst hnice
    by_cases hpc : p = k.currentProc
    · rw [if_pos hpc] at hflag
      exact absurd hflag (by decide)
    · rw [if_neg hpc] at hflag
      exact absurd hflag (hnone p hp hpc)

/-- Init, alone after boot, calls `SYSCALL_NICE`. -/
theorem not_served : ¬ ∀ (k k₁ k' : Kernel) (kernelPDE ip : Nat) (es : List Event) (c : Caller),
    k.Boot kernelPDE → k.initProc kernelPDE ip = .ok k₁ → Run Enters k₁ es k' →
      (∀ p ∈ k'.processTable, 0 < (k'.proc p).priority) → k'.Willing c → k'.Served c := by
  intro hall
  obtain ⟨k, k₁, k', hB, -, hinit, hrun, hring, hprio⟩ := run_of_booted_any (a := 0xC0400000)
    (n := 0x400000) (l := []) (P := fun k => k.processTable = [k.currentProc] ∧
      ∀ p ∈ k.processTable, 0 < (k.proc p).priority) (by decide +kernel)
  have hmem : k'.currentProc ∈ k'.processTable := by
    rw [hring]
    exact List.mem_singleton_self _
  have hserved := hall k k₁ k' 0 0 [] .nice hB hinit hrun hprio
    ⟨_, hmem, Or.inl ⟨rfl, Or.inl rfl⟩⟩
  obtain ⟨p, hp, hflag, -⟩ := served_iff.mp hserved
  rw [hring] at hp
  rw [if_pos (List.mem_singleton.mp hp)] at hflag
  exact absurd hflag (by decide)

end Kernel

end NorlitOS
