import NorlitOS.Lib.Share
import NorlitOS.Process.Search

/-!
# Shares of the processor (`timer.c`)

While all processes stay ready, a timer tick charges the running one and the search of `schedule`
picks the next; when nobody has ticks left, all get as many as their priority. So from one refill
to the next every process runs for as many ticks as its priority.

A priority is unsigned and ticks are signed, so the refill gives negative ticks for a priority of
`0x80000000` or more.
-/

namespace NorlitOS

namespace Kernel

variable {k k' : Kernel} {p q flag : Nat} {regs : StackFrame} {ev : Event} {es : List Event}

/-! ## One tick

A tick is a charge and a search. The code's ticks are the clock of the abstract shares, as long as
priorities are small enough to be the same in `s32`. -/

theorem pickReady_cases {r : Nat × Kernel} (h : k.pickReady = .ok r) :
    (mostTicks k.proc k.processTable 0 none = some r.1 ∧ r.2 = k) ∨
      (mostTicks k.proc k.processTable 0 none = none ∧ r.2 = k.refill k.processTable ∧
        mostTicks r.2.proc r.2.processTable 0 none = some r.1) := by
  unfold pickReady at h
  cases hfirst : mostTicks k.proc k.processTable 0 none with
  | some q =>
    rw [hfirst] at h
    cases h
    exact Or.inl ⟨rfl, rfl⟩
  | none =>
    rw [hfirst] at h
    simp only at h
    -- after the refill the search must find one
    cases hsecond : mostTicks (k.refill k.processTable).proc
        (k.refill k.processTable).processTable 0 none with
    | some q =>
      rw [hsecond] at h
      cases h
      exact Or.inr ⟨rfl, rfl, hsecond⟩
    | none =>
      rw [hsecond] at h
      exact nomatch h

/-- Behind the search `schedule` changes no ticks. -/
theorem schedule_ticks (h : k.schedule flag = .ok k') : ∃ r,
    (k.modProc k.currentProc fun P => { P with flag := flag }).pickReady = .ok r ∧
      k'.currentProc = r.1 ∧ ∀ q, (k'.proc q).ticks = (r.2.proc q).ticks := by
  unfold schedule at h
  obtain ⟨r, hr, hok⟩ := bind_eq_ok.mp h
  refine ⟨r, hr, ?_⟩
  cases hok
  refine ⟨rfl, fun q => ?_⟩
  simp only [setWord_proc, modProc_proc]
  split
  · next hq => rw [hq]
  · rfl

/-- The running process is charged. -/
def charge (k : Kernel) : Kernel :=
  k.modProc k.currentProc fun P => { P with ticks := (P.ticks - 1).bmod (2 ^ 32) }

/-- The first round of the search finds nobody. -/
def refillsOnTick (k : Kernel) : Bool :=
  (mostTicks (k.charge.searched .tick).proc k.processTable 0 none).isNone

/-- The processes that are not running are ready, all have a priority and at most as many ticks,
and the running one has ticks. -/
structure Sharing (k : Kernel) : Prop where
  running : k.currentProc ∈ k.processTable
  ready : ∀ p ∈ k.processTable, p ≠ k.currentProc → (k.proc p).flag = 0
  priority : ∀ p ∈ k.processTable, 0 < (k.proc p).priority
  low : ∀ p ∈ k.processTable, 0 ≤ (k.proc p).ticks
  high : ∀ p ∈ k.processTable, (k.proc p).ticks ≤ (k.proc p).priority
  positive : 0 < (k.proc k.currentProc).ticks

/-- No priority is negative as a number of ticks. -/
def SmallPriorities (k : Kernel) : Prop := ∀ p ∈ k.processTable, (k.proc p).priority < 2 ^ 31

/-- Ticks and the running process, as an account. -/
def clock (k : Kernel) : Share.Clock Nat := ⟨fun p => (k.proc p).ticks, k.currentProc⟩

def members (k : Kernel) : Finset Nat := k.processTable.toFinset

def weight (k : Kernel) (p : Nat) : Int := (k.proc p).priority

theorem mem_members : p ∈ k.members ↔ p ∈ k.processTable := List.mem_toFinset

theorem s32_of_lt {x : Nat} (h : x < 2 ^ 31) : s32 x = x := by
  unfold s32
  apply Int.bmod_eq_of_le <;> omega

theorem Sharing.within (h : k.Sharing) : Share.Within k.members k.weight k.clock where
  running := mem_members.mpr h.running
  positive := h.positive
  low p hp := h.low p (mem_members.mp hp)
  high p hp := h.high p (mem_members.mp hp)

/-- The record of a process when the search begins. -/
theorem charge_proc (p : Nat) : (k.charge.searched .tick).proc p =
    if p = k.currentProc then { k.proc p with
      flag := 0, ticks := ((k.proc p).ticks - 1).bmod (2 ^ 32) } else k.proc p := by
  unfold searched charge
  simp only [modProc_currentProc, modProc_modProc, modProc_proc]
  split
  · next hp =>
    rw [hp]
    rfl
  · rfl

theorem charge_priority (p : Nat) :
    ((k.charge.searched .tick).proc p).priority = (k.proc p).priority := by
  rw [charge_proc]
  split <;> rfl

namespace Sharing

theorem charged (h : k.Sharing) (hsmall : k.SmallPriorities) (p : Nat) :
    ((k.charge.searched .tick).proc p).ticks = k.clock.charged p := by
  rw [charge_proc, Share.Clock.charged]
  by_cases hp : p = k.currentProc
  · have hpos := h.positive
    have hhigh := h.high _ h.running
    have hlt := hsmall _ h.running
    rw [if_pos hp, if_pos (show p = k.clock.running from hp), hp]
    show ((k.proc k.currentProc).ticks - 1).bmod (2 ^ 32) = (k.proc k.currentProc).ticks - 1
    apply Int.bmod_eq_of_le <;> omega
  · rw [if_neg hp, if_neg (show ¬ p = k.clock.running from hp)]
    rfl

theorem flag_zero (h : k.Sharing) (hp : p ∈ k.processTable) :
    ((k.charge.searched .tick).proc p).flag = 0 := by
  rw [charge_proc]
  split
  · rfl
  · next hne => exact h.ready p hp hne

/-- **One tick** charges the running process and picks one with ticks left, after a refill if
there was none. -/
theorem step (h : k.Sharing) (hsmall : k.SmallPriorities) (hok : k.timerTick = .ok k') :
    Share.Step k.members k.weight k.clock (k.currentProc, k.refillsOnTick) k'.clock := by
  obtain ⟨r, hr, hcur, hticks⟩ := schedule_ticks hok
  have hS : Scheduled k.charge 0 k' := schedule_spec.elim hok
  have hmem : k'.currentProc ∈ k.members := mem_members.mpr hS.next
  have hpick : ∀ {s : Kernel}, mostTicks s.proc s.processTable 0 none = some r.1 →
      0 < (s.proc r.1).ticks := fun hs => (mostTicks_gt hs).resolve_left nofun
  cases pickReady_cases hr with
  | inl hfound =>
    obtain ⟨hfound, hr₂⟩ := hfound
    -- some process has ticks left
    have hlabel : k.refillsOnTick = false := by
      unfold refillsOnTick
      rw [show mostTicks (k.charge.searched .tick).proc k.processTable 0 none = some r.1 from hfound]
      rfl
    rw [hlabel]
    refine Share.Step.pass k'.clock hmem ?_ fun p hp => ?_
    · show 0 < (k'.proc k'.currentProc).ticks
      rw [hticks, hcur, hr₂]
      exact hpick hfound
    · show (k'.proc p).ticks = _
      rw [hticks, hr₂]
      exact h.charged hsmall p
  | inr hrefill =>
    obtain ⟨hnone, hr₂, hfound⟩ := hrefill
    -- none has, and the round starts again
    have hlabel : k.refillsOnTick = true := by
      unfold refillsOnTick
      rw [show mostTicks (k.charge.searched .tick).proc k.processTable 0 none = none from hnone]
      rfl
    rw [hlabel]
    refine Share.Step.refill k'.clock hmem ?_ (fun p hp => ?_) fun p hp => ?_
    · show 0 < (k'.proc k'.currentProc).ticks
      rw [hticks, hcur]
      exact hpick hfound
    · rw [← h.charged hsmall p]
      exact (mostTicks_eq_none_iff.mp hnone).2 p (mem_members.mp hp) (h.flag_zero (mem_members.mp hp))
    · have hring := mem_members.mp hp
      show (k'.proc p).ticks = (k.proc p).priority
      rw [hticks, hr₂]
      refine (refill_ticks.trans (if_pos ⟨hring, h.flag_zero hring⟩)).trans ?_
      rw [← s32_of_lt (hsmall p hring)]
      exact congrArg s32 (charge_priority p)

/-- The processes stay ready, with their priorities, and their ticks stay in range. -/
theorem next (h : k.Sharing) (hsmall : k.SmallPriorities) (hok : k.timerTick = .ok k') :
    k'.Sharing ∧ k'.processTable = k.processTable ∧ ∀ p, (k'.proc p).priority = (k.proc p).priority := by
  have hS : Scheduled k.charge 0 k' := schedule_spec.elim hok
  have hwithin := (h.step hsmall hok).within h.within
  have hring : k'.processTable = k.processTable := hS.processTable
  -- ticks and flags change, priorities do not
  have hprio : ∀ p, (k'.proc p).priority = (k.proc p).priority := by
    intro p
    rw [hS.proc, charge, modProc_proc]
    split
    · next hp => rw [hp]
    · rfl
  refine ⟨⟨hS.processTable ▸ hS.next, fun p hp hne => ?_, fun p hp => ?_, fun p hp => ?_,
    fun p hp => ?_, hwithin.positive⟩, hring, hprio⟩
  · rw [hring] at hp
    rw [hS.proc]
    show (if p = k'.currentProc then 2 else if p = k.currentProc then 0 else (k.charge.proc p).flag) = 0
    rw [if_neg hne]
    split
    · rfl
    · next hpc =>
      rw [charge, modProc_proc_of_ne hpc]
      exact h.ready p hp hpc
  · rw [hring] at hp
    rw [hprio]
    exact h.priority p hp
  · rw [hring] at hp
    exact hwithin.low p (mem_members.mpr hp)
  · rw [hring] at hp
    rw [hprio]
    exact hwithin.high p (mem_members.mpr hp)

/-- The tick returns: the running process itself can be found. -/
theorem returns (h : k.Sharing) (hsmall : k.SmallPriorities) : ∃ k', k.timerTick = .ok k' := by
  apply schedule_returns_iff.mpr
  apply searchRounds_ends_iff.mpr
  refine ⟨k.currentProc, h.running, h.flag_zero h.running, Or.inr ?_⟩
  have hprio := h.priority _ h.running
  have hs := s32_of_lt (hsmall _ h.running)
  have heq : ((k.charge.searched .tick).proc k.currentProc).priority =
    (k.proc k.currentProc).priority := charge_priority _
  show 0 < s32 ((k.charge.searched .tick).proc k.currentProc).priority
  rw [heq, hs]
  omega

/-- Saved registers do not matter. -/
theorem save (h : k.Sharing) (regs : StackFrame) : (k.save regs).Sharing :=
  ⟨h.running, h.ready, h.priority, h.low, h.high, h.positive⟩

end Sharing

/-! ## Runs of ticks

So what holds of shares holds of the scheduler: between two refills every process runs for as many
ticks as its priority. -/

/-- A timer tick. -/
def EntersTick (k : Kernel) (ev : Event) (k' : Kernel) : Prop :=
  (∃ regs, ev = .tick regs) ∧ k.Enters ev k'

/-- Who is charged by the ticks of a run, and whether the search had to refill. -/
def charges (k : Kernel) (es : List Event) : List (Nat × Bool) :=
  total (fun k ev => (k.step ev).toOption) (fun k _ _ => [(k.currentProc, k.refillsOnTick)]) k es

/-- The number of ticks that are charged to `p`. -/
def ranFor (p : Nat) (l : List (Nat × Bool)) : Nat := Share.count p l

/-- What a proportional share is: ticks always return, they stay in range, and between two refills
they add up to the priorities, with each process charged for its own. -/
structure Shares (k : Kernel) : Prop where
  returns : ∀ es k' regs, Run EntersTick k es k' → ∃ k'', k'.step (.tick regs) = .ok k''
  within : ∀ es k', Run EntersTick k es k' → ∀ p ∈ k'.processTable,
    0 ≤ (k'.proc p).ticks ∧ (k'.proc p).ticks ≤ (k'.proc p).priority
  /-- A refill comes before the priorities are used up. -/
  recurs : ∀ es k', Run EntersTick k es k' → (∀ c ∈ k.charges es, c.2 = false) →
    es.length < ∑ p ∈ k.members, (k.proc p).priority
  share : ∀ es k' l₁ l₂ l₃ p q, Run EntersTick k es k' →
    k.charges es = l₁ ++ (p, true) :: (l₂ ++ (q, true) :: l₃) → (∀ c ∈ l₂, c.2 = false) →
      l₂.length + 1 = ∑ r ∈ k.members, (k.proc r).priority ∧
        ∀ r ∈ k.processTable, ranFor r (l₂ ++ [(q, true)]) = (k.proc r).priority

/-- The run as a run of the account. -/
theorem run_sharing (hrun : Run EntersTick k es k') (h : k.Sharing) (hsmall : k.SmallPriorities) :
    (k'.Sharing ∧ k'.SmallPriorities) ∧ (k.charges es).length = es.length ∧
      Run (Share.Step k.members k.weight) k.clock (k.charges es) k'.clock := by
  induction hrun with
  | nil s => exact ⟨⟨h, hsmall⟩, rfl, .nil _⟩
  | @cons k k₁ k' ev es first _ ih =>
    obtain ⟨⟨regs, rfl⟩, -, hok⟩ := first
    have hnext : (k.step (.tick regs)).toOption = some k₁ := by rw [hok]; rfl
    have hcharges : k.charges (.tick regs :: es) =
      (k.currentProc, k.refillsOnTick) :: k₁.charges es := total_cons hnext
    have hstep : Share.Step k.members k.weight k.clock (k.currentProc, k.refillsOnTick) k₁.clock :=
      (h.save regs).step hsmall hok
    obtain ⟨h₁, hring, hprio⟩ := (h.save regs).next hsmall hok
    have hring' : k₁.processTable = k.processTable := hring
    have hprio' : ∀ p, (k₁.proc p).priority = (k.proc p).priority := hprio
    have hsmall₁ : k₁.SmallPriorities := by
      intro p hp
      rw [hring'] at hp
      rw [hprio']
      exact hsmall p hp
    -- the same members with the same weights
    have hmembers : k₁.members = k.members := by unfold members; rw [hring']
    have hweight : k₁.weight = k.weight := by
      funext p
      unfold weight
      rw [hprio']
    obtain ⟨hlast, hlen, hrest⟩ := ih h₁ hsmall₁
    rw [hmembers, hweight] at hrest
    rw [hcharges]
    exact ⟨hlast, congrArg Nat.succ hlen, .cons hstep hrest⟩

/-- **Proportional share.** Processes that stay ready, with priorities that are no negative ticks,
get their shares of the processor. -/
theorem shares_of_small (h : k.Sharing) (hsmall : k.SmallPriorities) : k.Shares := by
  refine ⟨fun es k' regs hrun => ?_, fun es k' hrun p hp => ?_, fun es k' hrun hnone => ?_,
    fun es k' l₁ l₂ l₃ p q hrun heq hnone => ?_⟩ <;>
  obtain ⟨⟨h', hsmall'⟩, hlen, hclock⟩ := run_sharing hrun h hsmall
  · exact (h'.save regs).returns hsmall'
  · exact ⟨h'.low p hp, h'.high p hp⟩
  · have hlt := Share.length_lt hclock h.within hnone
    rw [hlen] at hlt
    unfold weight at hlt
    exact_mod_cast hlt
  · rw [heq] at hclock
    obtain ⟨hcount, hsum⟩ := Share.count_eq_weight h.within hnone hclock
    unfold weight at hcount hsum
    refine ⟨by exact_mod_cast hsum, fun r hr => ?_⟩
    exact_mod_cast hcount r (mem_members.mpr hr)

instance (k : Kernel) : Decidable k.Sharing :=
  decidable_of_iff (k.currentProc ∈ k.processTable ∧
    (∀ p ∈ k.processTable, p ≠ k.currentProc → (k.proc p).flag = 0) ∧
    (∀ p ∈ k.processTable, 0 < (k.proc p).priority) ∧ (∀ p ∈ k.processTable, 0 ≤ (k.proc p).ticks) ∧
    (∀ p ∈ k.processTable, (k.proc p).ticks ≤ (k.proc p).priority) ∧
    0 < (k.proc k.currentProc).ticks)
    ⟨fun ⟨h₁, h₂, h₃, h₄, h₅, h₆⟩ => ⟨h₁, h₂, h₃, h₄, h₅, h₆⟩,
      fun ⟨h₁, h₂, h₃, h₄, h₅, h₆⟩ => ⟨h₁, h₂, h₃, h₄, h₅, h₆⟩⟩

instance (k : Kernel) : Decidable k.SmallPriorities := by
  unfold SmallPriorities
  infer_instance

/-- Init and a process with the priority 3. -/
theorem shares_of_small_two : ∃ (k k₁ k' : Kernel) (es : List Event), k.Boot 0 ∧
    k.initProc 0 0 = .ok k₁ ∧ Run Enters k₁ es k' ∧
      k'.processTable.map (fun p => (k'.proc p).priority) = [1, 3] ∧ k'.Shares := by
  obtain ⟨k, k₁, k', hB, -, hinit, hrun, h, hsmall, hprio⟩ := run_of_booted_any (a := 0xC0400000)
    (n := 0x400000) (l := [.createProcess 0 0 3]) (P := fun k => k.Sharing ∧ k.SmallPriorities ∧
      k.processTable.map (fun p => (k.proc p).priority) = [1, 3]) (by decide +kernel)
  exact ⟨k, k₁, k', _, hB, hinit, hrun, hprio, shares_of_small h hsmall⟩

/-- Two processes, the first with the priority `0x80000000` and with one tick left. -/
def bigPriority : Kernel :=
  let k := machine (Heap.init fun _ => 0)
  let P := k.proc 0
  { k with
    proc := fun p => if p = 1 then { P with priority := 2 ^ 31, ticks := 1, flag := 2 }
      else { P with priority := 1 }
    processTable := [1, 2]
    currentProc := 1 }

/-- A refill gives it negative ticks. -/
theorem not_shares : ¬ ∀ k : Kernel, k.Sharing → k.Shares := by
  intro hall
  have hsharing : bigPriority.Sharing := by decide
  obtain ⟨k', hstep, hneg⟩ := enters_of_replay (k := bigPriority) (e := .tick noRegs)
    (f := fun k => decide (1 ∈ k.processTable ∧ (k.proc 1).ticks < 0)) (by decide +kernel)
  obtain ⟨hmem, hlt⟩ := of_decide_eq_true hneg
  have hrun : Run EntersTick bigPriority [.tick noRegs] k' := .single ⟨⟨noRegs, rfl⟩, hstep⟩
  exact not_lt.mpr ((hall bigPriority hsharing).within _ _ hrun 1 hmem).1 hlt

end Kernel

end NorlitOS
