import NorlitOS.Process.Search
import Mathlib.Data.Int.ConditionallyCompleteOrder
import Mathlib.Data.List.MinMax

/-!
# Which process is selected

The search of `schedule` gives the first process of the ring with the most ticks among those that
have the flag 0, the caller with the flag it has just been given. They get new ticks only if none of
them has any left. The priority that is stored as the new ticks is a `u32`, and the ticks are an
`s32`: from 2^31 on a priority gives no ticks.
-/

namespace NorlitOS

namespace Kernel

variable {k k' : Kernel} {p q flag : Nat}

/-! ## The search

The comparison is strict and starts from 0, so a process without ticks is not found and the first
of equals is. -/

/-- The processes of the ring that may be selected, in its order. -/
def ready (k : Kernel) : List Nat := k.processTable.filter fun p => (k.proc p).flag = 0

/-- One of them has ticks left. -/
def HasTicks (k : Kernel) : Prop := ∃ p ∈ k.processTable, (k.proc p).flag = 0 ∧ 0 < (k.proc p).ticks

instance (k : Kernel) : Decidable k.HasTicks := inferInstanceAs (Decidable (∃ p ∈ _, _))

/-- The scan is that for the first greatest element, with a least value that it has to exceed. -/
theorem mostTicks_eq_argmax {proc : Nat → Process} {ring : List Nat} {greatest : Int}
    {best : Option Nat} : mostTicks proc ring greatest best =
      match (ring.filter fun p => (proc p).flag = 0).argmax fun p => (proc p).ticks with
      | some p => if greatest < (proc p).ticks then some p else best
      | none => best := by
  induction ring generalizing greatest best with
  | nil => rfl
  | cons q ring ih =>
    rw [mostTicks]
    by_cases hflag : (proc q).flag = 0
    · rw [List.filter_cons_of_pos (by simpa using hflag), List.argmax_cons]
      cases hrest : (ring.filter fun p => (proc p).flag = 0).argmax fun p => (proc p).ticks with
      | none =>
        rw [ih, ih, hrest]
        by_cases hlt : greatest < (proc q).ticks
        · simp only [hflag, hlt, and_self, if_true]
        · simp only [hlt, and_false, if_false]
      | some c =>
        rw [ih, ih, hrest]
        dsimp only
        -- the later one counts only if it has more
        by_cases hlt : greatest < (proc q).ticks
        · rw [if_pos ⟨hflag, hlt⟩]
          by_cases hc : (proc q).ticks < (proc c).ticks
          · rw [if_pos hc]
            exact (if_pos (hlt.trans hc)).symm
          · rw [if_neg hc]
            exact (if_pos hlt).symm
        · rw [if_neg fun h => hlt h.2]
          by_cases hc : (proc q).ticks < (proc c).ticks
          · rw [if_pos hc]
          · rw [if_neg hc]
            dsimp only
            rw [if_neg hlt, if_neg fun h => hc (lt_of_le_of_lt (not_lt.mp hlt) h)]
    · rw [List.filter_cons_of_neg (by simpa using hflag), if_neg fun h => hflag h.1]
      exact ih

theorem mostTicks_none_iff : mostTicks k.proc k.processTable 0 none = none ↔ ¬ k.HasTicks := by
  rw [mostTicks_eq_none_iff]
  unfold HasTicks
  push Not
  exact and_iff_right rfl

/-- Who is found is the first with the most ticks. -/
theorem argmax_of_mostTicks (h : mostTicks k.proc k.processTable 0 none = some p) :
    k.ready.argmax (fun q => (k.proc q).ticks) = some p := by
  rw [mostTicks_eq_argmax] at h
  unfold ready
  cases hmax : (k.processTable.filter fun p => (k.proc p).flag = 0).argmax fun p => (k.proc p).ticks with
  | none =>
    rw [hmax] at h
    exact nomatch h
  | some c =>
    rw [hmax] at h
    dsimp only at h
    split at h
    · exact h
    · exact nomatch h

/-- The state in which the process is picked. -/
def refilled (k : Kernel) : Kernel := if k.HasTicks then k else k.refill k.processTable

theorem refilled_sameButTicks : SameButTicks k k.refilled := by
  unfold refilled
  split
  · exact SameButTicks.refl k
  · exact refill_sameButTicks _

theorem ready_refilled : k.refilled.ready = k.ready := by
  unfold ready
  rw [refilled_sameButTicks.processTable]
  congr 1
  funext q
  rw [refilled_sameButTicks.proc]

/-- **The search** refills when it has to, and then selects. -/
theorem pickReady_selects (h : ∃ p ∈ k.processTable, k.Runnable p) : ∃ p,
    k.pickReady = .ok (p, k.refilled) ∧
      k.ready.argmax (fun q => (k.refilled.proc q).ticks) = some p := by
  have hmax : ∀ p, mostTicks k.refilled.proc k.refilled.processTable 0 none = some p →
      k.ready.argmax (fun q => (k.refilled.proc q).ticks) = some p := by
    intro p hp
    rw [← ready_refilled]
    exact argmax_of_mostTicks hp
  obtain ⟨p, hp, hrun⟩ := h
  obtain ⟨r, hr⟩ := searchRounds_of_runnable hp hrun
  rw [pickReady_eq, hr]
  rw [searchRounds] at hr
  -- found at once, or after the refill
  by_cases hticks : k.HasTicks
  · have hself : k.refilled = k := if_pos hticks
    rw [hself] at hmax ⊢
    cases hfirst : mostTicks k.proc k.processTable 0 none with
    | none => exact absurd hticks (mostTicks_none_iff.mp hfirst)
    | some q =>
      rw [hfirst] at hr
      cases hr
      exact ⟨q, rfl, hmax q hfirst⟩
  · have hfill : k.refilled = k.refill k.processTable := if_neg hticks
    rw [mostTicks_none_iff.mpr hticks, ← hfill] at hr
    dsimp only at hr
    rw [searchRounds] at hr
    cases hsecond : mostTicks k.refilled.proc k.refilled.processTable 0 none with
    | none =>
      rw [hsecond] at hr
      cases hr
    | some q =>
      rw [hsecond] at hr
      cases hr
      exact ⟨q, rfl, hmax q hsecond⟩

/-! ## `schedule`

The process that calls takes part with the flag it has just been given. -/

/-- `cpuPage.current_proc->flag=flag`. -/
def marked (k : Kernel) (flag : Nat) : Kernel :=
  k.modProc k.currentProc fun P => { P with flag := flag }

/-- What is asked of `schedule`, beside what it leaves alone: it selects the first process with the
most ticks, and only if none had any, those that may be selected have got as many as their priority. -/
structure Selected (k : Kernel) (flag : Nat) (k' : Kernel) : Prop extends Scheduled k flag k' where
  first : (k.marked flag).ready.argmax (fun q => (k'.proc q).ticks) = some k'.currentProc
  ticks : ∀ q, (k'.proc q).ticks =
    if ¬ (k.marked flag).HasTicks ∧ q ∈ (k.marked flag).ready then s32 (k.proc q).priority
    else (k.proc q).ticks

theorem marked_priority : ((k.marked flag).proc q).priority = (k.proc q).priority := by
  unfold marked
  rw [modProc_proc]
  split
  · next h => rw [h]
  · rfl

theorem marked_ticks : ((k.marked flag).proc q).ticks = (k.proc q).ticks := by
  unfold marked
  rw [modProc_proc]
  split
  · next h => rw [h]
  · rfl

theorem refilled_ticks : (k.refilled.proc q).ticks =
    if ¬ k.HasTicks ∧ q ∈ k.ready then s32 (k.proc q).priority else (k.proc q).ticks := by
  have hready : q ∈ k.ready ↔ q ∈ k.processTable ∧ (k.proc q).flag = 0 := by
    unfold ready
    rw [List.mem_filter, decide_eq_true_eq]
  unfold refilled
  by_cases hticks : k.HasTicks
  · rw [if_pos hticks, if_neg fun h => h.1 hticks]
  · rw [if_neg hticks, refill_ticks]
    exact if_congr ((and_iff_right hticks).trans hready).symm rfl rfl

/-- **The scheduler selects** the first process with the most ticks. It returns when one of those
that may be selected has ticks, or a priority that gives it some. -/
theorem schedule_selects (h : ∃ p ∈ k.processTable, (k.marked flag).Runnable p) :
    ∃ k', k.schedule flag = .ok k' ∧ Selected k flag k' := by
  obtain ⟨p, hpick, hmax⟩ := pickReady_selects (k := k.marked flag) h
  have hok : ∃ k', k.schedule flag = .ok k' ∧ k'.currentProc = p ∧
      ∀ q, (k'.proc q).ticks = ((k.marked flag).refilled.proc q).ticks := by
    refine ⟨_, bind_eq_ok.mpr ⟨_, hpick, rfl⟩, rfl, fun q => ?_⟩
    simp only [setWord_proc, modProc_proc]
    split
    · next hq => rw [hq]
    · rfl
  obtain ⟨k', hk', hnext, hticks⟩ := hok
  refine ⟨k', hk', schedule_spec.elim hk', ?_, fun q => ?_⟩
  · rw [hnext, ← hmax]
    congr 1
    funext q
    exact hticks q
  · rw [hticks, refilled_ticks, marked_priority, marked_ticks]

/-- A ring of two processes, the first one of which is running; both have no ticks left. -/
def ringOfTwo (priority : Nat) : Kernel :=
  { machine (Heap.init fun _ => 0) with
    processTable := [1, 2]
    currentProc := 1
    proc := fun _ => { (machine (Heap.init fun _ => 0)).proc 0 with priority := priority } }

/-- Both get new ticks, and the first one in the ring is selected again. -/
theorem schedule_selects_two :
    ∃ k', (ringOfTwo 5).schedule 0 = .ok k' ∧ Selected (ringOfTwo 5) 0 k' :=
  schedule_selects ⟨1, by decide, by decide, Or.inr (by decide)⟩

/-- A priority of 2^31 is positive, but the ticks it gives are not. -/
theorem not_selects_large : ¬ ∀ (k : Kernel) (flag : Nat),
    (∃ p ∈ k.processTable, ((k.marked flag).proc p).flag = 0 ∧ 0 < (k.proc p).priority) →
      ∃ k', k.schedule flag = .ok k' := by
  intro h
  obtain ⟨n, r, hr⟩ := schedule_returns_iff.mp (h (ringOfTwo (2 ^ 31)) 0 ⟨1, by decide, by decide, by decide⟩)
  obtain ⟨p, -, -, hticks⟩ := searchRounds_ends_iff.mp ⟨n, r, hr⟩
  have hzero : (((ringOfTwo (2 ^ 31)).marked 0).proc p).ticks = 0 := marked_ticks
  have hprio : (((ringOfTwo (2 ^ 31)).marked 0).proc p).priority = 2 ^ 31 := marked_priority
  unfold marked at hzero hprio
  rw [hzero, hprio] at hticks
  exact absurd hticks (by decide)

end Kernel

end NorlitOS
