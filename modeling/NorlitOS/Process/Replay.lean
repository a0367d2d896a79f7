import NorlitOS.Process.Entries

/-!
# Replaying a run

What a kernel entry relies on can be decided, so a list of events can be replayed: `replay` does
one entry after the other and gives up at the first that is not admissible or does not return.
The states it reaches are those of the runs of `Enters`. `booted` starts from a machine whose
free memory is one range.
-/

namespace NorlitOS

namespace Kernel

variable {k k' k₁ : Kernel} {es : List Event} {a size : Nat}

instance (k : Kernel) (p : Nat) : Decidable (k.Mortal p) := by
  unfold Mortal
  infer_instance

instance (k : Kernel) (t : Nat) : Decidable (k.Disposable t) := by
  unfold Disposable
  infer_instance

instance (k : Kernel) (cr2 : Nat) : Decidable (k.GrowsStack cr2) := by
  unfold GrowsStack
  infer_instance

instance (k : Kernel) (ev : Event) : Decidable (k.Admissible ev) := by
  cases ev <;>
  · unfold Admissible
    infer_instance

def replay (k : Kernel) : List Event → Option Kernel
  | [] => some k
  | ev :: es =>
    if k.Admissible ev then
      match k.step ev with
      | .ok k => k.replay es
      | .error _ => none
    else none

/-- A replay is a run. -/
theorem run_of_replay (h : k.replay es = some k') : Run Enters k es k' := by
  induction es generalizing k with
  | nil =>
    cases h
    exact .nil _
  | cons ev es ih =>
    rw [replay] at h
    split at h
    · next hadm =>
      cases hok : k.step ev with
      | ok k₁ =>
        rw [hok] at h
        exact .cons ⟨hadm, hok⟩ (ih h)
      | error e =>
        rw [hok] at h
        exact nomatch h
    · exact nomatch h

/-! ## Careful entries

What a careful entry asks can be decided as well: a window has two tables of 1024 entries. -/

instance (k : Kernel) (p t : Nat) : Decidable (k.NormalWindow p t) :=
  decidable_of_iff ((∀ b < 1024, isPhy (k.pte p (stackEntry (k.thr t).stacktop) b) = false) ∧
      ∀ b < 1024, isPhy (k.pte p (stackEntry (k.thr t).stacktop - 1) b) = false)
    ⟨fun ⟨h, h'⟩ a ha => by rcases ha with rfl | rfl <;> assumption,
      fun h => ⟨h _ (Or.inl rfl), h _ (Or.inr rfl)⟩⟩

instance (k : Kernel) (p : Nat) : Decidable (k.NormalWindows p) := by
  unfold NormalWindows
  infer_instance

instance (k : Kernel) (ev : Event) : Decidable (k.Careful ev) := by
  cases ev <;>
  · unfold Careful
    infer_instance

/-- One careful entry. -/
def enterCarefully (k : Kernel) (ev : Event) : Option Kernel :=
  if k.Careful ev ∧ k.Admissible ev then (k.step ev).toOption else none

theorem enters_of_enterCarefully {ev : Event} (h : k.enterCarefully ev = some k') :
    k.EntersCarefully ev k' := by
  unfold enterCarefully at h
  split at h
  · next hev =>
    cases hok : k.step ev with
    | ok k₁ =>
      rw [hok] at h
      obtain rfl := Option.some.inj h
      exact ⟨hev.1, hev.2, hok⟩
    | error e =>
      rw [hok] at h
      exact nomatch h
  · exact nomatch h

/-! ## A machine with one free range -/

/-- All registers zero. -/
def noRegs : StackFrame :=
  { gs := 0, fs := 0, es := 0, ds := 0, di := 0, si := 0, bp := 0, ignored := 0, bx := 0, dx := 0,
    cx := 0, ax := 0, returnAddress := 0, ip := 0, cs := 0, flags := 0, sp := 0, ss := 0 }

/-- A system call with these arguments. -/
def call (eax edx ecx ebx : Nat) : Event :=
  .systemCall { noRegs with ax := eax, dx := edx, cx := ecx, bx := ebx }

/-- The machine before `init_proc`, with no other words set than those of the heap. -/
def machine (h : Heap) : Kernel where
  heap := h
  table _ _ := 0
  proc _ := { cr3 := 0, current := 0, thread := [], avlThread := 0, flag := 0, ticks := 0,
              priority := 0, pid := 0, privilege := 0, receiving := 0, msgHead := 0, msgTail := 0,
              msgCount := 0, messages := fun _ => 0 }
  thr _ := { process := 0, threadID := 0, flag := 0, stacktop := 0, regs := noRegs }
  processTable := []
  currentProc := 0
  currentThread := 0

/-- The directory `init_proc` copies is that of page 0. -/
theorem boot_machine {h : Heap} (hw : h.WellFormed) : (machine h).Boot 0 where
  wellFormed := hw
  user _ _ := rfl
  kernel _ _ _ h0 := absurd rfl h0

/-- The state of Init after the range at `a` has been released. -/
def bootState (a size : Nat) : Except Stop Kernel := do
  let h ← (Heap.init fun _ => 0).memoryFreeNocheck a size
  (machine h).initProc 0 0

/-- The range may be released. -/
structure Releasable (a size : Nat) : Prop where
  base : 4 ∣ a
  words : 4 ∣ size
  low : PAGE_OFFSET ≤ a
  high : a + size ≤ PAGE_OFFSET + MAX_MAPPING

instance (a size : Nat) : Decidable (Releasable a size) :=
  decidable_of_iff (4 ∣ a ∧ 4 ∣ size ∧ PAGE_OFFSET ≤ a ∧ a + size ≤ PAGE_OFFSET + MAX_MAPPING)
    ⟨fun ⟨h₁, h₂, h₃, h₄⟩ => ⟨h₁, h₂, h₃, h₄⟩, fun ⟨h₁, h₂, h₃, h₄⟩ => ⟨h₁, h₂, h₃, h₄⟩⟩

def booted (a size : Nat) (es : List Event) : Option Kernel :=
  if Releasable a size then
    match bootState a size with
    | .ok k => k.replay es
    | .error _ => none
  else none

/-- **What is replayed from boot is reachable.** -/
theorem run_of_booted {n : Nat} {l : List Event} (h : booted a n l = some k') :
    ∃ k k₁ : Kernel, k.Boot 0 ∧ k.heap.freeSet = Heap.range a n ∧ k.initProc 0 0 = .ok k₁ ∧
      Run Enters k₁ l k' := by
  unfold booted at h
  split at h
  · next hr =>
    -- the pool is one range, given to an empty heap
    obtain ⟨g, hfree, hF⟩ := @Heap.memoryFreeNocheck_spec (Heap.init fun _ => 0) ∅ a n
      (Heap.init_rep fun _ => 0) hr.base hr.words
      (fun x hx => ⟨hr.low.trans hx.1, lt_of_lt_of_le hx.2 hr.high⟩) (Set.disjoint_empty _)
    have hboot : bootState a n = (machine g).initProc 0 0 := by
      rw [bootState, hfree, ok_bind]
    rw [hboot] at h
    cases hok : (machine g).initProc 0 0 with
    | ok k₁ =>
      rw [hok] at h
      refine ⟨machine g, k₁, boot_machine hF.rep.wellFormed.1, ?_, hok, run_of_replay h⟩
      exact hF.rep.wellFormed.2.trans (Set.empty_union _)
    | error e =>
      rw [hok] at h
      exact nomatch h
  · exact nomatch h

theorem run_of_booted_any {n : Nat} {l : List Event} {P : Kernel → Prop} [DecidablePred P]
    (h : (booted a n l).any (fun k => decide (P k)) = true) : ∃ k k₁ k' : Kernel, k.Boot 0 ∧
      k.heap.freeSet = Heap.range a n ∧ k.initProc 0 0 = .ok k₁ ∧ Run Enters k₁ l k' ∧ P k' := by
  obtain ⟨k', hk', hP⟩ := (Option.any_eq_true _ _).mp h
  obtain ⟨k, k₁, hB, hfree, hinit, hrun⟩ := run_of_booted hk'
  exact ⟨k, k₁, k', hB, hfree, hinit, hrun, of_decide_eq_true hP⟩

/-- One entry that is replayed. -/
theorem enters_of_replay {e : Event} {f : Kernel → Bool} (h : (k.replay [e]).any f = true) :
    ∃ k', k.Enters e k' ∧ f k' = true := by
  obtain ⟨k', hk', hf⟩ := (Option.any_eq_true _ _).mp h
  cases run_of_replay hk' with
  | cons first rest =>
    cases rest
    exact ⟨k', first, hf⟩

/-- The same with one more entry, and a property of the states before and after it. -/
theorem run_of_booted_step {n : Nat} {l : List Event} {e : Event} {P : Kernel → Kernel → Prop}
    [∀ k k', Decidable (P k k')] (h : (booted a n l).any (fun k => (k.replay [e]).any fun k' =>
      decide (P k k')) = true) : ∃ k k₁ k₂ k₃ : Kernel, k.Boot 0 ∧ k.initProc 0 0 = .ok k₁ ∧
        Run Enters k₁ l k₂ ∧ k₂.Enters e k₃ ∧ P k₂ k₃ := by
  obtain ⟨k₂, hk₂, hany⟩ := (Option.any_eq_true _ _).mp h
  obtain ⟨k₃, hlast, hP⟩ := enters_of_replay hany
  obtain ⟨k, k₁, hB, -, hinit, hrun⟩ := run_of_booted hk₂
  exact ⟨k, k₁, k₂, k₃, hB, hinit, hrun, hlast, of_decide_eq_true hP⟩

end Kernel

end NorlitOS
