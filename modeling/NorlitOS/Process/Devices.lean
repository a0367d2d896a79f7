import NorlitOS.Process.Bookkeeping

/-!
# Frames of devices

A device frame is reached through `PAGE_TYPE_PHY` entries and is nobody's page. Such a frame lies
outside the pool, and careful entries never enlarge the pool, so it does not get into the
allocator. `recycleThreadStack` does not look at `PAGE_TYPE_PHY`: a physical page in the stack
window of a thread is freed with the thread.
-/

namespace NorlitOS

namespace Kernel

variable {k k' k₁ k₂ : Kernel} {phy : Prop} {pool : Set Nat} {p ip f kernelPDE : Nat}
  {es es' : List Event}

/-- `f` is mapped, but through `PAGE_TYPE_PHY` entries only; the kernel does not use it either. -/
structure Device (k : Kernel) (f : Nat) : Prop where
  mapped : ∃ p ∈ k.processTable, ∃ i < USER_PDES, ∃ j < 1024,
    isPhy (k.pte p i j) = true ∧ frameAt (k.pte p i j) = f
  unowned : ∀ o f', k.frameOf o = some f' → f ∉ page f'
  used : f ∉ k.heap.freeSet

/-- What is neither owned nor free lies outside the pool. -/
theorem Device.notMem (hf : k.Device f) (h : k.Inv phy pool) : f ∉ pool := by
  intro hin
  rcases (h.owned.accounts.cover f).mp hin with hfree | ⟨o, f', ho, hff⟩
  · exact hf.used hfree
  · exact hf.unowned o f' ho hff

/-- **Device frames.** A frame that is mapped through `PAGE_TYPE_PHY` entries only, in any state
of a careful run, is neither free nor owned in any later one. -/
theorem run_device (hB : k.Boot kernelPDE) (hinit : k.initProc kernelPDE ip = .ok k₁)
    (hrun : Run EntersCarefully k₁ es k') (hf : k'.Device f)
    (hrun' : Run EntersCarefully k' es' k₂) :
    f ∉ k₂.heap.freeSet ∧ ∀ o f', k₂.frameOf o = some f' → f ∉ page f' := by
  obtain ⟨pool, -, h⟩ := hB.run_inv hinit hrun
  obtain ⟨pool', hsub, h'⟩ := Kernel.run_inv hrun' h
  have hout : f ∉ pool' := fun hin => hf.notMem h (hsub hin)
  exact ⟨fun hin => hout (h'.owned.accounts.free_subset hin),
    fun o f' ho hin => hout (h'.owned.accounts.cell_subset ho hin)⟩

/-! ## The video memory in a stack window -/

/-- A process with two threads maps the page at `0xB8000` in the window of the second one. -/
def mapsVideo : List Event :=
  [.createProcess 0 0 100, call 6 0 0 0, call 2 0 0 0, call 4 0xB8000 0xBF400000 1]

theorem plain_mapsVideo : ∀ ev ∈ mapsVideo, Plain ev := by
  simp [mapsVideo, Plain, call, noRegs]

/-- The state reached, with a property of what follows. -/
theorem exists_video {P : Kernel → Prop} [DecidablePred P]
    (h : (booted 0xC0400000 0x400000 mapsVideo).any (fun k => decide (0xC0406004 ∈ k.processTable ∧
      isPhy (k.pte 0xC0406004 765 0) = true ∧ frameAt (k.pte 0xC0406004 765 0) = 0xC00B8000 ∧
        P k)) = true) : ∃ k k₁ k' : Kernel, k.Boot 0 ∧ k.initProc 0 0 = .ok k₁ ∧
      Run EntersCarefully k₁ mapsVideo k' ∧ k'.Device 0xC00B8000 ∧ P k' := by
  obtain ⟨k, k₁, k', hB, hfree, hinit, hrun, hp, hphy, hframe, hP⟩ := run_of_booted_any h
  have hrun' := run_of_plain plain_mapsVideo hrun
  obtain ⟨pool, hsub, hInv⟩ := hB.run_inv hinit hrun'
  -- the page lies below the range that was released
  have hout : 0xC00B8000 ∉ pool := by
    intro hin
    have hrange := hsub hin
    rw [hfree] at hrange
    exact absurd hrange.1 (by decide)
  refine ⟨k, k₁, k', hB, hinit, hrun', ⟨⟨_, hp, 765, by decide, 0, by decide, hphy, hframe⟩, ?_, ?_⟩, hP⟩
  · exact fun o f' ho hin => hout (hInv.owned.accounts.cell_subset ho hin)
  · exact fun hin => hout (hInv.owned.accounts.free_subset hin)

/-- A thread beside the mapping is made and disposed, and so is a process. -/
def recyclings : List Event :=
  [.tick noRegs, call 2 0 0 0, call 3 0xC040F000 0 0, .createProcess 0 0 5, .disposeProcess 0xC040E004]

/-- None of the frames given back is that of the video memory. -/
theorem run_device_tick : ∃ k k₁ k' k₂ : Kernel, k.Boot 0 ∧ k.initProc 0 0 = .ok k₁ ∧
    Run EntersCarefully k₁ mapsVideo k' ∧ k'.Device 0xC00B8000 ∧
      Run EntersCarefully k' recyclings k₂ ∧ 0xC00B8000 ∉ k₂.heap.freeSet := by
  obtain ⟨k, k₁, k', hB, hinit, hrun, hf, hsome⟩ := exists_video
    (P := fun k => (Run.follow enterCarefully k recyclings).isSome = true) (by decide +kernel)
  obtain ⟨k₂, hk₂⟩ := Option.isSome_iff_exists.mp hsome
  have hrun' := Run.of_follow (fun _ _ _ => enters_of_enterCarefully) hk₂
  exact ⟨k, k₁, k', k₂, hB, hinit, hrun, hf, hrun', (run_device hB hinit hrun hf hrun').1⟩

/-- The thread is disposed, and the video memory is on the free list of pages. -/
theorem not_run_device : ¬ ∀ (k k₁ k' k₂ : Kernel) (kernelPDE ip f : Nat) (es es' : List Event),
    k.Boot kernelPDE → k.initProc kernelPDE ip = .ok k₁ → Run Enters k₁ es k' → k'.Device f →
      Run Enters k' es' k₂ → f ∉ k₂.heap.freeSet := by
  intro hall
  obtain ⟨k, k₁, k', hB, hinit, hrun, hf, hany⟩ := exists_video
    (P := fun k => (k.replay [call 3 0xC040C000 0 0]).any (fun k => decide
      (k.heap.memoryBlocks 10 = 0xC00B8000 ∧ k.heap.word 0xC00B8000 = EMPTY)) = true)
    (by decide +kernel)
  obtain ⟨k₂, hk₂, hP⟩ := (Option.any_eq_true _ _).mp hany
  obtain ⟨hhead, hlink⟩ := of_decide_eq_true hP
  have hrun₁ : Run Enters k₁ mapsVideo k' := hrun.mono fun _ _ _ h => h.2
  refine hall k k₁ k' k₂ 0 0 _ mapsVideo _ hB hinit hrun₁ hf (run_of_replay hk₂) ?_
  refine ⟨10, by decide, [0xC00B8000], ?_, 0xC00B8000, List.mem_cons_self, ⟨le_rfl, by decide⟩⟩
  exact Chain.cons_iff.mpr ⟨hhead, by decide, Chain.nil_iff.mpr hlink⟩

end Kernel

end NorlitOS
