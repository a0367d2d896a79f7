import NorlitOS.Memory.Invariant

/-!
# Runs of the allocator

A `Session` is a heap together with the pointers `malloc` has returned. Its clients call the
allocator in any order and store into memory they hold. Freed ranges must be word aligned, lie
in the managed memory and not be free; `memory_block_free` gets a block, that is, a range
aligned to its size. Then the invariant holds after every call, and no call leaves the list
array or goes round for ever.
-/

namespace NorlitOS

open Dyadic

/-- The heap and the pointers `malloc` returned that were not passed to `free` since. -/
structure Session where
  heap : Heap
  mallocked : List Nat

/-- The calls of the allocator, and a client's store of a word. -/
inductive Call where
  | memoryBlockFree (address bit : Nat)
  | memoryFreeNocheck (address size : Nat)
  | memoryAlloc (bit : Nat)
  | malloc (size : Nat)
  | free (addr : Nat)
  | store (address value : Nat)

namespace Session

/-- The effect of a call. -/
def call (s : Session) : Call → Except Stop Session
  | .memoryBlockFree address bit => do
    let h ← s.heap.memoryBlockFree address bit
    .ok { s with heap := h }
  | .memoryFreeNocheck address size => do
    let h ← s.heap.memoryFreeNocheck address size
    .ok { s with heap := h }
  | .memoryAlloc bit => do
    let (_, h) ← s.heap.memoryAlloc bit
    .ok { s with heap := h }
  | .malloc size => do
    let (p, h) ← s.heap.malloc size
    .ok { heap := h, mallocked := p :: s.mallocked }
  | .free addr => do
    let h ← s.heap.free addr
    .ok { heap := h, mallocked := s.mallocked.erase addr }
  | .store address value => .ok { s with heap := s.heap.store (.link address) value }

/-- A range that may be freed: whole words of the managed memory, none of them free. -/
structure Freeable (h : Heap) (a size : Nat) : Prop where
  alignedBase : 4 ∣ a
  alignedSize : 4 ∣ size
  inside : Heap.range a size ⊆ managed
  used : Disjoint (Heap.range a size) h.freeSet

/-- What the callers of the allocator respect. The size of the range `free` releases is the
word in front of the pointer. -/
def Admissible (s : Session) : Call → Prop
  | .memoryBlockFree address bit => Freeable s.heap address (2 ^ bit)
  | .memoryFreeNocheck address size => Freeable s.heap address size
  | .memoryAlloc _ => True
  | .malloc _ => True
  | .free addr => addr ∈ s.mallocked ∧
      Freeable s.heap (sub32 addr 4) (s.heap.word (sub32 addr 4))
  | .store address _ => 4 ∣ address ∧ address ∉ s.heap.freeSet

/-- `memory_block_free` is given a block: its range is aligned to its size. -/
def BlockAligned : Call → Prop
  | .memoryBlockFree address bit => 2 ^ bit ∣ address
  | _ => True

/-- One admissible call that returns. -/
def AnyStep (s : Session) (c : Call) (t : Session) : Prop := s.Admissible c ∧ s.call c = .ok t

/-- One admissible call that returns, where block frees are given blocks. -/
def Step (s : Session) (c : Call) (t : Session) : Prop := BlockAligned c ∧ s.AnyStep c t

/-- The allocator before its first call. -/
def start (word : Nat → Nat) : Session := { heap := Heap.init word, mallocked := [] }

variable {s t : Session} {c : Call}

open Heap

/-- What an admissible call does to a well-formed heap: it returns with a well-formed heap, or
stops for lack of memory, or was asked for an order that has no list. -/
theorem call_cases (hw : s.heap.WellFormed) (hadm : s.Admissible c) (hblock : BlockAligned c) :
    (∃ t, s.call c = .ok t ∧ t.heap.WellFormed) ∨ s.call c = .error .outOfMemory ∨
      (s.call c = .error .wild ∧ ∃ bit, c = .memoryAlloc bit ∧ ¬ (2 ≤ bit ∧ bit ≤ 29)) := by
  have hR := wellFormed_iff_rep.mp hw
  cases c with
  | memoryBlockFree address bit =>
    -- a block of whole words has order 2 at least
    have hbit : 2 ≤ bit := by
      by_contra hlt
      have hdvd := Nat.le_of_dvd (Nat.two_pow_pos bit) hadm.alignedSize
      have hpow : 2 ^ bit ≤ 2 ^ 1 := Nat.pow_le_pow_right (by omega) (by omega)
      omega
    obtain ⟨h', hok, hF⟩ := memoryBlockFree_spec hR hbit hblock
      (block_eq_range hblock ▸ hadm.inside) (block_eq_range hblock ▸ hadm.used)
    exact Or.inl ⟨_, by rw [call, hok, ok_bind], hF.rep.wellFormed.1⟩
  | memoryFreeNocheck address size =>
    obtain ⟨h', hok, hF⟩ := memoryFreeNocheck_spec hR hadm.alignedBase hadm.alignedSize hadm.inside hadm.used
    exact Or.inl ⟨_, by rw [call, hok, ok_bind], hF.rep.wellFormed.1⟩
  | memoryAlloc bit =>
    by_cases hbit : 2 ≤ bit ∧ bit ≤ 29
    · rcases memoryAlloc_spec hR hbit.1 hbit.2 with ⟨a, h', hok, -, hT⟩ | ⟨herr, -⟩
      · exact Or.inl ⟨_, by rw [call, hok, ok_bind], hT.rep.wellFormed.1⟩
      · exact Or.inr (Or.inl (by rw [call, herr, error_bind]))
    -- the code reads behind its array
    · have herr : s.heap.memoryAlloc bit = .error .wild := by
        rw [Heap.memoryAlloc, if_pos (by omega)]
      exact Or.inr (Or.inr ⟨by rw [call, herr, error_bind], bit, rfl, hbit⟩)
  | malloc size =>
    rcases @malloc_spec s.heap s.heap.freeSet size hR with ⟨a, h', hok, -, hT, -⟩ | herr
    · exact Or.inl ⟨_, by rw [call, hok, ok_bind], hT.rep.wellFormed.1⟩
    · exact Or.inr (Or.inl (by rw [call, herr, error_bind]))
  | free addr =>
    obtain ⟨-, hfree⟩ := hadm
    obtain ⟨h', hok, hF⟩ := memoryFreeNocheck_spec hR hfree.alignedBase hfree.alignedSize hfree.inside hfree.used
    exact Or.inl ⟨_, by rw [call, Heap.free, load_link, hok, ok_bind], hF.rep.wellFormed.1⟩
  | store address value =>
    exact Or.inl ⟨_, rfl, (hR.store_word hadm.2).wellFormed.1⟩

theorem step_wellFormed (hw : s.heap.WellFormed) (hstep : s.Step c t) : t.heap.WellFormed := by
  obtain ⟨hblock, hadm, hok⟩ := hstep
  rcases call_cases hw hadm hblock with ⟨t', hok', hw'⟩ | herr | ⟨herr, -⟩
  · obtain rfl := Except.ok.inj (hok.symm.trans hok')
    exact hw'
  · exact nomatch hok.symm.trans herr
  · exact nomatch hok.symm.trans herr

theorem start_wellFormed (word : Nat → Nat) : (start word).heap.WellFormed :=
  (init_rep word).wellFormed.1

/-- **The representation invariant.** After every run the lists are well formed, and no
admissible call leaves the list array or loops: it returns or runs out of memory, unless it is
`memory_alloc` of an order without a list. -/
theorem run_invariant {word : Nat → Nat} {cs : List Call} (hrun : Run Step (start word) cs s) :
    s.heap.WellFormed ∧ ∀ c, s.Admissible c → BlockAligned c → ∀ e, s.call c = .error e →
      e = .outOfMemory ∨ ∃ bit, c = .memoryAlloc bit ∧ ¬ (2 ≤ bit ∧ bit ≤ 29) := by
  have hw : s.heap.WellFormed :=
    hrun.invariant (I := fun s => s.heap.WellFormed) (fun _ _ _ => step_wellFormed)
      (start_wellFormed word)
  refine ⟨hw, fun c hadm hblock e he => ?_⟩
  rcases call_cases hw hadm hblock with ⟨t, hok, -⟩ | herr | ⟨-, hwild⟩
  · exact nomatch he.symm.trans hok
  · exact Or.inl (Except.error.inj (he.symm.trans herr))
  · exact Or.inr hwild

theorem start_freeSet (word : Nat → Nat) : (start word).heap.freeSet = ∅ :=
  (init_rep word).wellFormed.2

/-- Every managed word-aligned range may be freed first. -/
theorem start_freeable {word : Nat → Nat} {a size : Nat} (ha : 4 ∣ a) (hs : 4 ∣ size)
    (hlo : PAGE_OFFSET ≤ a) (hhi : a + size ≤ PAGE_OFFSET + MAX_MAPPING) :
    Freeable (start word).heap a size := by
  refine ⟨ha, hs, fun x hx => ⟨hlo.trans hx.1, lt_of_lt_of_le hx.2 hhi⟩, ?_⟩
  rw [start_freeSet]
  exact Set.disjoint_empty _

/-- Releasing a range that needs several blocks and allocating from it. -/
theorem run_invariant_release_malloc : ∃ t, Run Step (start fun _ => 0)
    [.memoryFreeNocheck 0xC0201000 0x7000, .malloc 100] t ∧ t.heap.WellFormed := by
  obtain ⟨s, t, hs, ht⟩ :
      ∃ s t, (start fun _ => 0).call (.memoryFreeNocheck 0xC0201000 0x7000) = .ok s ∧
        s.call (.malloc 100) = .ok t := ⟨_, _, rfl, rfl⟩
  have hfirst : Step (start fun _ => 0) (.memoryFreeNocheck 0xC0201000 0x7000) s :=
    ⟨trivial, start_freeable (by decide) (by decide) (by decide) (by decide), hs⟩
  have hsecond : Step s (.malloc 100) t := ⟨trivial, trivial, ht⟩
  have hrun := Run.cons hfirst (Run.single hsecond)
  exact ⟨t, hrun, (run_invariant hrun).1⟩

/-- Without alignment to the block size the invariant breaks: `memory_block_free` lists the
order-3 block it is given wherever it starts. -/
theorem not_wellFormed_of_misaligned :
    ¬ ∀ word cs s, Run AnyStep (start word) cs s → s.heap.WellFormed := by
  intro hall
  obtain ⟨t, ht, hhead⟩ : ∃ t, (start fun _ => 0).call (.memoryBlockFree 0xC0000004 3) = .ok t ∧
      t.heap.memoryBlocks 1 = 0xC0000004 := ⟨_, rfl, rfl⟩
  have hstep : AnyStep (start fun _ => 0) (.memoryBlockFree 0xC0000004 3) t :=
    ⟨start_freeable (by decide) (by decide) (by decide) (by decide), ht⟩
  obtain ⟨L, hw⟩ := hall _ _ _ (Run.single hstep)
  have hc := hw.terminated 1 (by decide)
  have hal := hw.aligned 1 (by decide)
  cases hL : L 1 with
  | nil =>
    rw [hL, Chain.nil_iff, load_head, hhead] at hc
    exact absurd hc (by decide)
  | cons b l =>
    rw [hL, Chain.cons_iff, load_head, hhead] at hc
    have hdvd := hal b (by simp [hL])
    rw [← hc.1] at hdvd
    exact absurd hdvd (by decide)

end Session

end NorlitOS
