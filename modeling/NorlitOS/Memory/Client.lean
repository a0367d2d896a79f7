import NorlitOS.Memory.Invariant

/-!
# The allocator as its clients see it

A client takes blocks with `memory_alloc`, stores into the blocks it holds and gives them back
with `memory_block_free` and the same order. `Held` is what then holds of the blocks handed out:
they are aligned, disjoint from each other and from the free memory. With it every allocation
keeps its contract, whatever happened before.
-/

namespace NorlitOS

open Dyadic Heap

/-- A heap and the blocks its clients hold: base address and order. -/
structure Client where
  heap : Heap
  live : List (Nat × Nat)

/-- What a client does. -/
inductive Request where
  | alloc (bit : Nat)
  | release (a bit : Nat)
  | store (a value : Nat)

namespace Client

/-- One request that returns. Orders are those with a list; blocks are given back with the
order they were taken with; stores go to a block the client holds. -/
inductive Step : Client → Request → Client → Prop where
  | alloc {c : Client} {bit a : Nat} {h' : Heap} (hlo : 2 ≤ bit) (hhi : bit ≤ 29)
      (hok : c.heap.memoryAlloc bit = .ok (a, h')) :
      Step c (.alloc bit) { heap := h', live := (a, bit) :: c.live }
  | release {c : Client} {a bit : Nat} {h' : Heap} (hlive : (a, bit) ∈ c.live)
      (hok : c.heap.memoryBlockFree a bit = .ok h') :
      Step c (.release a bit) { heap := h', live := c.live.erase (a, bit) }
  | store {c : Client} {a value b bit : Nat} (hlive : (b, bit) ∈ c.live)
      (hin : a ∈ range b (2 ^ bit)) :
      Step c (.store a value) { c with heap := c.heap.store (.link a) value }

/-- The lists are well formed and the blocks handed out are apart from them and each other. -/
structure Held (c : Client) : Prop where
  wellFormed : c.heap.WellFormed
  order : ∀ b ∈ c.live, 2 ≤ b.2 ∧ b.2 ≤ 29
  aligned : ∀ b ∈ c.live, 2 ^ b.2 ∣ b.1
  inside : ∀ b ∈ c.live, range b.1 (2 ^ b.2) ⊆ managed
  used : ∀ b ∈ c.live, Disjoint (range b.1 (2 ^ b.2)) c.heap.freeSet
  apart : c.live.Pairwise fun b b' => Disjoint (range b.1 (2 ^ b.2)) (range b'.1 (2 ^ b'.2))

variable {c c' : Client} {r : Request} {a bit : Nat} {h' : Heap}

/-- `memory_alloc` in terms of the free set of the heap. -/
theorem Held.alloc_ok (hc : c.Held) (hlo : 2 ≤ bit) (hhi : bit ≤ 29)
    (hok : c.heap.memoryAlloc bit = .ok (a, h')) :
    2 ^ bit ∣ a ∧ range a (2 ^ bit) ⊆ c.heap.freeSet ∧ h'.WellFormed ∧
      h'.freeSet = c.heap.freeSet \ range a (2 ^ bit) := by
  rcases memoryAlloc_spec (wellFormed_iff_rep.mp hc.wellFormed) hlo hhi with
    ⟨b, g, hok', hb, hT⟩ | ⟨herr, -⟩
  · obtain ⟨rfl, rfl⟩ := Prod.mk.inj (Except.ok.inj (hok.symm.trans hok'))
    rw [block_eq_range hb] at hT
    exact ⟨hb, hT.free, hT.rep.wellFormed.1, hT.rep.wellFormed.2⟩
  · exact nomatch hok.symm.trans herr

/-- Giving a held block back in terms of the free set of the heap. -/
theorem Held.release_ok (hc : c.Held) (hlive : (a, bit) ∈ c.live) :
    ∃ h', c.heap.memoryBlockFree a bit = .ok h' ∧ h'.WellFormed ∧
      h'.freeSet = c.heap.freeSet ∪ range a (2 ^ bit) := by
  have ha := hc.aligned _ hlive
  have hblock := block_eq_range ha
  obtain ⟨h', hok, hF⟩ := memoryBlockFree_spec (wellFormed_iff_rep.mp hc.wellFormed)
    (hc.order _ hlive).1 ha (hblock ▸ hc.inside _ hlive) (hblock ▸ hc.used _ hlive)
  rw [hblock] at hF
  exact ⟨h', hok, hF.rep.wellFormed.1, hF.rep.wellFormed.2⟩

/-- A store into a held block does not change the free set. -/
theorem Held.store_ok (hc : c.Held) {b : Nat × Nat} (hlive : b ∈ c.live) {x v : Nat}
    (hx : x ∈ range b.1 (2 ^ b.2)) :
    (c.heap.store (.link x) v).WellFormed ∧ (c.heap.store (.link x) v).freeSet = c.heap.freeSet :=
  ((wellFormed_iff_rep.mp hc.wellFormed).store_word
    (Set.disjoint_left.mp (hc.used b hlive) hx)).wellFormed

/-- **Step lemma.** Every request keeps `Held`. -/
theorem Held.step (hc : c.Held) (hstep : Step c r c') : c'.Held := by
  cases hstep with
  | @alloc bit a h' hlo hhi hok =>
    obtain ⟨ha, hsub, hw, hfree⟩ := hc.alloc_ok hlo hhi hok
    have hin := hsub.trans (wellFormed_iff_rep.mp hc.wellFormed).inside
    refine ⟨hw, ?_, ?_, ?_, ?_, ?_⟩
    · exact List.forall_mem_cons.mpr ⟨⟨hlo, hhi⟩, hc.order⟩
    · exact List.forall_mem_cons.mpr ⟨ha, hc.aligned⟩
    · exact List.forall_mem_cons.mpr ⟨hin, hc.inside⟩
    · rw [hfree]
      exact List.forall_mem_cons.mpr ⟨Set.disjoint_sdiff_right,
        fun b hb => (hc.used b hb).mono_right Set.sdiff_subset⟩
    · exact List.pairwise_cons.mpr ⟨fun b hb => ((hc.used b hb).mono_right hsub).symm, hc.apart⟩
  | @release a bit h' hlive hok =>
    obtain ⟨g, hok', hw, hfree⟩ := hc.release_ok hlive
    obtain rfl := Except.ok.inj (hok.symm.trans hok')
    have hmem : ∀ {b}, b ∈ c.live.erase (a, bit) → b ∈ c.live := List.mem_of_mem_erase
    refine ⟨hw, fun b hb => hc.order b (hmem hb), fun b hb => hc.aligned b (hmem hb),
      fun b hb => hc.inside b (hmem hb), fun b hb => ?_, hc.apart.sublist List.erase_sublist⟩
    rw [hfree, Set.disjoint_union_right]
    refine ⟨hc.used b (hmem hb), ?_⟩
    -- the other held blocks are apart from the one given back
    have hsplit := (List.perm_cons_erase hlive).pairwise_iff
      (R := fun b b' : Nat × Nat => Disjoint (range b.1 (2 ^ b.2)) (range b'.1 (2 ^ b'.2)))
      (fun h => h.symm) |>.mp hc.apart
    exact ((List.pairwise_cons.mp hsplit).1 b hb).symm
  | @store x v b bit hlive hin =>
    obtain ⟨hw, hfree⟩ := hc.store_ok (b := (b, bit)) hlive (v := v) hin
    exact ⟨hw, hc.order, hc.aligned, hc.inside, fun b hb => hfree ▸ hc.used b hb, hc.apart⟩

/-- The contract of one allocation in a given state. -/
structure AllocContract (c : Client) (bit : Nat) : Prop where
  /-- The block returned is aligned, was free, and is disjoint from every live block; exactly
  its addresses leave the free set. -/
  returned : ∀ a h', c.heap.memoryAlloc bit = .ok (a, h') →
    2 ^ bit ∣ a ∧ range a (2 ^ bit) ⊆ c.heap.freeSet ∧
      (∀ b ∈ c.live, Disjoint (range a (2 ^ bit)) (range b.1 (2 ^ b.2))) ∧
      h'.freeSet = c.heap.freeSet \ range a (2 ^ bit)
  /-- It stops only for lack of memory, when no list of its order or above holds a block. -/
  stopped : ∀ e, c.heap.memoryAlloc bit = .error e →
    e = .outOfMemory ∧ ∀ k, bit - 2 ≤ k → k < 28 → Chain c.heap.load EMPTY (.head k) []

theorem Held.allocContract (hc : c.Held) (hlo : 2 ≤ bit) (hhi : bit ≤ 29) :
    c.AllocContract bit := by
  refine ⟨fun a h' hok => ?_, fun e he => ?_⟩
  · obtain ⟨ha, hsub, -, hfree⟩ := hc.alloc_ok hlo hhi hok
    exact ⟨ha, hsub, fun b hb => ((hc.used b hb).mono_right hsub).symm, hfree⟩
  · rcases memoryAlloc_spec (wellFormed_iff_rep.mp hc.wellFormed) hlo hhi with
      ⟨a, h', hok, -, -⟩ | ⟨herr, hall⟩
    · exact nomatch he.symm.trans hok
    · exact ⟨Except.error.inj (he.symm.trans herr), fun k hk hk' => hall k hk hk'⟩

/-- **The client contract.** From well-formed lists with nothing handed out, after any run of
requests: live blocks are disjoint and not free, every further allocation keeps its contract,
and every live block can be given back and rejoins the free set. -/
theorem run_contract {h : Heap} (hw : h.WellFormed) {rs : List Request}
    (hrun : Run Step { heap := h, live := [] } rs c) :
    c.live.Pairwise (fun b b' => Disjoint (range b.1 (2 ^ b.2)) (range b'.1 (2 ^ b'.2))) ∧
      (∀ b ∈ c.live, Disjoint (range b.1 (2 ^ b.2)) c.heap.freeSet) ∧
      (∀ bit, 2 ≤ bit → bit ≤ 29 → c.AllocContract bit) ∧
      ∀ a bit, (a, bit) ∈ c.live → ∃ h', c.heap.memoryBlockFree a bit = .ok h' ∧
        h'.freeSet = c.heap.freeSet ∪ range a (2 ^ bit) := by
  have hstart : Held { heap := h, live := [] } :=
    ⟨hw, by simp, by simp, by simp, by simp, List.Pairwise.nil⟩
  have hc : c.Held := hrun.invariant (I := Held) (fun _ _ _ => Held.step) hstart
  refine ⟨hc.apart, hc.used, fun bit => hc.allocContract, fun a bit hlive => ?_⟩
  obtain ⟨h', hok, -, hfree⟩ := hc.release_ok hlive
  exact ⟨h', hok, hfree⟩

/-- A page taken from a range of seven, stored into and given back. -/
theorem run_contract_page : ∃ (h : Heap) (c : Client), h.WellFormed ∧
    Run Step { heap := h, live := [] }
      [.alloc 12, .store 0xC0201004 5, .release 0xC0201000 12] c ∧ c.AllocContract 13 := by
  obtain ⟨h, hpool, hF⟩ :
      ∃ h, (init fun _ => 0).memoryFreeNocheck 0xC0201000 0x7000 = .ok h ∧
        Freed (init fun _ => 0) ∅ (range 0xC0201000 0x7000) h :=
    memoryFreeNocheck_spec (init_rep fun _ => 0) (by decide) (by decide)
      (fun x hx => ⟨le_trans (by decide) hx.1, lt_of_lt_of_le hx.2 (by decide)⟩)
      (Set.disjoint_empty _)
  have hw : h.WellFormed := hF.rep.wellFormed.1
  obtain ⟨g, h₁, h₂, hg, hok₁, hok₂⟩ :
      ∃ g h₁ h₂, (init fun _ => 0).memoryFreeNocheck 0xC0201000 0x7000 = .ok g ∧
        g.memoryAlloc 12 = .ok (0xC0201000, h₁) ∧
        (h₁.store (.link 0xC0201004) 5).memoryBlockFree 0xC0201000 12 = .ok h₂ :=
    ⟨_, _, _, rfl, rfl, rfl⟩
  obtain rfl := Except.ok.inj (hg.symm.trans hpool)
  have hlive : ((0xC0201000, 12) : Nat × Nat) ∈ [((0xC0201000, 12) : Nat × Nat)] :=
    List.mem_cons_self
  -- a store in between, behind the word that is checked
  have hrun : Run Step { heap := g, live := [] }
      [.alloc 12, .store 0xC0201004 5, .release 0xC0201000 12] { heap := h₂, live := [] } :=
    .cons (.alloc (by decide) (by decide) hok₁) <|
      .cons (.store hlive ⟨by decide, by decide⟩) <| .single (.release hlive hok₂)
  exact ⟨g, _, hw, hrun, (run_contract hw hrun).2.2.1 13 (by decide) (by decide)⟩

end Client

end NorlitOS
