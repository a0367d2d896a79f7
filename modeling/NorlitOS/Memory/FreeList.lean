import NorlitOS.Lib.Dyadic
import NorlitOS.Memory.Heap

/-!
# The free lists hold the maximal blocks of the free memory

`Rep h F` ties the pointers of a heap to the set `F` of free addresses: the list of each order
spells out, in ascending order, exactly the maximal blocks of that order (`Dyadic.Maximal`),
and the counter is the size of `F`. Detaching a listed block and inserting a block whose buddy
is not free are the two edits; both keep the lists maximal by the corresponding law of the
dyadic library. `memory_block_free` is a chain of detachments and one insertion.
-/

namespace NorlitOS

open Dyadic

/-- The linear addresses the allocator may manage: the mapped part of the kernel half. -/
def managed : Set Nat := {x | PAGE_OFFSET ≤ x ∧ x < PAGE_OFFSET + MAX_MAPPING}

namespace Heap

/-- List `k` ascends and holds exactly the bases of the maximal order-`k+2` blocks of `F`. -/
def FreeLists (h : Heap) (F : Set Nat) : Prop :=
  ∀ k < 28, ∃ l, Chain h.load EMPTY (.head k) l ∧ l.Pairwise (· < ·) ∧
    ∀ a, a ∈ l ↔ Maximal F (k + 2) a

/-- `h` represents the free set `F`. -/
structure Rep (h : Heap) (F : Set Nat) : Prop where
  inside : F ⊆ managed
  words : ∀ x ∈ F, block 2 x ⊆ F
  lists : h.FreeLists F
  counter : h.freeMemoryCounter = F.ncard

variable {h : Heap} {F : Set Nat} {k bit a : Nat}

theorem managed_finite : managed.Finite := Set.finite_Ico PAGE_OFFSET (PAGE_OFFSET + MAX_MAPPING)

theorem managed_ncard : managed.ncard = MAX_MAPPING := by
  have h : managed = ↑(Finset.Ico PAGE_OFFSET (PAGE_OFFSET + MAX_MAPPING)) := by
    ext x
    rw [Finset.coe_Ico]
    exact Iff.rfl
  rw [h, Set.ncard_coe_finset, Nat.card_Ico, Nat.add_sub_cancel_left]

theorem free_finite (hin : F ⊆ managed) : F.Finite := managed_finite.subset hin

theorem free_ncard_le (hin : F ⊆ managed) : F.ncard ≤ MAX_MAPPING :=
  managed_ncard ▸ Set.ncard_le_ncard hin managed_finite

/-- A block inside the managed range has order at most 29. -/
theorem bit_le_of_managed (hb : block bit a ⊆ managed) : bit ≤ 29 := by
  by_contra hlt
  have ha : a ∈ managed := hb (self_mem_block bit a)
  have htop : 0xFFFFFFFF ∈ block 30 a := by
    rw [mem_block]
    simp only [managed, PAGE_OFFSET, MAX_MAPPING, Set.mem_ofPred_eq] at ha
    omega
  have hout := hb (block_mono (show 30 ≤ bit from by omega) a htop)
  simp only [managed, PAGE_OFFSET, MAX_MAPPING, Set.mem_ofPred_eq] at hout
  omega

/-- A list of free blocks is short enough for the walk to reach its end. -/
theorem length_lt_walkFuel {l : List Nat} (hs : l.Pairwise (· < ·))
    (hl : ∀ a ∈ l, a ∈ managed) : l.length < walkFuel := by
  have hnd : l.Nodup := hs.imp fun hab => Nat.ne_of_lt hab
  have hsub : (↑l.toFinset : Set Nat) ⊆ managed := by
    intro x hx
    exact hl x (List.mem_toFinset.mp hx)
  have hcard := Set.ncard_le_ncard hsub managed_finite
  rw [Set.ncard_coe_finset, List.toFinset_card_of_nodup hnd, managed_ncard] at hcard
  exact lt_of_le_of_lt hcard (by decide)

/-! ## The list walk

The loop looks for the buddy and for the place to insert at. An ascending list lets it stop at the
first greater address. -/

/-- What the walk of `memory_block_free` has found when it ends. -/
inductive Walked (h : Heap) (ll sizep : Nat) (s : Slot Nat) (l : List Nat) : Found → Prop where
  | here (l₁ l₂ : List Nat) (hl : l = l₁ ++ l₂)
      (hlt : ∀ a ∈ l₁, a < ll ∧ ¬ (ll &&& sizep ≠ 0 ∧ add32 a sizep = ll))
      (hgt : ∀ a ∈ l₂, ll < a)
      (hfirst : ∀ a ∈ l₂.head?, ¬ (ll &&& sizep = 0 ∧ add32 ll sizep = a)) :
      Walked h ll sizep s l (.here (s.last l₁) (h.load (s.last l₁)))
  | upper (l₁ l₂ : List Nat) (entry : Nat) (hl : l = l₁ ++ entry :: l₂)
      (hbit : ll &&& sizep = 0) (hbuddy : add32 ll sizep = entry) :
      Walked h ll sizep s l (.upper (s.last l₁) entry)
  | lower (l₁ l₂ : List Nat) (entry : Nat) (hl : l = l₁ ++ entry :: l₂)
      (hbit : ll &&& sizep ≠ 0) (hbuddy : add32 entry sizep = ll) :
      Walked h ll sizep s l (.lower (s.last l₁) entry)

/-- One more element in front of a walk. -/
theorem Walked.cons {ll sizep : Nat} {s : Slot Nat} {l : List Nat} {r : Found}
    (hlt : a < ll) (hno : ¬ (ll &&& sizep ≠ 0 ∧ add32 a sizep = ll))
    (hw : Walked h ll sizep (.link a) l r) : Walked h ll sizep s (a :: l) r := by
  cases hw with
  | here l₁ l₂ hl hlt' hgt hfirst =>
    refine Walked.here (s := s) (a :: l₁) l₂ (by rw [hl, List.cons_append]) ?_ hgt hfirst
    intro b hb
    rcases List.mem_cons.mp hb with rfl | hb
    · exact ⟨hlt, hno⟩
    · exact hlt' b hb
  | upper l₁ l₂ entry hl hbit hbuddy =>
    exact Walked.upper (s := s) (a :: l₁) l₂ entry (by rw [hl, List.cons_append]) hbit hbuddy
  | lower l₁ l₂ entry hl hbit hbuddy =>
    exact Walked.lower (s := s) (a :: l₁) l₂ entry (by rw [hl, List.cons_append]) hbit hbuddy

/-- The walk over an ascending list that does not hold `ll` ends, and ends as described.
Induction on the list. -/
theorem walk_spec {ll sizep fuel : Nat} {s : Slot Nat} {l : List Nat}
    (hc : Chain h.load EMPTY s l) (hs : l.Pairwise (· < ·)) (hll : ll ∉ l)
    (hfuel : l.length < fuel) :
    ∃ r, h.walk ll sizep fuel s (h.load s) = .ok r ∧ Walked h ll sizep s l r := by
  induction l generalizing s fuel with
  | nil =>
    obtain ⟨fuel, rfl⟩ : ∃ n, fuel = n + 1 := ⟨fuel - 1, by omega⟩
    refine ⟨_, ?_, Walked.here [] [] rfl (by simp) (by simp) (by simp)⟩
    rw [walk, if_pos (Chain.nil_iff.mp hc)]
    rfl
  | cons a l ih =>
    obtain ⟨hload, hne, hc⟩ := hc
    obtain ⟨hal, hs⟩ := List.pairwise_cons.mp hs
    obtain ⟨hlla, hll⟩ := not_or.mp (mt List.mem_cons.mpr hll)
    obtain ⟨fuel, rfl⟩ : ∃ n, fuel = n + 1 := ⟨fuel - 1, by omega⟩
    rw [walk, hload, if_neg hne]
    by_cases hgt : ll < a
    · rw [if_pos hgt]
      by_cases hup : ll &&& sizep = 0 ∧ add32 ll sizep = a
      · rw [if_pos hup]
        exact ⟨_, rfl, Walked.upper [] l a rfl hup.1 hup.2⟩
      · rw [if_neg hup]
        have hw : Walked h ll sizep s (a :: l) (.here (s.last []) (h.load (s.last []))) := by
          refine Walked.here [] (a :: l) rfl (by simp) ?_ (by simpa using hup)
          intro b hb
          rcases List.mem_cons.mp hb with rfl | hb
          · exact hgt
          · exact hgt.trans (hal b hb)
        rw [show h.load (s.last []) = a from hload] at hw
        exact ⟨_, rfl, hw⟩
    · rw [if_neg hgt]
      by_cases hlow : ll &&& sizep ≠ 0 ∧ add32 a sizep = ll
      · rw [if_pos hlow]
        exact ⟨_, rfl, Walked.lower [] l a rfl hlow.1 hlow.2⟩
      · rw [if_neg hlow]
        -- neither an end of the walk nor a buddy: the walk goes on
        obtain ⟨r, hr, hw⟩ := ih hc hs hll (by simpa using hfuel)
        exact ⟨r, hr, hw.cons (by omega) hlow⟩

/-! ## The two edits

Taking the buddy out, or putting the block in. Each is one splice of a list. -/

/-- Slots of one list are not touched by a store behind another list. -/
theorem chain_store_other {j : Nat} {l l₁ : List Nat} {v : Nat} (hjk : j ≠ k)
    (hc : Chain h.load EMPTY (.head j) l) (hl : ∀ b ∈ l, b ∉ l₁) :
    Chain (h.store ((Slot.head k).last l₁) v).load EMPTY (.head j) l :=
  hc.congr (load_store_of_ne h v (Slot.last_head_ne_head hjk.symm).symm)
    fun b hb => load_store_of_ne h v (Slot.last_head_ne_link (hl b hb)).symm

/-- Storing at the end of a prefix leaves the words before it. -/
theorem load_store_before {l₁ : List Nat} {v : Nat} {t : Slot Nat} (hnd : l₁.Nodup)
    (ht : t ∈ (Slot.head k).before l₁) :
    (h.store ((Slot.head k).last l₁) v).load t = h.load t := by
  refine load_store_of_ne h v ?_
  rintro rfl
  exact Slot.last_notMem_before (by simp) hnd ht

/-- Blocks of different lists, or different blocks of one list, have different bases. -/
theorem base_ne {j b : Nat} (ha : Maximal F k a) (hb : Maximal F j b) (hjk : j ≠ k) : b ≠ a := by
  rintro rfl
  exact hjk (hb.eq_of_meet ha (self_mem_block j b) (self_mem_block k b)).1

/-- Detaching a listed block takes it out of the free set. -/
theorem FreeLists.detach (hF : h.FreeLists F) (hk : k < 28) {l₁ l₂ : List Nat}
    (hc : Chain h.load EMPTY (.head k) (l₁ ++ a :: l₂)) :
    (h.store ((Slot.head k).last l₁) (h.load (.link a))).FreeLists (F \ block (k + 2) a) := by
  obtain ⟨l, hcl, hsl, hml⟩ := hF k hk
  obtain rfl := hcl.unique hc
  have hma : Maximal F (k + 2) a := (hml a).mp (by simp)
  have hnd : (l₁ ++ a :: l₂).Nodup := hsl.imp fun hab => Nat.ne_of_lt hab
  obtain ⟨hnd₁, hnd₂, hdis⟩ := List.nodup_append.mp hnd
  intro j hj
  by_cases hjk : j = k
  · subst hjk
    refine ⟨l₁ ++ l₂, ?_, hsl.sublist ((List.sublist_cons_self a l₂).append_left l₁), ?_⟩
    -- the list of the block loses it
    · refine hc.splice (fun t ht => load_store_before hnd₁ ht) ?_
      refine hc.suffix.2.2.congr (load_store_self _ _ _) fun b hb => ?_
      refine load_store_of_ne h _ (Slot.last_head_ne_link fun hb₁ => ?_).symm
      exact hdis b hb₁ b (List.mem_cons_of_mem a hb) rfl
    · intro b
      have hne : b ∈ l₁ ++ l₂ → b ≠ a := by
        rintro hb rfl
        rcases List.mem_append.mp hb with hb | hb
        · exact hdis b hb b List.mem_cons_self rfl
        · exact (List.nodup_cons.mp hnd₂).1 hb
      rw [maximal_diff_iff hma, ← hml b]
      simp only [List.mem_append, List.mem_cons, true_and] at hne ⊢
      tauto
  -- a list of another order has no node in common with it
  · obtain ⟨l', hc', hs', hm'⟩ := hF j hj
    refine ⟨l', chain_store_other hjk hc' fun b hb hb₁ => ?_, hs', fun b => ?_⟩
    · refine base_ne ((hml b).mp (List.mem_append_left _ hb₁)) ((hm' b).mp hb) (by omega) rfl
    · rw [maximal_diff_iff hma, hm' b]
      have : ¬ (j + 2 = k + 2 ∧ b = a) := by omega
      tauto

/-- Inserting a block whose buddy is not free adds it to the free set. -/
theorem FreeLists.insert (hF : h.FreeLists F) (hk : k < 28) {l₁ l₂ : List Nat}
    (hc : Chain h.load EMPTY (.head k) (l₁ ++ l₂)) (hlt : ∀ b ∈ l₁, b < a) (hgt : ∀ b ∈ l₂, a < b)
    (ha : 2 ^ (k + 2) ∣ a) (hne : a ≠ EMPTY) (hd : Disjoint (block (k + 2) a) F)
    (hb : ¬ block (k + 2) (buddy (k + 2) a) ⊆ F) :
    ((h.store ((Slot.head k).last l₁) a).store (.link a)
      (h.load ((Slot.head k).last l₁))).FreeLists (F ∪ block (k + 2) a) := by
  obtain ⟨l, hcl, hsl, hml⟩ := hF k hk
  obtain rfl := hcl.unique hc
  have haF : a ∉ F := Set.disjoint_left.mp hd (self_mem_block _ a)
  have hout : ∀ {j b}, Maximal F j b → b ≠ a := by
    rintro j b hm rfl
    exact haF (hm.covered (self_mem_block j b))
  have hnd : (l₁ ++ l₂).Nodup := hsl.imp fun hab => Nat.ne_of_lt hab
  obtain ⟨hnd₁, -, hdis⟩ := List.nodup_append.mp hnd
  -- the slot written first is not the link of the new block
  have hprev : (Slot.head k).last l₁ ≠ .link a :=
    Slot.last_head_ne_link fun hmem => Nat.lt_irrefl a (hlt a hmem)
  intro j hj
  by_cases hjk : j = k
  · subst hjk
    refine ⟨l₁ ++ a :: l₂, ?_, ?_, ?_⟩
    · refine hc.splice (fun t ht => ?_) ⟨?_, hne, ?_⟩
      · have hta : t ≠ .link a := by
          rcases Slot.mem_before ht with rfl | ⟨b, hb, rfl⟩
          · exact nofun
          · intro heq
            exact Nat.ne_of_lt (hlt b hb) (Slot.link.inj heq)
        rw [load_store_of_ne _ _ hta, load_store_before hnd₁ ht]
      · rw [load_store_of_ne _ _ hprev, load_store_self]
      · refine hc.suffix.congr (load_store_self _ _ _) fun b hb => ?_
        have hba : (Slot.link b : Slot Nat) ≠ .link a := by
          intro heq
          exact Nat.ne_of_gt (hgt b hb) (Slot.link.inj heq)
        rw [load_store_of_ne _ _ hba, load_store_of_ne]
        exact (Slot.last_head_ne_link fun hb₁ => hdis b hb₁ b hb rfl).symm
    · obtain ⟨hs₁, hs₂, hs₁₂⟩ := List.pairwise_append.mp hsl
      refine List.pairwise_append.mpr ⟨hs₁, List.pairwise_cons.mpr ⟨hgt, hs₂⟩, fun b hbl c hcl => ?_⟩
      rcases List.mem_cons.mp hcl with rfl | hcl
      · exact hlt b hbl
      · exact hs₁₂ b hbl c hcl
    · intro b
      rw [maximal_union_iff ha hd hb, ← hml b]
      simp only [List.mem_append, List.mem_cons, true_and]
      tauto
  · -- the other lists share no slot with this one
    obtain ⟨l', hc', hs', hm'⟩ := hF j hj
    refine ⟨l', ?_, hs', fun b => ?_⟩
    · have hc₁ : Chain (h.store ((Slot.head k).last l₁) a).load EMPTY (.head j) l' := by
        refine chain_store_other hjk hc' fun b hb hb₁ => ?_
        exact base_ne ((hml b).mp (List.mem_append_left _ hb₁)) ((hm' b).mp hb) (by omega) rfl
      refine hc₁.congr (load_store_of_ne _ _ nofun) fun b hb => ?_
      refine load_store_of_ne _ _ fun heq => ?_
      exact hout ((hm' b).mp hb) (Slot.link.inj heq)
    · rw [maximal_union_iff ha hd hb, hm' b]
      have : ¬ (j + 2 = k + 2 ∧ b = a) := by omega
      tauto

/-! ## `memory_block_free`

As long as the buddy is free the two become one block of the next order, and the walk begins again
there. -/

/-- The lists depend on the slots only, not on the counter. -/
theorem FreeLists.of_load (hF : h.FreeLists F) {h' : Heap} (hl : h'.load = h.load) :
    h'.FreeLists F := by
  unfold FreeLists
  rw [hl]
  exact hF

theorem load_withCounter (h : Heap) (n : Nat) :
    ({ h with freeMemoryCounter := n } : Heap).load = h.load := by
  funext s
  cases s <;> rfl

theorem load_store_congr {g : Heap} (hl : g.load = h.load) (p : Slot Nat) (v : Nat) :
    (g.store p v).load = (h.store p v).load := by
  funext q
  rw [load_store, load_store, hl]

/-- A word outside the free memory is not the link of a listed block. -/
theorem word_store_last {l₁ l₂ : List Nat} {v x : Nat} (hF : h.FreeLists F) (hk : k < 28)
    (hc : Chain h.load EMPTY (.head k) (l₁ ++ l₂)) (hx : x ∉ F) :
    (h.store ((Slot.head k).last l₁) v).word x = h.word x := by
  obtain ⟨l, hcl, -, hml⟩ := hF k hk
  obtain rfl := hcl.unique hc
  have hne : (Slot.head k).last l₁ ≠ .link x := Slot.last_head_ne_link fun hmem => by
    have hm := (hml x).mp (List.mem_append_left _ hmem)
    exact hx (hm.covered (self_mem_block _ x))
  exact load_store_of_ne h v hne.symm

/-- Merging keeps the representation: the buddy leaves its list, and the counter, which
already counts the freed block, loses both. -/
theorem Rep.detachBuddy (hR : Rep h F) (hk : k < 28) {l₁ l₂ : List Nat}
    (hc : Chain h.load EMPTY (.head k) (l₁ ++ a :: l₂)) :
    Rep (detachBuddy { h with freeMemoryCounter := add32 h.freeMemoryCounter (2 ^ (k + 2)) }
      ((Slot.head k).last l₁) a (2 ^ (k + 2))) (F \ block (k + 2) a) := by
  obtain ⟨l, hcl, -, hml⟩ := hR.lists k hk
  obtain rfl := hcl.unique hc
  have hma : Maximal F (k + 2) a := (hml a).mp (by simp)
  refine ⟨Set.sdiff_subset.trans hR.inside, fun x hx y hy => ?_, ?_, ?_⟩
  · refine ⟨hR.words x hx.1 hy, fun hya => hx.2 ?_⟩
    -- a word that meets a block of order at least 2 lies inside it
    exact block_subset_of_meet (by omega) hy hya (self_mem_block 2 x)
  · refine (hR.lists.detach hk hc).of_load ?_
    rw [Heap.detachBuddy, load_withCounter, load_withCounter h]
    exact load_store_congr (load_withCounter h _) _ _
  · have hfin := free_finite hR.inside
    have hle : F.ncard ≤ MAX_MAPPING := free_ncard_le hR.inside
    have hblock : 2 ^ (k + 2) ≤ F.ncard := by
      rw [← block_ncard hma.aligned]
      exact Set.ncard_le_ncard hma.covered hfin
    rw [Set.ncard_sdiff hma.covered (block_finite hma.aligned), block_ncard hma.aligned]
    simp only [Heap.detachBuddy, store_counter, hR.counter]
    unfold MAX_MAPPING at hle
    generalize 2 ^ (k + 2) = sizep at hblock ⊢
    rw [add32_of_lt (by omega), sub32_of_le (by omega) (by omega)]
    omega

/-- Inserting a block whose buddy is not free keeps the representation. -/
theorem Rep.insert (hR : Rep h F) (hk : k < 28) {l₁ l₂ : List Nat}
    (hc : Chain h.load EMPTY (.head k) (l₁ ++ l₂)) (hlt : ∀ b ∈ l₁, b < a) (hgt : ∀ b ∈ l₂, a < b)
    (ha : 2 ^ (k + 2) ∣ a) (hin : block (k + 2) a ⊆ managed) (hd : Disjoint (block (k + 2) a) F)
    (hb : ¬ block (k + 2) (buddy (k + 2) a) ⊆ F) :
    Rep (({ h with freeMemoryCounter := add32 h.freeMemoryCounter (2 ^ (k + 2)) }.store
      ((Slot.head k).last l₁) a).store (.link a) (h.load ((Slot.head k).last l₁)))
      (F ∪ block (k + 2) a) := by
  have hne : a ≠ EMPTY := by
    have := (hin (self_mem_block _ a)).2
    unfold PAGE_OFFSET MAX_MAPPING at this
    unfold EMPTY
    omega
  refine ⟨Set.union_subset hR.inside hin, ?_, ?_, ?_⟩
  -- the words of the block are whole as well
  · rintro x (hx | hx)
    · exact (hR.words x hx).trans Set.subset_union_left
    · exact (block_subset_of_meet (by omega) (self_mem_block 2 x) hx).trans Set.subset_union_right
  · refine (hR.lists.insert hk hc hlt hgt ha hne hd hb).of_load ?_
    exact load_store_congr (load_store_congr (load_withCounter h _) _ _) _ _
  · have hle := free_ncard_le (Set.union_subset hR.inside hin)
    rw [Set.ncard_union_eq hd.symm (free_finite hR.inside) (block_finite ha), block_ncard ha] at hle ⊢
    simp only [store_counter, hR.counter]
    unfold MAX_MAPPING at hle
    exact add32_of_lt (by omega)

/-- The place a sorted walk stops at without a merge: the buddy of the block is not free. -/
theorem not_buddy_of_here {ll : Nat} {l₁ l₂ : List Nat} (hm : ∀ b, b ∈ l₁ ++ l₂ ↔ Maximal F bit b)
    (ha : 2 ^ bit ∣ ll) (hin : block bit ll ⊆ managed) (hd : Disjoint (block bit ll) F)
    (hsort : (l₁ ++ l₂).Pairwise (· < ·)) (hFin : F ⊆ managed)
    (hlt : ∀ a ∈ l₁, a < ll ∧ ¬ (ll &&& 2 ^ bit ≠ 0 ∧ add32 a (2 ^ bit) = ll))
    (hgt : ∀ a ∈ l₂, ll < a)
    (hfirst : ∀ a ∈ l₂.head?, ¬ (ll &&& 2 ^ bit = 0 ∧ add32 ll (2 ^ bit) = a)) :
    ¬ block bit (buddy bit ll) ⊆ F := by
  rw [← maximal_buddy_iff ha hd, ← hm]
  intro hmem
  have hmax := (hm _).mp hmem
  have hbit := bit_le_of_managed hin
  have hpow : 2 ^ bit ≤ 2 ^ 29 := Nat.pow_le_pow_right (by omega) hbit
  have hll : ll < PAGE_OFFSET + MAX_MAPPING := (hin (self_mem_block _ ll)).2
  unfold PAGE_OFFSET MAX_MAPPING at hll
  cases htest : ll.testBit bit with
  | true =>
    -- the buddy lies below, so the walk compared it with `ll`
    have hle := testBit_sub_le htest
    have hpos := Nat.two_pow_pos bit
    rw [buddy, if_pos htest] at hmem
    rcases List.mem_append.mp hmem with h₁ | h₂
    · refine (hlt _ h₁).2 ⟨and_two_pow_ne_zero.mpr htest, ?_⟩
      rw [add32_of_lt (by omega)]
      omega
    · have := hgt _ h₂
      omega
  | false =>
    -- the buddy lies above; aligned blocks leave no room for another one before it
    rw [buddy, if_neg (by simp [htest])] at hmem hmax
    have hpos := Nat.two_pow_pos bit
    rcases List.mem_append.mp hmem with h₁ | h₂
    · have := (hlt _ h₁).1
      omega
    · cases l₂ with
      | nil => exact absurd h₂ List.not_mem_nil
      | cons e l₂ =>
        have hbud : ll + 2 ^ bit < PAGE_OFFSET + MAX_MAPPING :=
          (hFin (hmax.covered (self_mem_block _ _))).2
        unfold PAGE_OFFSET MAX_MAPPING at hbud
        have hne : e ≠ ll + 2 ^ bit := by
          intro heq
          refine hfirst e rfl ⟨and_two_pow_eq_zero.mpr htest, ?_⟩
          rw [add32_of_lt (by omega), heq]
        have hlast : ll + 2 ^ bit ∈ l₂ := (List.mem_cons.mp h₂).resolve_left (Ne.symm hne)
        have hlt' : e < ll + 2 ^ bit :=
          (List.pairwise_cons.mp (List.pairwise_append.mp hsort).2.1).1 _ hlast
        have hem : Maximal F bit e := (hm e).mp (List.mem_append_right _ List.mem_cons_self)
        have hmeet : e ∈ block bit ll :=
          (mem_block_iff ha).mpr ⟨(hgt e List.mem_cons_self).le, hlt'⟩
        exact Set.disjoint_left.mp hd hmeet (hem.covered (self_mem_block _ e))

/-- The buddy tests of the walk do not wrap around. -/
theorem add32_managed {x : Nat} (hx : x ∈ managed) (hbit : bit ≤ 29)
    (hsum : add32 x (2 ^ bit) ∈ managed) : add32 x (2 ^ bit) = x + 2 ^ bit := by
  have hpow : 2 ^ bit ≤ 2 ^ 29 := Nat.pow_le_pow_right (by omega) hbit
  have hlt := hx.2
  have hge := hsum.1
  unfold PAGE_OFFSET at hlt hge
  unfold MAX_MAPPING at hlt
  unfold add32 at hge ⊢
  generalize 2 ^ bit = sizep at hpow hge ⊢
  omega

/-- What a call that frees the addresses `B` does to the heap: `B` joins the free set, and no
word outside the free memory is written. -/
structure Freed (h : Heap) (F B : Set Nat) (h' : Heap) : Prop where
  rep : Rep h' (F ∪ B)
  frame : ∀ x, x ∉ F ∪ B → h'.word x = h.word x

/-- **Freeing a block.** An aligned block of the managed range that is not free is added to the
free set; every merge stays within the lists. Induction on the number of merges left: each
merge detaches the buddy and frees the pair as one block. -/
theorem blockFreeRec_spec {depth : Nat} (hR : Rep h F) (hlo : 2 ≤ bit) (hdepth : 30 ≤ depth + bit)
    (ha : 2 ^ bit ∣ a) (hin : block bit a ⊆ managed) (hd : Disjoint (block bit a) F) :
    ∃ h', blockFreeRec depth h a bit = .ok h' ∧ Freed h F (block bit a) h' := by
  induction depth generalizing h F a bit with
  | zero =>
    have := bit_le_of_managed hin
    omega
  | succ depth ih =>
    have hbit := bit_le_of_managed hin
    obtain ⟨k, rfl⟩ : ∃ k, bit = k + 2 := ⟨bit - 2, by omega⟩
    obtain ⟨l, hc, hs, hm⟩ := hR.lists k (by omega)
    set g : Heap := { h with freeMemoryCounter := add32 h.freeMemoryCounter (2 ^ (k + 2)) } with hg
    have hgl : g.load = h.load := load_withCounter h _
    have hmem : ∀ b ∈ l, b ∈ F := fun b hb => ((hm b).mp hb).covered (self_mem_block _ b)
    have hal : a ∉ l := fun hal => Set.disjoint_left.mp hd (self_mem_block _ a) (hmem a hal)
    have hfuel := length_lt_walkFuel hs fun b hb => hR.inside (hmem b hb)
    obtain ⟨r, hr, hw⟩ : ∃ r, g.walk a (2 ^ (k + 2)) walkFuel (.head k) (g.load (.head k)) = .ok r ∧
        Walked g a (2 ^ (k + 2)) (.head k) l r := walk_spec (hgl ▸ hc) hs hal hfuel
    -- both merges free the pair in the heap without the buddy
    have hmerge : ∀ {l₁ l₂ c}, l = l₁ ++ buddy (k + 2) a :: l₂ → 2 ^ (k + 3) ∣ c →
        block (k + 3) c = block (k + 3) a →
        ∃ h', blockFreeRec depth
            (g.detachBuddy ((Slot.head k).last l₁) (buddy (k + 2) a) (2 ^ (k + 2))) c (k + 3)
            = .ok h' ∧ Freed h F (block (k + 2) a) h' := by
      intro l₁ l₂ c hl hca hcb
      have hmax : Maximal F (k + 2) (buddy (k + 2) a) := (hm _).mp (by simp [hl])
      have hpair : block (k + 3) c ⊆ managed := by
        rw [hcb, block_succ]
        exact Set.union_subset hin (hmax.covered.trans hR.inside)
      have hdis : Disjoint (block (k + 3) c) (F \ block (k + 2) (buddy (k + 2) a)) := by
        rw [hcb, block_succ, Set.disjoint_union_left]
        exact ⟨hd.mono_right Set.sdiff_subset, Set.disjoint_sdiff_right⟩
      obtain ⟨h', hok, hrep, hframe⟩ := ih (hR.detachBuddy (by omega) (hl ▸ hc)) (by omega)
        (by omega) hca hpair hdis
      rw [hcb, diff_buddy_union hmax.covered] at hrep hframe
      refine ⟨h', hok, hrep, fun x hx => (hframe x hx).trans ?_⟩
      exact word_store_last hR.lists (by omega) (hl ▸ hc) fun hxF => hx (Or.inl hxF)
    rw [blockFreeRec, if_neg (by omega)]
    simp only [Nat.add_sub_cancel, ← hg]
    rw [hr]
    cases hw with
    | here l₁ l₂ hl hlt hgt hfirst =>
      have hnb : ¬ block (k + 2) (buddy (k + 2) a) ⊆ F :=
        not_buddy_of_here (hl ▸ hm) ha hin hd (hl ▸ hs) hR.inside hlt hgt hfirst
      have hrep := hR.insert (by omega) (hl ▸ hc) (fun b hb => (hlt b hb).1) hgt ha hin hd hnb
      refine ⟨_, rfl, hgl ▸ hrep, fun x hx => ?_⟩
      have hxa : x ≠ a := by
        rintro rfl
        exact hx (Or.inr (self_mem_block _ x))
      rw [← load_link, load_store_of_ne _ _ (by simpa using hxa), load_link]
      exact word_store_last hR.lists (by omega) (hl ▸ hc) fun hxF => hx (Or.inl hxF)
    | upper l₁ l₂ entry hl hb hbuddy =>
      have htest := and_two_pow_eq_zero.mp hb
      have hent : entry = buddy (k + 2) a := by
        rw [buddy, if_neg (by simp [htest])]
        exact hbuddy.symm.trans (add32_managed (hin (self_mem_block _ a)) hbit
          (hbuddy ▸ hR.inside (hmem entry (by simp [hl]))))
      subst hent
      exact hmerge hl (aligned_succ ha htest) rfl
    | lower l₁ l₂ entry hl hb hbuddy =>
      have htest := and_two_pow_ne_zero.mp hb
      have hent : entry = buddy (k + 2) a := by
        have hsum := add32_managed (hR.inside (hmem entry (by simp [hl]))) hbit
          (hbuddy ▸ hin (self_mem_block _ a))
        rw [buddy, if_pos htest, ← hbuddy, hsum, Nat.add_sub_cancel]
      subst hent
      exact hmerge hl (buddy_aligned_succ ha htest) (block_succ_buddy _ _)

/-- **`memory_block_free`.** -/
theorem memoryBlockFree_spec (hR : Rep h F) (hlo : 2 ≤ bit) (ha : 2 ^ bit ∣ a)
    (hin : block bit a ⊆ managed) (hd : Disjoint (block bit a) F) :
    ∃ h', h.memoryBlockFree a bit = .ok h' ∧ Freed h F (block bit a) h' :=
  blockFreeRec_spec hR hlo (by omega) ha hin hd

end Heap

end NorlitOS
