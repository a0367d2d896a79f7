import NorlitOS.Process.Mapping

/-!
# The loop of `open_physical_memory`

The loop maps page after page, at any address and of any number, and stops at the first page in
use. It only ever fills empty words: `Extended` is this order on address spaces, with the ledger
carried along. A page of the kernel half that is mapped goes into tables all processes share.
-/

namespace NorlitOS

open Dyadic Ledger

namespace Kernel

variable {k k' k₁ k₂ : Kernel} {own own' own₁ own₂ : Owner → Option Nat}
  {pool pool' pool₁ pool₂ : Set Nat} {p q i j x f v n flag addr : Nat} {r : Nat × Kernel}

/-! ## Addresses

The loop adds `PAGE_SIZE` in `u32`, so a range may go round the end of the address space. Its
pages have their entries at the directory and table index of the address modulo `2 ^ 32`. -/

/-- The entry that translates `addr` in the address space of `p`. -/
def entryAt (k : Kernel) (p addr : Nat) : Nat := k.pte p (va2pde addr) (va2pte addr)

/-- Page `i` of a range. -/
def nthPage (addr i : Nat) : Nat := (fun a => add32 a PAGE_SIZE)^[i] addr

/-- The first page is at the address itself. -/
theorem nthPage_zero (addr : Nat) : nthPage addr 0 = addr := by
  unfold nthPage
  rw [Function.iterate_zero_apply]

theorem nthPage_succ (addr i : Nat) : nthPage addr (i + 1) = nthPage (add32 addr PAGE_SIZE) i := by
  unfold nthPage
  rw [Function.iterate_succ_apply]

/-- The address in `Nat` and the one of the loop are equal modulo `2 ^ 32`. -/
theorem nthPage_mod (addr i : Nat) : nthPage addr i % 2 ^ 32 = (addr + PAGE_SIZE * i) % 2 ^ 32 := by
  induction i generalizing addr with
  | zero => rw [nthPage_zero, Nat.mul_zero, Nat.add_zero]
  | succ i ih =>
    rw [nthPage_succ, ih]
    unfold add32 PAGE_SIZE
    omega

/-- So they have the same entry in the directory. -/
theorem va2pde_nthPage (addr i : Nat) : va2pde (nthPage addr i) = va2pde (addr + PAGE_SIZE * i) := by
  unfold va2pde
  rw [nthPage_mod]

theorem va2pte_nthPage (addr i : Nat) : va2pte (nthPage addr i) = va2pte (addr + PAGE_SIZE * i) := by
  have h := nthPage_mod addr i
  unfold va2pte
  omega

/-- A range that comes back to its first page has met the kernel half on the way. -/
theorem nthPage_ne_of_user (huser : ∀ j < i, va2pde (nthPage addr j) < USER_PDES) (h0 : 0 < i) :
    ¬ (va2pde (nthPage addr i) = va2pde addr ∧ va2pte (nthPage addr i) = va2pte addr) := by
  rintro ⟨hd, ht⟩
  rw [va2pde_nthPage] at hd
  rw [va2pte_nthPage] at ht
  have hlong : 2 ^ 20 ≤ i := by
    unfold va2pde at hd
    unfold va2pte at ht
    unfold PAGE_SIZE at hd ht
    omega
  -- the page at `PAGE_OFFSET` is this many pages away
  have hhigh := huser ((2 ^ 32 + PAGE_OFFSET + 4095 - addr % 2 ^ 32) / 4096 % 2 ^ 20) (by omega)
  rw [va2pde_nthPage] at hhigh
  unfold va2pde USER_PDES PAGE_OFFSET PAGE_SIZE at hhigh
  omega

/-! ## Filling empty words

`Extended` is reflexive and transitive, so the loop needs to be looked at for one page only. It
allows new page tables, and says that they were taken from free memory and that the entries in use
stay. -/

/-- `k'` has filled empty entries of the address space of `p`, with new tables where needed. -/
structure Extended (k : Kernel) (own : Owner → Option Nat) (pool : Set Nat) (p : Nat) (k' : Kernel)
    (own' : Owner → Option Nat) (pool' : Set Nat) : Prop where
  proc : k'.proc = k.proc
  thr : k'.thr = k.thr
  processTable : k'.processTable = k.processTable
  currentProc : k'.currentProc = k.currentProc
  currentThread : k'.currentThread = k.currentThread
  inPool : pool' ⊆ pool
  layout : k'.Layout True pool'
  owned : Owned k'.heap own' pool'
  agree : Agree own' k'
  ledger : ∀ o, (∀ i, o ≠ .pageTable p i) → own' o = own o
  freeSet : k'.heap.freeSet ⊆ k.heap.freeSet
  pde : ∀ q ∈ k.processTable, ∀ i, k.pde q i ≠ 0 → k'.pde q i = k.pde q i
  pte : ∀ q ∈ k.processTable, ∀ i < USER_PDES, ∀ j, k.pte q i j ≠ 0 → k'.pte q i j = k.pte q i j
  words : ∀ g ∉ pool, ∀ j, k.table g j ≠ 0 → k'.table g j = k.table g j
  other : ∀ q ∈ k.processTable, q ≠ p → ∀ i < USER_PDES, ∀ j, k'.pte q i j = k.pte q i j
  tables : ∀ x ∈ k.heap.freeSet, x ∉ k'.heap.freeSet → ∃ i < 1024, k'.pde p i ≠ 0 ∧
    x ∈ page (frameAt (k'.pde p i))
  fresh : ∀ i, k.pde p i = 0 → k'.pde p i ≠ 0 → page (frameAt (k'.pde p i)) ⊆ k.heap.freeSet

/-- Nothing mapped. -/
theorem Extended.refl (hL : k.Layout True pool) (hO : Owned k.heap own pool) (hA : Agree own k) :
    Extended k own pool p k own pool :=
  ⟨rfl, rfl, rfl, rfl, rfl, subset_rfl, hL, hO, hA, fun _ _ => rfl, subset_rfl, fun _ _ _ _ => rfl,
    fun _ _ _ _ _ _ => rfl, fun _ _ _ _ => rfl, fun _ _ _ _ _ _ => rfl,
    fun _ hx hx' => absurd hx hx', fun _ h h' => absurd h h'⟩

/-- Page after page. -/
theorem Extended.trans (hp : p ∈ k.processTable) (h₁ : Extended k own pool p k₁ own₁ pool₁)
    (h₂ : Extended k₁ own₁ pool₁ p k₂ own₂ pool₂) : Extended k own pool p k₂ own₂ pool₂ := by
  have hmem : ∀ {q}, q ∈ k.processTable → q ∈ k₁.processTable := fun hq => by
    rw [h₁.processTable]
    exact hq
  refine ⟨h₂.proc.trans h₁.proc, h₂.thr.trans h₁.thr, h₂.processTable.trans h₁.processTable,
    h₂.currentProc.trans h₁.currentProc, h₂.currentThread.trans h₁.currentThread,
    h₂.inPool.trans h₁.inPool, h₂.layout, h₂.owned, h₂.agree,
    fun o ho => (h₂.ledger o ho).trans (h₁.ledger o ho), h₂.freeSet.trans h₁.freeSet, ?_, ?_, ?_, ?_,
    ?_, ?_⟩
  · intro q hq i h0
    have hsame := h₁.pde q hq i h0
    exact (h₂.pde q (hmem hq) i (by rwa [hsame])).trans hsame
  · intro q hq i hi j h0
    have hsame := h₁.pte q hq i hi j h0
    exact (h₂.pte q (hmem hq) i hi j (by rwa [hsame])).trans hsame
  · intro g hg j h0
    have hsame := h₁.words g hg j h0
    exact (h₂.words g (fun hin => hg (h₁.inPool hin)) j (by rwa [hsame])).trans hsame
  · intro q hq hne i hi j
    exact (h₂.other q (hmem hq) hne i hi j).trans (h₁.other q hq hne i hi j)
  · intro x hx hx'
    -- taken by the second part, or by the first
    by_cases hx₁ : x ∈ k₁.heap.freeSet
    · exact h₂.tables x hx₁ hx'
    · obtain ⟨i, hi, h0, hin⟩ := h₁.tables x hx hx₁
      have hsame := h₂.pde p (hmem hp) i h0
      exact ⟨i, hi, by rwa [hsame], by rwa [hsame]⟩
  · intro i h0 h0'
    by_cases h0₁ : k₁.pde p i = 0
    · exact (h₂.fresh i h0₁ h0').trans h₁.freeSet
    · rw [h₂.pde p (hmem hp) i h0₁]
      exact h₁.fresh i h0 h0₁

/-- What is mapped stays mapped, in both halves. -/
theorem Extended.entryAt (hE : Extended k own pool p k' own' pool') (hL : k.Layout True pool)
    (hq : q ∈ k.processTable) (h0 : k.entryAt q addr ≠ 0) : k'.entryAt q addr = k.entryAt q addr := by
  rcases Nat.lt_or_ge (va2pde addr) USER_PDES with hi | hi
  · exact hE.pte q hq _ hi _ h0
  · unfold Kernel.entryAt at h0 ⊢
    have hd : k.pde q (va2pde addr) ≠ 0 := fun hd => h0 (pte_of_no_pde hd)
    have hd' := hE.pde q hq _ hd
    rw [pte_of_pde hd] at h0 ⊢
    rw [pte_of_pde (by rwa [hd']), hd']
    exact hE.words _ (hL.kernelHalf hq hi (va2pde_lt addr) hd) _ h0

/-! ## One page

`open_physical_page` makes the page table when there is none, and then either finds the entry in
use or fills it. A table of the user half belongs to the process, one of the kernel half to all:
the two cases have their own lemmas and one result. -/

/-- What a table that may be new changes in the directories and in the free memory. -/
structure Grown (k : Kernel) (p : Nat) (k' : Kernel) : Prop where
  freeSet : k'.heap.freeSet ⊆ k.heap.freeSet
  pde : ∀ q ∈ k.processTable, ∀ i, k.pde q i ≠ 0 → k'.pde q i = k.pde q i
  tables : ∀ x ∈ k.heap.freeSet, x ∉ k'.heap.freeSet → ∃ i < 1024, k'.pde p i ≠ 0 ∧
    x ∈ page (frameAt (k'.pde p i))
  fresh : ∀ i, k.pde p i = 0 → k'.pde p i ≠ 0 → page (frameAt (k'.pde p i)) ⊆ k.heap.freeSet

/-- At most one table was added, and it came from free memory. -/
theorem Grown.of_new (hnew : k' = k ∨ NewTable k p i k') (hp : p ∈ k.processTable) (hi : i < 1024)
    (hused : k'.pde p i ≠ 0)
    (hpde : ∀ q ∈ k.processTable, ∀ a, ¬ (q = p ∧ a = i) → k'.pde q a = k.pde q a) :
    Grown k p k' := by
  cases hnew with
  | inl heq =>
    rw [heq]
    exact ⟨subset_rfl, fun _ _ _ _ => rfl, fun _ hx hx' => absurd hx hx', fun _ h h' => absurd h h'⟩
  | inr hN =>
    refine ⟨hN.freeSet ▸ Set.sdiff_subset, fun q hq a h0 => hpde q hq a ?_, fun x hx hx' => ?_,
      fun a h0 h0' => ?_⟩
    · rintro ⟨rfl, rfl⟩
      exact h0 hN.empty
    · rw [hN.freeSet] at hx'
      exact ⟨i, hi, hused, by_contra fun hout => hx' ⟨hx, hout⟩⟩
    · by_cases ha : a = i
      · rw [ha]
        exact hN.free
      · exact absurd ((hpde p hp a fun hc => ha hc.2).trans h0) h0'

/-- A table of the user half, new or not. -/
theorem Tabled.extended (hT : Tabled k own True pool p i k₁) (hA : Agree own k)
    (hp : p ∈ k.processTable) (hi : i < USER_PDES) : Extended k own pool p k₁
      (Function.update own (.pageTable p i) (some (frameAt (k₁.pde p i)))) pool := by
  have hG : Grown k p k₁ := Grown.of_new hT.new hp (hi.trans (by decide)) hT.used hT.pde
  refine ⟨hT.proc, hT.thr, hT.processTable, hT.currentProc, hT.currentThread, subset_rfl, hT.layout,
    hT.owned, ⟨fun q => ?_, fun q a => ?_⟩, fun o ho => Function.update_of_ne (ho i) _ _, hG.freeSet,
    hG.pde, fun q hq a ha b _ => hT.pte q hq a ha b, fun g hg _ _ => by rw [hT.half.outside g hg],
    fun q hq _ a ha b => hT.pte q hq a ha b, hG.tables, hG.fresh⟩
  · rw [hT.frames, Function.update_of_ne (by simp), Function.update_of_ne (by simp)]
    exact hA.dir q
  · rw [hT.frames, Function.update_apply, Function.update_apply]
    split
    · rfl
    · exact hA.table q a

/-- A table of the kernel half, new or not. -/
theorem KernelTabled.extended (hT : KernelTabled k own True pool p i k₁ pool₁) (hA : Agree own k)
    (hp : p ∈ k.processTable) (hi : i < 1024) : Extended k own pool p k₁ own pool₁ := by
  have hG : Grown k p k₁ := Grown.of_new hT.new hp hi hT.used hT.pde
  refine ⟨hT.proc, hT.thr, hT.processTable, hT.currentProc, hT.currentThread, hT.inPool, hT.layout,
    hT.owned, ⟨fun q => ?_, fun q a => ?_⟩, fun _ _ => rfl, hG.freeSet,
    hG.pde, fun q hq a ha b _ => hT.pte q hq a ha b, fun g hg _ _ => by rw [hT.outside g hg],
    fun q hq _ a ha b => hT.pte q hq a ha b, hG.tables, hG.fresh⟩
  · rw [hT.frames]
    exact hA.dir q
  · rw [hT.frames]
    exact hA.table q a

/-- A store into an empty word of a table of `p`, in the user half. -/
theorem Extended.setEntry (hL : k.Layout True pool) (hO : Owned k.heap own pool) (hA : Agree own k)
    (hp : p ∈ k.processTable) (hi : i < USER_PDES) (hj : j < 1024) (h0 : k.pde p i ≠ 0)
    (hz : k.pte p i j = 0) (hv : v ≠ 0 → Entry True v) :
    Extended k own pool p (k.setWord (frameAt (k.pde p i)) j v) own pool := by
  have hpte := fun {q} (hq : q ∈ k.processTable) {a} (ha : a < USER_PDES) b =>
    pte_setEntry (j := j) (v := v) hL hp hi h0 hq ha b
  have hframes := frameOf_setEntry (v := v) hL hp hi h0 hj
  refine ⟨rfl, rfl, rfl, rfl, rfl, subset_rfl, hL.setEntry hp hi h0 hv, hO,
    ⟨fun q => ?_, fun q a => ?_⟩, fun _ _ => rfl, subset_rfl,
    fun q hq a _ => pde_setEntry hL hp hi h0 hq a, fun q hq a ha b hb => ?_, fun g hg b _ => ?_,
    fun q hq hne a ha b => ?_, fun _ hx hx' => absurd hx hx', fun a ha ha' => ?_⟩
  · rw [hframes, Function.update_of_ne (by simp)]
    exact hA.dir q
  · rw [hframes, Function.update_of_ne (by simp)]
    exact hA.table q a
  · rw [hpte hq ha]
    split
    · next h =>
      obtain ⟨rfl, rfl, rfl⟩ := h
      exact absurd hz hb
    · rfl
  -- the table is in the pool
  · rw [setWord_table, if_neg fun hc => hg ?_]
    rw [hc.1]
    exact hL.tableIn hp hi h0
  · rw [hpte hq ha, if_neg fun hc => hne hc.1]
  · rw [pde_setEntry hL hp hi h0 hp] at ha'
    exact absurd ha ha'

/-- A store into an empty word outside the pool. -/
theorem Extended.setOutside (hL : k.Layout True pool) (hO : Owned k.heap own pool)
    (hA : Agree own k) (hp : p ∈ k.processTable) (hf : f ∉ pool) (hz : k.table f j = 0) :
    Extended k own pool p (k.setWord f j v) own pool := by
  have hpde := fun {q} (hq : q ∈ k.processTable) a =>
    pde_setWord_outside (j := j) (v := v) hL hf hq a
  have hpte := fun {q} (hq : q ∈ k.processTable) {a} (ha : a < USER_PDES) b =>
    pte_setWord_outside (j := j) (v := v) hL hf hq ha b
  have hframes := frameOf_setWord_outside (j := j) (v := v) hL hf
  refine ⟨rfl, rfl, rfl, rfl, rfl, subset_rfl, hL.setWord_outside hf, hO,
    ⟨fun q => ?_, fun q a => ?_⟩, fun _ _ => rfl, subset_rfl, fun q hq a _ => hpde hq a,
    fun q hq a ha b _ => hpte hq ha b, fun g hg b hb => ?_, fun q hq _ a ha b => hpte hq ha b,
    fun _ hx hx' => absurd hx hx', fun a ha ha' => ?_⟩
  · rw [hframes]
    exact hA.dir q
  · rw [hframes]
    exact hA.table q a
  -- the word was empty
  · rw [setWord_table, if_neg]
    rintro ⟨rfl, rfl⟩
    exact hb hz
  · rw [hpde hp] at ha'
    exact absurd ha ha'

/-- The entry that is written is one that the layout allows. -/
theorem entry_mapped (x flag : Nat) : Entry True (x ||| 0b11111 ||| flag) := by
  refine ⟨?_, fun _ => trivial⟩
  rw [Nat.testBit_or, Nat.testBit_or]
  simp

/-- What `open_physical_page` does at `addr`. -/
inductive PageOpened (k : Kernel) (own : Owner → Option Nat) (pool : Set Nat) (p addr v : Nat) :
    Nat × Kernel → Prop where
  | used (mapped : k.entryAt p addr ≠ 0) : PageOpened k own pool p addr v (0xFFFFFFFF, k)
  | mapped {k' : Kernel} {own' : Owner → Option Nat} {pool' : Set Nat}
      (empty : k.entryAt p addr = 0) (extended : Extended k own pool p k' own' pool')
      (set : k'.entryAt p addr = v)
      (user : va2pde addr < USER_PDES → pool' = pool ∧ SameHalf pool k k' ∧
        ∀ b, ¬ (va2pde b = va2pde addr ∧ va2pte b = va2pte addr) →
          k'.entryAt p b = k.entryAt p b) : PageOpened k own pool p addr v (0, k')

/-- In the user half one entry changes. -/
theorem Opened.entryAt (ho : Opened k own True pool p (va2pde addr) (va2pte addr) v k')
    (hL : k.Layout True pool) (hp : p ∈ k.processTable) (hi : va2pde addr < USER_PDES) {b : Nat}
    (hb : ¬ (va2pde b = va2pde addr ∧ va2pte b = va2pte addr)) :
    k'.entryAt p b = k.entryAt p b := by
  unfold Kernel.entryAt
  rcases Nat.lt_or_ge (va2pde b) USER_PDES with hu | hu
  · rw [ho.pte p hp _ hu, if_neg fun hc => hb hc.2]
  · have hd : k'.pde p (va2pde b) = k.pde p (va2pde b) := ho.pde p hp _ fun hc => by omega
    unfold Kernel.pte
    rw [hd]
    split
    · rfl
    · next h0 => rw [ho.half.outside _ (hL.kernelHalf hp hu (va2pde_lt b) h0)]

section OnePage

variable (hL : k.Layout True pool) (hO : Owned k.heap own pool) (hA : Agree own k)
  (hp : p ∈ k.processTable)

include hL hO hA hp

/-- A page of the user half. -/
theorem openPhysicalPage_user (hi : va2pde addr < USER_PDES) :
    Yields (k.openPhysicalPage p x addr flag)
      (PageOpened k own pool p addr (x ||| 0b11111 ||| flag)) := by
  unfold openPhysicalPage
  refine (ensureTable_spec hL hO hA hp hi).bind fun k₁ hT => ?_
  have hpd : pa2va (k.proc p).cr3 = k₁.pd p := by rw [pd, hT.proc]
  have hp₁ : p ∈ k₁.processTable := by
    rw [hT.processTable]
    exact hp
  have hpte := hT.pte p hp _ hi (va2pte addr)
  rw [pte_of_pde hT.used] at hpte
  rw [hpd]
  show Yields (if k₁.table (frameAt (k₁.pde p (va2pde addr))) (va2pte addr) ≠ 0 then
    .ok (0xFFFFFFFF, k₁) else .ok (0, k₁.setWord (frameAt (k₁.pde p (va2pde addr)))
      (va2pte addr) (x ||| 0b11111 ||| flag))) _
  split
  · next hz =>
    -- the entry is in use, so the table is not the new one
    cases hT.new with
    | inl heq =>
      rw [heq]
      exact .used (by rwa [hpte] at hz)
    | inr hN => exact absurd (hN.clear _) hz
  · next hz =>
    have hz₀ : k₁.pte p (va2pde addr) (va2pte addr) = 0 := by
      rw [pte_of_pde hT.used]
      exact not_not.mp hz
    have hE := hT.extended hA hp hi
    have hopen := hT.setEntry hp hi (va2pte_lt addr) (fun _ => entry_mapped x flag)
    refine .mapped ?_ (hE.trans hp (Extended.setEntry hT.layout hT.owned hE.agree hp₁ hi
      (va2pte_lt addr) hT.used hz₀ fun _ => entry_mapped x flag)) ?_ fun _ =>
        ⟨rfl, hopen.half, fun b hb => hopen.entryAt hL hp hi hb⟩
    · show k.pte p _ _ = 0
      rw [← hT.pte p hp _ hi]
      exact hz₀
    · show Kernel.pte _ _ _ _ = _
      rw [hopen.pte p hp _ hi, if_pos ⟨rfl, rfl, rfl⟩]

/-- A page of the kernel half. -/
theorem openPhysicalPage_kernel (hi : USER_PDES ≤ va2pde addr) :
    Yields (k.openPhysicalPage p x addr flag)
      (PageOpened k own pool p addr (x ||| 0b11111 ||| flag)) := by
  unfold openPhysicalPage
  refine (kernelTable_spec hL hO hA hp hi).bind fun k₁ hk₁ => ?_
  obtain ⟨pool₁, hT⟩ := hk₁
  have hpd : pa2va (k.proc p).cr3 = k₁.pd p := by rw [pd, hT.proc]
  have hp₁ : p ∈ k₁.processTable := by
    rw [hT.processTable]
    exact hp
  have hout := hT.layout.kernelHalf hp₁ hi (va2pde_lt addr) hT.used
  have hE := hT.extended hA hp (va2pde_lt addr)
  rw [hpd]
  show Yields (if k₁.table (frameAt (k₁.pde p (va2pde addr))) (va2pte addr) ≠ 0 then
    .ok (0xFFFFFFFF, k₁) else .ok (0, k₁.setWord (frameAt (k₁.pde p (va2pde addr)))
      (va2pte addr) (x ||| 0b11111 ||| flag))) _
  split
  · next hz =>
    -- the entry is in use, so the table is not the new one
    cases hT.new with
    | inl heq =>
      rw [heq] at hz ⊢
      refine .used ?_
      unfold Kernel.entryAt
      rw [pte_of_pde (heq ▸ hT.used)]
      exact hz
    | inr hN => exact absurd (hN.clear _) hz
  · next hz =>
    have hz₁ := not_not.mp hz
    refine .mapped ?_ (hE.trans hp (Extended.setOutside hT.layout hT.owned hE.agree hp₁ hout hz₁)) ?_
      fun hu => absurd hu (Nat.not_lt.mpr hi)
    · -- an entry in use would still be there
      by_contra h0
      have hsame := hE.entryAt hL hp h0
      unfold Kernel.entryAt at hsame h0
      rw [pte_of_pde hT.used, hz₁] at hsame
      exact h0 hsame.symm
    · have hd := pde_setWord_outside (j := va2pte addr) (v := x ||| 0b11111 ||| flag) hT.layout hout
        hp₁ (va2pde addr)
      show Kernel.pte _ _ _ _ = _
      rw [pte_of_pde (by rw [hd]; exact hT.used), hd, setWord_table, if_pos ⟨rfl, rfl⟩]

/-- A page anywhere. -/
theorem openPhysicalPage_opened : Yields (k.openPhysicalPage p x addr flag)
    (PageOpened k own pool p addr (x ||| 0b11111 ||| flag)) := by
  rcases Nat.lt_or_ge (va2pde addr) USER_PDES with hi | hi
  · exact openPhysicalPage_user hL hO hA hp hi
  · exact openPhysicalPage_kernel hL hO hA hp hi

/-- One round of the loop. -/
theorem openPhysicalMemory_succ {Q : Nat × Kernel → Prop}
    (hused : k.entryAt p addr ≠ 0 → Q (0xFFFFFFFF, k))
    (hmapped : ∀ k₁ own₁ pool₁, k.entryAt p addr = 0 → Extended k own pool p k₁ own₁ pool₁ →
      k₁.entryAt p addr = x ||| 0b11111 ||| flag →
      (va2pde addr < USER_PDES → pool₁ = pool ∧ SameHalf pool k k₁ ∧
        ∀ b, ¬ (va2pde b = va2pde addr ∧ va2pte b = va2pte addr) →
          k₁.entryAt p b = k.entryAt p b) →
      Yields (k₁.openPhysicalMemory p (add32 x PAGE_SIZE) (add32 addr PAGE_SIZE) n flag) Q) :
    Yields (k.openPhysicalMemory p x addr (n + 1) flag) Q := by
  unfold openPhysicalMemory
  refine (openPhysicalPage_opened hL hO hA hp).bind fun r hr => ?_
  cases hr with
  | used mapped => exact hused mapped
  | @mapped k₁ own₁ pool₁ empty extended set user =>
    show Yields (if 0 = 0xFFFFFFFF then _ else _) _
    rw [if_neg (by decide)]
    exact hmapped k₁ own₁ pool₁ empty extended set user

end OnePage

/-! ## The loop

The loop stops at the first page in use, and what it has mapped until then stays mapped. As long
as it maps user pages alone, the kernel half is as it was. -/

theorem Extended.mem (hE : Extended k own pool p k' own' pool') (hq : q ∈ k.processTable) :
    q ∈ k'.processTable := by
  rw [hE.processTable]
  exact hq

theorem mapped_ne_zero (x flag : Nat) : x ||| 0b11111 ||| flag ≠ 0 :=
  ne_zero_of_testBit (entry_mapped x flag).present

/-- **`open_physical_memory`** fills empty entries. When it returns 0 every page of the range has
got its entry; the first page, if it was free, has got one in any case. -/
theorem openPhysicalMemory_extended (hL : k.Layout True pool) (hO : Owned k.heap own pool)
    (hA : Agree own k) (hp : p ∈ k.processTable) :
    Yields (k.openPhysicalMemory p x addr n flag) fun r =>
      (∃ own' pool', Extended k own pool p r.2 own' pool') ∧ (r.1 = 0 ∨ r.1 = 0xFFFFFFFF) ∧
        (r.1 = 0 → ∀ i < n, r.2.entryAt p (nthPage addr i) = nthPage x i ||| 0b11111 ||| flag) ∧
        (n ≠ 0 → k.entryAt p addr = 0 → r.2.entryAt p addr ≠ 0) := by
  induction n generalizing k own pool x addr with
  | zero => exact ⟨⟨own, pool, Extended.refl hL hO hA⟩, Or.inl rfl, nofun, nofun⟩
  | succ n ih =>
    refine openPhysicalMemory_succ hL hO hA hp (fun hz => ?_) fun k₁ own₁ pool₁ hz hE hset _ => ?_
    · exact ⟨⟨own, pool, Extended.refl hL hO hA⟩, Or.inr rfl, nofun, fun _ h0 => absurd h0 hz⟩
    · refine (ih hE.layout hE.owned hE.agree (hE.mem hp)).mono fun r hr => ?_
      obtain ⟨⟨own₂, pool₂, hE₂⟩, hr, hall, -⟩ := hr
      -- the first entry survives the later rounds
      have hfirst : r.2.entryAt p addr = x ||| 0b11111 ||| flag :=
        (hE₂.entryAt hE.layout (hE.mem hp) (by rw [hset]; exact mapped_ne_zero x flag)).trans hset
      refine ⟨⟨own₂, pool₂, hE.trans hp hE₂⟩, hr, fun h0 i hi => ?_, fun _ _ => ?_⟩
      · cases i with
        | zero =>
          rw [nthPage_zero, nthPage_zero]
          exact hfirst
        | succ i =>
          rw [nthPage_succ, nthPage_succ]
          exact hall h0 i (Nat.lt_of_succ_lt_succ hi)
      · rw [hfirst]
        exact mapped_ne_zero x flag

/-- The loop meets user pages only. -/
def StaysUser (k : Kernel) (p addr n : Nat) : Prop :=
  ∀ i < n, (∀ j ≤ i, k.entryAt p (nthPage addr j) = 0) → va2pde (nthPage addr i) < USER_PDES

/-- Then the kernel half stays as it is. -/
theorem openPhysicalMemory_half (hL : k.Layout True pool) (hO : Owned k.heap own pool)
    (hA : Agree own k) (hp : p ∈ k.processTable) (hstay : k.StaysUser p addr n) :
    Yields (k.openPhysicalMemory p x addr n flag) fun r => SameHalf pool k r.2 := by
  induction n generalizing k own pool x addr with
  | zero => exact SameHalf.refl k
  | succ n ih =>
    refine openPhysicalMemory_succ hL hO hA hp (fun _ => SameHalf.refl k)
      fun k₁ own₁ pool₁ hz hE _ huser => ?_
    have hi : va2pde addr < USER_PDES := by
      refine nthPage_zero addr ▸ hstay 0 (Nat.succ_pos n) fun j hj => ?_
      rw [Nat.le_zero.mp hj, nthPage_zero]
      exact hz
    obtain ⟨rfl, hhalf, -⟩ := huser hi
    have hstay₁ : k₁.StaysUser p (add32 addr PAGE_SIZE) n := by
      intro i hin hempty
      rw [← nthPage_succ]
      refine hstay (i + 1) (Nat.succ_lt_succ hin) fun j hj => ?_
      cases j with
      | zero =>
        rw [nthPage_zero]
        exact hz
      | succ j =>
        -- what is empty now was empty before
        by_contra h0
        rw [nthPage_succ] at h0
        have hj₁ := hempty j (Nat.le_of_succ_le_succ hj)
        rw [hE.entryAt hL hp h0] at hj₁
        exact h0 hj₁
    exact (ih hE.layout hE.owned hE.agree (hE.mem hp) hstay₁).mono fun r hr =>
      hhalf.trans_of_eq hr hE.processTable

/-- Otherwise an entry of the kernel half is filled. -/
theorem openPhysicalMemory_kernel (hL : k.Layout True pool) (hO : Owned k.heap own pool)
    (hA : Agree own k) (hp : p ∈ k.processTable) (hin : i < n)
    (hempty : ∀ j ≤ i, k.entryAt p (nthPage addr j) = 0)
    (huser : ∀ j < i, va2pde (nthPage addr j) < USER_PDES)
    (hkernel : USER_PDES ≤ va2pde (nthPage addr i)) :
    Yields (k.openPhysicalMemory p x addr n flag) fun r => ∃ b, USER_PDES ≤ va2pde b ∧
      k.entryAt p b = 0 ∧ r.2.entryAt p b ≠ 0 := by
  induction i generalizing k own pool x addr n with
  | zero =>
    have hzero := hempty 0 le_rfl
    rw [nthPage_zero] at hkernel hzero
    refine (openPhysicalMemory_extended hL hO hA hp).mono fun r hr => ?_
    exact ⟨addr, hkernel, hzero, hr.2.2.2 (Nat.ne_of_gt hin) hzero⟩
  | succ i ih =>
    have hzero := hempty 0 (Nat.zero_le _)
    have hfirst := huser 0 (Nat.succ_pos i)
    rw [nthPage_zero] at hzero hfirst
    cases n with
    | zero => exact absurd hin (Nat.not_lt_zero _)
    | succ n =>
      refine openPhysicalMemory_succ hL hO hA hp (fun hz => absurd hzero hz)
        fun k₁ own₁ pool₁ _ hE _ hmap => ?_
      -- the first page is a user page, and mapping it leaves the others empty
      obtain ⟨rfl, -, hsame⟩ := hmap hfirst
      have hempty₁ : ∀ j ≤ i, k₁.entryAt p (nthPage (add32 addr PAGE_SIZE) j) = 0 := by
        intro j hj
        rw [← nthPage_succ, hsame _ (nthPage_ne_of_user (fun l hl => huser l (by omega)) (by omega))]
        exact hempty (j + 1) (Nat.succ_le_succ hj)
      refine (ih hE.layout hE.owned hE.agree (hE.mem hp) (Nat.lt_of_succ_lt_succ hin) hempty₁
        (fun j hj => ?_) ?_).mono fun r hr => ?_
      · rw [← nthPage_succ]
        exact huser (j + 1) (Nat.succ_lt_succ hj)
      · rw [← nthPage_succ]
        exact hkernel
      · obtain ⟨b, hb, h0, h0'⟩ := hr
        refine ⟨b, hb, ?_, h0'⟩
        rwa [hsame b fun hc => by omega] at h0

end Kernel

end NorlitOS
