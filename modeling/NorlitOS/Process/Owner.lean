import NorlitOS.Lib.Ledger
import NorlitOS.Memory.Invariant
import NorlitOS.Process.Proc

/-!
# Who owns which page frame

A frame taken from the allocator belongs to one of six kinds of owners. `frameOf` reads the
frame of an owner off the kernel state. `Owned h own pool` says that the frames of the ledger
`own` and the free memory of `h` make up `pool`; each call of the allocator moves the ledger by
one of the ledger laws.
-/

namespace NorlitOS

open Dyadic Ledger

/-! ## Entries

An entry is an address of a page with flags in its low bits. What it names is read with the flags
cut off, and a frame of the source with `PAGE_TYPE_PHY` in its entry belongs to no one. -/

theorem pageBase_dvd (x : Nat) : PAGE_SIZE ∣ pageBase x := ⟨x / PAGE_SIZE, Nat.mul_comm _ _⟩

/-- An aligned address is its own base. -/
theorem pageBase_of_dvd {x : Nat} (h : PAGE_SIZE ∣ x) : pageBase x = x := Nat.div_mul_cancel h

/-- The frame of an entry is aligned. -/
theorem frameAt_dvd (x : Nat) : PAGE_SIZE ∣ frameAt x := by
  have h := pageBase_dvd x
  unfold frameAt pa2va add32 PAGE_OFFSET
  unfold PAGE_SIZE at *
  omega

/-- The flag bits of an entry do not overlap the address of a page. -/
theorem or_flags {x : Nat} (h : PAGE_SIZE ∣ x) : x ||| 0b11111 = x + 31 := by
  obtain ⟨y, rfl⟩ := h
  show 2 ^ 12 * y ||| 31 = 2 ^ 12 * y + 31
  exact (Nat.two_pow_add_eq_or_of_lt (by decide) y).symm

/-- The flags of a user page do not change the base. -/
theorem pageBase_or {x : Nat} (h : PAGE_SIZE ∣ x) : pageBase (x ||| 0b11111) = x := by
  rw [or_flags h]
  unfold pageBase
  unfold PAGE_SIZE at *
  omega

theorem testBit_or {x : Nat} (h : PAGE_SIZE ∣ x) : (x ||| 0b11111).testBit 0 = true := by
  rw [or_flags h, Nat.testBit_zero]
  unfold PAGE_SIZE at h
  simp only [decide_eq_true_eq]
  omega

/-- An entry with the present bit is not empty. -/
theorem ne_zero_of_testBit {x : Nat} (h : x.testBit 0 = true) : x ≠ 0 := by
  rintro rfl
  simp at h

theorem isPhy_eq_true {x : Nat} : Kernel.isPhy x = true ↔ x.testBit 9 = true := by
  unfold Kernel.isPhy
  rw [decide_eq_true_iff]
  exact (and_two_pow_ne_zero : x &&& 2 ^ 9 ≠ 0 ↔ x.testBit 9 = true)

/-- The flags of a user page do not have it. -/
theorem isPhy_or {x : Nat} (h : PAGE_SIZE ∣ x) : Kernel.isPhy (x ||| 0b11111) = false := by
  rw [← Bool.not_eq_true, isPhy_eq_true, or_flags h, testBit_iff_odd]
  unfold PAGE_SIZE at h
  omega

/-- The entries `PAGE_TYPE_PHY` mappings write. -/
theorem phy_entry (x : Nat) : (x ||| 0b11111 ||| PAGE_TYPE_PHY).testBit 0 = true ∧
    Kernel.isPhy (x ||| 0b11111 ||| PAGE_TYPE_PHY) = true := by
  rw [isPhy_eq_true]
  simp only [Nat.testBit_or, Bool.or_eq_true]
  exact ⟨Or.inl (Or.inr (by decide)), Or.inr (by decide)⟩

/-- What a non-zero entry of a page table looks like: present, and a `PAGE_TYPE_PHY` one only
where such mappings are made. -/
structure Entry (phy : Prop) (x : Nat) : Prop where
  present : x.testBit 0 = true
  normal : Kernel.isPhy x = true → phy

/-- So an aligned address with these flags is a proper entry. -/
theorem entry_or {phy : Prop} {x : Nat} (h : PAGE_SIZE ∣ x) : Entry phy (x ||| 0b11111) :=
  ⟨testBit_or h, fun hx => by rw [isPhy_or h] at hx; exact nomatch hx⟩

/-- The frame an entry of a page table owns. -/
def entryFrame (entry : Nat) : Option Nat :=
  if entry = 0 ∨ Kernel.isPhy entry = true then none else some (frameAt entry)

@[simp] theorem entryFrame_zero : entryFrame 0 = none := rfl

theorem entryFrame_phy {x : Nat} (h : Kernel.isPhy x = true) : entryFrame x = none :=
  if_pos (Or.inr h)

/-- Every other entry owns the frame it names. -/
theorem entryFrame_of {x : Nat} (h0 : x ≠ 0) (h : Kernel.isPhy x = false) :
    entryFrame x = some (frameAt x) :=
  if_neg fun hx => hx.elim h0 (by simp [h])

theorem entryFrame_or {x : Nat} (h : PAGE_SIZE ∣ x) : entryFrame (x ||| 0b11111) = some (pa2va x) := by
  rw [entryFrame_of (ne_zero_of_testBit (testBit_or h)) (isPhy_or h), frameAt, pageBase_or h]

/-- The addresses of the page at `f`. -/
def page (f : Nat) : Set Nat := block 12 f

theorem self_mem_page (f : Nat) : f ∈ page f := self_mem_block 12 f

theorem page_nonempty (f : Nat) : (page f).Nonempty := ⟨f, self_mem_page f⟩

/-- Physical addresses of managed pages. -/
theorem va2pa_managed {f : Nat} (hf : PAGE_SIZE ∣ f) (hin : f ∈ managed) :
    PAGE_SIZE ∣ va2pa f ∧ pa2va (va2pa f) = f := by
  obtain ⟨hlo, hhi⟩ := hin
  unfold va2pa pa2va sub32 add32
  unfold PAGE_OFFSET MAX_MAPPING at *
  unfold PAGE_SIZE at *
  omega

namespace Kernel

/-! ## Address spaces

The view of a process is two levels of tables. The lower one is there only where the entry of the
upper one is not empty. -/

/-- The page directory of `p`. -/
def pd (k : Kernel) (p : Nat) : Nat := pa2va (k.proc p).cr3

/-- Entry `i` of the page directory of `p`. -/
def pde (k : Kernel) (p i : Nat) : Nat := k.table (k.pd p) i

/-- Entry `j` of page table `i` of `p`; there is none without the table. -/
def pte (k : Kernel) (p i j : Nat) : Nat :=
  if k.pde p i = 0 then 0 else k.table (frameAt (k.pde p i)) j

/-- Where there is a table the entry is read from it. -/
theorem pte_of_pde {k : Kernel} {p i j : Nat} (h : k.pde p i ≠ 0) :
    k.pte p i j = k.table (frameAt (k.pde p i)) j := if_neg h

theorem pte_of_no_pde {k : Kernel} {p i j : Nat} (h : k.pde p i = 0) : k.pte p i j = 0 := if_pos h

/-- Slot `n` of the message buffer holds a queued message. -/
def InQueue (P : Process) (n : Nat) : Prop :=
  n < MAX_MESSAGE_COUNT ∧ (n + MAX_MESSAGE_COUNT - P.msgTail) % MAX_MESSAGE_COUNT < P.msgCount

instance (P : Process) (n : Nat) : Decidable (InQueue P n) := by
  unfold InQueue
  infer_instance

end Kernel

/-- The owners of page frames. A process record is a `malloc` block of the size of a page. -/
inductive Owner where
  | pte (p i j : Nat)
  | pageTable (p i : Nat)
  | pageDirectory (p : Nat)
  | threadPage (t : Nat)
  | slot (p n : Nat)
  | record (p : Nat)
  deriving DecidableEq

namespace Kernel

/-- Directory entries of the user half. -/
def USER_PDES : Nat := 768

/-- The frame of an owner. -/
def frameOf (k : Kernel) : Owner → Option Nat
  | .pte p i j =>
    if p ∈ k.processTable ∧ i < USER_PDES ∧ j < 1024 then entryFrame (k.pte p i j) else none
  | .pageTable p i =>
    if p ∈ k.processTable ∧ i < USER_PDES ∧ k.pde p i ≠ 0 then some (frameAt (k.pde p i)) else none
  | .pageDirectory p => if p ∈ k.processTable then some (k.pd p) else none
  | .threadPage t => if ∃ p ∈ k.processTable, t ∈ (k.proc p).thread then some t else none
  | .slot p n =>
    if p ∈ k.processTable ∧ InQueue (k.proc p) n then
      some (frameAt ((k.proc p).messages n % 2 ^ 32))
    else none
  | .record p => if p ∈ k.processTable then some (p - 4) else none

end Kernel

/-! ## The ledger and the allocator

The laws of the ledger at the type of these owners. A call of the allocator moves one page between
the free memory and an owner, and the pool stays. -/

/-- The frames of the ledger and the free memory make up the pool. The first word of a record's
block is the size `free` reads. -/
structure Owned (h : Heap) (own : Owner → Option Nat) (pool : Set Nat) : Prop where
  wellFormed : h.WellFormed
  accounts : Accounts page own h.freeSet pool
  inside : pool ⊆ managed
  aligned : ∀ o f, own o = some f → PAGE_SIZE ∣ f
  header : ∀ p f, own (.record p) = some f → h.word f = PAGE_SIZE

namespace Owned

variable {h h' : Heap} {own : Owner → Option Nat} {pool : Set Nat} {o o' : Owner} {f f' : Nat}

theorem page_subset (hO : Owned h own pool) (ho : own o = some f) : page f ⊆ managed :=
  (hO.accounts.cell_subset ho).trans hO.inside

theorem mem_managed (hO : Owned h own pool) (ho : own o = some f) : f ∈ managed :=
  hO.page_subset ho (self_mem_page f)

/-- The physical address of an owned frame. -/
theorem physical (hO : Owned h own pool) (ho : own o = some f) :
    PAGE_SIZE ∣ va2pa f ∧ pa2va (va2pa f) = f :=
  va2pa_managed (hO.aligned o f ho) (hO.mem_managed ho)

theorem owner_unique (hO : Owned h own pool) (ho : own o = some f) (ho' : own o' = some f) :
    o = o' :=
  hO.accounts.owner_unique ho ho' (page_nonempty f)

theorem ne_of_free (hO : Owned h own pool) (ho : own o = some f) (hf : page f' ⊆ h.freeSet) :
    f ≠ f' :=
  hO.accounts.ne_of_free ho hf (page_nonempty f')

/-- Nobody owns a word in the free memory. -/
theorem notMem_free (hO : Owned h own pool) (ho : own o = some f) : f ∉ h.freeSet :=
  Set.disjoint_left.mp (hO.accounts.unfree ho) (self_mem_page f)

/-- What `memory_alloc(12)` gives: any owner without a frame may enter it in the ledger. -/
structure Allocated (h : Heap) (own : Owner → Option Nat) (pool : Set Nat) (f : Nat) (h' : Heap) :
    Prop where
  returned : h.memoryAlloc 12 = .ok (f, h')
  aligned : PAGE_SIZE ∣ f
  free : page f ⊆ h.freeSet
  freeSet : h'.freeSet = h.freeSet \ page f
  enter : ∀ o, (∀ p, o ≠ .record p) → own o = none →
    Owned h' (Function.update own o (some f)) pool
  leak : Owned h' own (pool \ page f)

/-- A frame from the allocator is managed memory. -/
theorem Allocated.mem_managed (hA : Allocated h own pool f h') (hO : Owned h own pool) :
    f ∈ managed :=
  hO.inside (hO.accounts.free_subset (hA.free (self_mem_page f)))

theorem Allocated.physical (hA : Allocated h own pool f h') (hO : Owned h own pool) :
    PAGE_SIZE ∣ va2pa f ∧ pa2va (va2pa f) = f :=
  va2pa_managed hA.aligned (hA.mem_managed hO)

/-- The ledger after a call of the allocator: what it owns lies outside the free memory, and
there no word has changed. -/
theorem of_accounts (hO : Owned h own pool) {own' : Owner → Option Nat} {pool' : Set Nat}
    (hin : pool' ⊆ pool) (hw : h'.WellFormed)
    (hacc : Accounts page own' h'.freeSet pool') (hal : ∀ o f, own' o = some f → PAGE_SIZE ∣ f)
    (hframe : ∀ x, x ∉ h.freeSet → x ∉ h'.freeSet → h'.word x = h.word x)
    (hrec : ∀ p f, own' (.record p) = some f → own (.record p) = some f) :
    Owned h' own' pool' := by
  refine ⟨hw, hacc, hin.trans hO.inside, hal, fun p f hp => ?_⟩
  have hp' := hrec p f hp
  rw [hframe f (hO.notMem_free hp') ?_]
  · exact hO.header p f hp'
  · exact Set.disjoint_left.mp (hacc.unfree hp) (self_mem_page f)

/-- Every call of the allocator that returns is such a one. -/
theorem alloc (hO : Owned h own pool) :
    Yields (h.memoryAlloc 12) fun r => Allocated h own pool r.1 r.2 := by
  rcases @Heap.memoryAlloc_spec h h.freeSet 12 (Heap.wellFormed_iff_rep.mp hO.wellFormed)
    (by decide) (by decide) with ⟨f, h', hok, hf, hT⟩ | ⟨herr, -⟩
  · refine Yields.of_eq_ok hok ?_
    obtain ⟨hw, hfree⟩ := hT.rep.wellFormed
    refine ⟨hok, hf, hT.free, hfree, fun o hrec ho => ?_, ?_⟩
    -- entered under an owner that has nothing
    · refine hO.of_accounts subset_rfl hw ?_ (fun o' f' ho' => ?_) (fun x hx _ => hT.frame x hx)
        fun p f' hp => ?_
      · rw [hfree]
        exact hO.accounts.take ho hT.free
      · by_cases hoo : o' = o
        · rw [hoo, Function.update_self] at ho'
          exact Option.some.inj ho' ▸ hf
        · rw [Function.update_of_ne hoo] at ho'
          exact hO.aligned o' f' ho'
      · rwa [Function.update_of_ne (hrec p).symm] at hp
    -- or left out of the pool
    · refine hO.of_accounts Set.sdiff_subset hw ?_ hO.aligned (fun x hx _ => hT.frame x hx)
        fun _ _ hp => hp
      rw [hfree]
      exact hO.accounts.leak hT.free
  · rw [herr]
    exact nofun

/-- Giving a frame back. -/
theorem free (hO : Owned h own pool) (ho : own o = some f) :
    ∃ h', h.memoryBlockFree f 12 = .ok h' ∧ Owned h' (Function.update own o none) pool := by
  obtain ⟨h', hok, hF⟩ := @Heap.memoryBlockFree_spec h h.freeSet 12 f
    (Heap.wellFormed_iff_rep.mp hO.wellFormed) (by decide) (hO.aligned o f ho) (hO.page_subset ho)
    (hO.accounts.unfree ho)
  obtain ⟨hw, hfree⟩ := hF.rep.wellFormed
  refine ⟨h', hok, hO.of_accounts subset_rfl hw ?_ (fun o' f' ho' => ?_) (fun x hx hx' => hF.frame x ?_)
    fun p f' hp => (Accounts.eq_some_of_update hp).1⟩
  · rw [hfree]
    exact hO.accounts.give ho
  · exact hO.aligned o' f' (Accounts.eq_some_of_update ho').1
  · rwa [hfree] at hx'

/-- Handing a frame over. -/
theorem move {x : Owner} (hO : Owned h own pool) (ho : own o = some f) (hx : own x = none)
    (hrec : ∀ p, x ≠ .record p) :
    Owned h (Function.update (Function.update own o none) x (some f)) pool := by
  refine hO.of_accounts subset_rfl hO.wellFormed (hO.accounts.move ho hx) (fun y g hy => ?_)
    (fun _ _ _ => rfl) fun p g hp => ?_
  · by_cases hyx : y = x
    · rw [hyx, Function.update_self] at hy
      exact Option.some.inj hy ▸ hO.aligned o f ho
    · rw [Function.update_of_ne hyx] at hy
      exact hO.aligned y g (Accounts.eq_some_of_update hy).1
  · rw [Function.update_of_ne (hrec p).symm] at hp
    exact (Accounts.eq_some_of_update hp).1

/-! ### Process records

The record of a process is taken with `malloc`, which puts the size in front of it. That word is
what `free` reads later, so the ledger keeps it. -/

/-- A record takes a page with the word in front of it. -/
theorem mallocOrder_processSize : Heap.mallocOrder Kernel.processSize = 12 := by decide

/-- `malloc(sizeof(Process))` takes a page, of which the caller gets all but the first word. -/
theorem malloc (hO : Owned h own pool) :
    Yields (h.malloc Kernel.processSize) fun r => ∃ f, r.1 = f + 4 ∧ page f ⊆ h.freeSet ∧
      r.2.freeSet = h.freeSet \ page f ∧ (own (.record (f + 4)) = none →
        Owned r.2 (Function.update own (.record (f + 4)) (some f)) pool) := by
  -- `malloc` takes a block of the right order, or there is none
  rcases @Heap.malloc_spec h h.freeSet Kernel.processSize
    (Heap.wellFormed_iff_rep.mp hO.wellFormed) with ⟨f, h', hok, hf, hT, hword⟩ | herr
  · rw [mallocOrder_processSize] at hf hT hword
    obtain ⟨hw, hfree⟩ := hT.rep.wellFormed
    have hin : f ∈ managed := hO.inside (hO.accounts.free_subset (hT.free (self_mem_page f)))
    have hadd : add32 f 4 = f + 4 := by
      have hhi := hin.2
      unfold PAGE_OFFSET MAX_MAPPING at hhi
      exact add32_of_lt (by omega)
    rw [hok, hadd]
    refine ⟨f, rfl, hT.free, hfree, fun ho => ?_⟩
    have hacc := hO.accounts.take ho hT.free
    rw [show h.freeSet \ page f = h'.freeSet from hfree.symm] at hacc
    refine ⟨hw, hacc, hO.inside, fun o' f' ho' => ?_, fun q f' hq => ?_⟩
    · by_cases hoo : o' = .record (f + 4)
      · rw [hoo, Function.update_self] at ho'
        exact Option.some.inj ho' ▸ hf
      · rw [Function.update_of_ne hoo] at ho'
        exact hO.aligned o' f' ho'
    · by_cases hoo : Owner.record q = .record (f + 4)
      · rw [hoo, Function.update_self] at hq
        obtain rfl := Option.some.inj hq
        exact hword
      · rw [Function.update_of_ne hoo] at hq
        exact (hT.frame f' (hO.notMem_free hq)).trans (hO.header q f' hq)
  · rw [herr]
    exact nofun

/-- `free` of a record: the size in its first word is that of the page. -/
theorem freeRecord {p : Nat} (hO : Owned h own pool) (ho : own (.record p) = some f)
    (hp : p = f + 4) : ∃ h', h.free p = .ok h' ∧
      Owned h' (Function.update own (.record p) none) pool := by
  have hal := hO.aligned _ f ho
  have hin := hO.page_subset ho
  have hrange : page f = Heap.range f PAGE_SIZE := Heap.block_eq_range hal
  have hfour : 4 ∣ f := (by decide : 4 ∣ PAGE_SIZE).trans hal
  obtain ⟨h', hok, hF⟩ := @Heap.memoryFreeNocheck_spec h h.freeSet f PAGE_SIZE
    (Heap.wellFormed_iff_rep.mp hO.wellFormed) hfour (by decide) (hrange ▸ hin)
    (hrange ▸ hO.accounts.unfree ho)
  obtain ⟨hw, hfree⟩ := hF.rep.wellFormed
  -- the record begins behind the word with its size
  have hsub : sub32 p 4 = f := by
    have hhi := (hO.mem_managed ho).2
    unfold PAGE_OFFSET MAX_MAPPING at hhi
    rw [hp, sub32_of_le (by omega) (by omega)]
    rfl
  refine ⟨h', ?_, hO.of_accounts subset_rfl hw ?_ (fun o' f' ho' => ?_) (fun x hx hx' => hF.frame x ?_)
    fun q f' hq => (Accounts.eq_some_of_update hq).1⟩
  · unfold Heap.free
    dsimp only
    rw [hsub, Heap.load_link, hO.header p f ho]
    exact hok
  · rw [hfree, ← hrange]
    exact hO.accounts.give ho
  · exact hO.aligned o' f' (Accounts.eq_some_of_update ho').1
  · rwa [hfree] at hx'

end Owned

end NorlitOS
