import NorlitOS.Lib.Chain
import NorlitOS.Machine
import Mathlib.Logic.Function.Basic

/-!
# The buddy allocator (`kernel/memory/memory.c`)

The allocator keeps one singly linked list of free blocks for each order `2 .. 29`. The heads
are the array `memoryBlocks`; the link of a free block is the word at its base. Both are
`u32 **` for the code, so a place a link is read from or written to is a `Slot`.

`spin_lock`/`spin_unlock` are left out: the model runs one call at a time.
-/

namespace NorlitOS

/-- The allocator's globals and the words of the memory it manages. -/
structure Heap where
  memoryBlocks : Nat → Nat
  word : Nat → Nat
  freeMemoryCounter : Nat

namespace Heap

/-- `*p` for a `u32 **p`. -/
def load (h : Heap) : Slot Nat → Nat
  | .head k => h.memoryBlocks k
  | .link a => h.word a

/-- `*p = v` for a `u32 **p`. -/
def store (h : Heap) (p : Slot Nat) (v : Nat) : Heap :=
  match p with
  | .head k => { h with memoryBlocks := Function.update h.memoryBlocks k v }
  | .link a => { h with word := Function.update h.word a v }

@[simp] theorem load_head (h : Heap) (k : Nat) : h.load (.head k) = h.memoryBlocks k := rfl

@[simp] theorem load_link (h : Heap) (a : Nat) : h.load (.link a) = h.word a := rfl

theorem load_store (h : Heap) (p q : Slot Nat) (v : Nat) :
    (h.store p v).load q = if q = p then v else h.load q := by
  cases p <;> cases q <;> simp [store, load, Function.update_apply]

@[simp] theorem load_store_self (h : Heap) (p : Slot Nat) (v : Nat) :
    (h.store p v).load p = v := by
  rw [load_store, if_pos rfl]

theorem load_store_of_ne (h : Heap) {p q : Slot Nat} (v : Nat) (hne : q ≠ p) :
    (h.store p v).load q = h.load q := by
  rw [load_store, if_neg hne]

@[simp] theorem store_counter (h : Heap) (p : Slot Nat) (v : Nat) :
    (h.store p v).freeMemoryCounter = h.freeMemoryCounter := by
  cases p <;> rfl

/-- The heap as `global.c` initialises it: every list empty, nothing free. -/
def init (word : Nat → Nat) : Heap :=
  { memoryBlocks := fun _ => EMPTY, word := word, freeMemoryCounter := 0 }

/-! ## `memory_block_free`

The loop over one list finds the buddy, or the place in front of the first greater address. The
recursion over the orders is that of the source. -/

/-- How the list walk of `memory_block_free` ends: at the place where the block belongs, or
at its upper or lower buddy. `prev` is the slot that holds `entry`. -/
inductive Found where
  | here (prev : Slot Nat) (entry : Nat)
  | upper (prev : Slot Nat) (entry : Nat)
  | lower (prev : Slot Nat) (entry : Nat)

/-- The `for` loop of `memory_block_free`, with at most `fuel` rounds. -/
def walk (h : Heap) (ll sizep : Nat) : Nat → Slot Nat → Nat → Except Stop Found
  | 0, _, _ => .error .hang
  | fuel + 1, prev, entry =>
    if entry = EMPTY then .ok (.here prev entry)
    else if ll < entry then
      -- the greater address can only be the upper buddy
      if ll &&& sizep = 0 ∧ add32 ll sizep = entry then .ok (.upper prev entry)
      else .ok (.here prev entry)
    -- and a smaller one the lower buddy; any other is passed by
    else if ll &&& sizep ≠ 0 ∧ add32 entry sizep = ll then .ok (.lower prev entry)
    else h.walk ll sizep fuel (.link entry) (h.load (.link entry))

/-- One round for each aligned word of the address space: a longer walk is in a cycle. -/
def walkFuel : Nat := 2 ^ 30

/-- `*prev = (u32*)(*entry); freeMemoryCounter -= sizep*2;` -/
def detachBuddy (h : Heap) (prev : Slot Nat) (entry sizep : Nat) : Heap :=
  let h := h.store prev (h.load (.link entry))
  { h with freeMemoryCounter := sub32 h.freeMemoryCounter (sizep * 2) }

/-- `memory_block_free`, merging at most `depth` times. Every level uses a new order, and an
order outside `2 .. 29` has no list. -/
def blockFreeRec : Nat → Heap → Nat → Nat → Except Stop Heap
  | 0, _, _, _ => .error .wild
  | depth + 1, h, address, bit =>
    if bit < 2 ∨ 30 ≤ bit then .error .wild
    else do
      let sizep := 2 ^ bit
      -- counted here, and taken back where the block is merged
      let h := { h with freeMemoryCounter := add32 h.freeMemoryCounter sizep }
      match ← h.walk address sizep walkFuel (.head (bit - 2)) (h.load (.head (bit - 2))) with
      | .upper prev entry => blockFreeRec depth (h.detachBuddy prev entry sizep) address (bit + 1)
      | .lower prev entry => blockFreeRec depth (h.detachBuddy prev entry sizep) entry (bit + 1)
      | .here prev entry => .ok ((h.store prev address).store (.link address) entry)

/-- `memory_block_free`. -/
def memoryBlockFree (h : Heap) (address bit : Nat) : Except Stop Heap :=
  blockFreeRec 29 h address bit

/-! ## `memory_free_nocheck` and `memory_free`

The ranges are cut at addresses aligned to the current order, at both ends. -/

/-- `if (address & sizep) { .. }`: the block at the low end of the range. -/
def freeLow (h : Heap) (bit address size : Nat) : Except Stop (Heap × Nat × Nat) :=
  if address &&& 2 ^ bit ≠ 0 then do
    let h ← h.memoryBlockFree address bit
    .ok (h, add32 address (2 ^ bit), sub32 size (2 ^ bit))
  else .ok (h, address, size)

/-- `if (size & sizep) { .. }`: the block at the high end of the range. -/
def freeHigh (h : Heap) (bit address size : Nat) : Except Stop (Heap × Nat) :=
  if size &&& 2 ^ bit ≠ 0 then do
    let h ← h.memoryBlockFree (sub32 (add32 address size) (2 ^ bit)) bit
    .ok (h, sub32 size (2 ^ bit))
  else .ok (h, size)

/-- The `for` loop of `memory_free_nocheck`, with `n` values of `bit` left. -/
def freeNocheckLoop : Nat → Nat → Heap → Nat → Nat → Except Stop Heap
  | 0, _, h, _, _ => .ok h
  | n + 1, bit, h, address, size =>
    if size < 2 ^ bit then .ok h
    else do
      let (h, address, size) ← h.freeLow bit address size
      let (h, size) ← h.freeHigh bit address size
      freeNocheckLoop n (bit + 1) h address size

/-- `memory_free_nocheck`: `bit` runs from 2 to 31. -/
def memoryFreeNocheck (h : Heap) (address size : Nat) : Except Stop Heap :=
  freeNocheckLoop 30 2 h address size

/-- `memory_free`: a range that need not be aligned. -/
def memoryFree (h : Heap) (address size : Nat) : Except Stop Heap :=
  if size < 4 then .ok h
  else if address % 4 ≠ 0 then
    -- the range begins at the next word
    let afadd := add32 (address / 4 * 4) 4
    let size := sub32 (add32 size address) afadd
    if size < 4 then .ok h else h.memoryFreeNocheck afadd (size / 4 * 4)
  else h.memoryFreeNocheck address (size / 4 * 4)

/-! ## `memory_alloc`

The first list that has a block gives it, and what exceeds the size that was asked for is freed
again as a range. -/

/-- The `do .. while` of `memory_alloc`: the first non-empty list above index `bit2`. -/
def higherList (h : Heap) : Nat → Nat → Except Stop Nat
  | 0, _ => .error .hang
  | n + 1, bit2 =>
    if bit2 = 27 then .error .outOfMemory
    else if h.memoryBlocks (bit2 + 1) = EMPTY then h.higherList n (bit2 + 1)
    else .ok (bit2 + 1)

/-- The branch of `memory_alloc` behind the search: take the first block of list `bit2` and
free what exceeds `1 << bit`. -/
def splitBigger (h : Heap) (bit bit2 : Nat) : Except Stop (Nat × Heap) := do
  let getit := h.memoryBlocks bit2
  let h := h.store (.head bit2) (h.load (.link getit))
  let h := { h with freeMemoryCounter := sub32 h.freeMemoryCounter (2 ^ (bit2 + 2)) }
  -- the part behind the block that was asked for
  let extra := sub32 (2 ^ (bit2 + 2)) (2 ^ bit)
  let h ← h.memoryFreeNocheck (add32 getit (2 ^ bit)) extra
  .ok (getit, h)

/-- `memory_alloc`: the block's address and the heap after. `u8 bit2 = bit - 2` indexes
`memoryBlocks`, so orders outside `2 .. 29` read past the array. -/
def memoryAlloc (h : Heap) (bit : Nat) : Except Stop (Nat × Heap) :=
  if bit < 2 ∨ 30 ≤ bit then .error .wild
  else
    let getit := h.memoryBlocks (bit - 2)
    -- nothing of this size is free: a bigger block is split
    if getit = EMPTY then do
      let bit2 ← h.higherList 28 (bit - 2)
      h.splitBigger bit bit2
    else
      let h := { h with freeMemoryCounter := sub32 h.freeMemoryCounter (2 ^ bit) }
      .ok (getit, h.store (.head (bit - 2)) (h.load (.link getit)))

/-! ## `malloc` and `free`

The size of a block stands in its first word, in front of what the caller gets. -/

/-- `for (bit = 2; sized; bit++, sized >>= 1);` -/
def mallocBit : Nat → Nat → Nat → Nat
  | 0, bit, _ => bit
  | n + 1, bit, sized => if sized = 0 then bit else mallocBit n (bit + 1) (sized / 2)

/-- `((size - 1 + sizeof(u32)) & ~3) + 4`: the request rounded up to words, with room for the
word that stores the block size. -/
def mallocSize (size : Nat) : Nat := add32 (add32 (sub32 size 1) 4 / 4 * 4) 4

/-- `malloc`: the word at the base of the block keeps the block size, the caller gets the
address behind it. -/
def malloc (h : Heap) (size : Nat) : Except Stop (Nat × Heap) :=
  let sized := sub32 (mallocSize size) 1 / 4
  let bit := mallocBit 32 2 sized
  if 29 < bit then .error .outOfMemory
  else do
    let (getit, h) ← h.memoryAlloc bit
    .ok (add32 getit 4, h.store (.link getit) (2 ^ bit))

/-- `free`. -/
def free (h : Heap) (addr : Nat) : Except Stop Heap :=
  let ad := sub32 addr 4
  -- the word in front of the block tells its size
  h.memoryFreeNocheck ad (h.load (.link ad))

end Heap

end NorlitOS
