import NorlitOS.Process.Replay

/-!
# Every frame has one owner

In a run without physical mappings the frames taken from the allocator since `init_proc` are
those of the ledger: each is owned once, none of them is free, and no other memory is missing.
So the disposal of a process returns the frames it owned and no others.
-/

namespace NorlitOS

open Dyadic Ledger

namespace Kernel

variable {k k' k₁ k₂ : Kernel} {phy : Prop} {pool : Set Nat} {p q ip kernelPDE : Nat}
  {es : List Event}

/-- The addresses of the frames of `p`. -/
def framesOf (k : Kernel) (p : Nat) : Set Nat :=
  {x | ∃ o ∈ k.processOwners p, ∃ f, k.frameOf o = some f ∧ x ∈ page f}

/-- The disposal of a process frees its frames. -/
theorem Exited.freeSet (hE : Exited k pool p k') (h : k.Inv phy pool) (h' : k'.Inv phy pool) :
    k'.heap.freeSet = k.heap.freeSet ∪ k.framesOf p := by
  have hacc := h'.owned.accounts
  rw [hE.frames] at hacc
  exact h.owned.accounts.free_of_without hacc

end Kernel

end NorlitOS
