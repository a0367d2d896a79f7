import Mathlib.Logic.Function.Basic

/-!
# Circular buffers

A queue in a buffer of `n` cells is given by the index of its oldest element and its length.
`window` reads off the elements, oldest first; writing behind the last one and stepping over the
first one are the two queue operations.
-/

namespace Ring

variable {α : Type} {n tail count i : Nat} {buf buf' : Nat → α}

/-- The elements of the queue, oldest first. -/
def window (buf : Nat → α) (n tail count : Nat) : List α :=
  (List.range count).map fun i => buf ((tail + i) % n)

/-- The index after `i`. -/
def next (n i : Nat) : Nat := if i + 1 = n then 0 else i + 1

theorem next_eq_mod (hi : i < n) : next n i = (i + 1) % n := by
  unfold next
  split
  · next h => rw [h, Nat.mod_self]
  · exact (Nat.mod_eq_of_lt (by omega)).symm

theorem next_lt (hi : i < n) : next n i < n := by
  unfold next
  split <;> omega

@[simp] theorem length_window : (window buf n tail count).length = count := by
  simp [window]

@[simp] theorem window_zero : window buf n tail 0 = [] := rfl

/-- Two positions of a queue that fits into the buffer are different cells. -/
theorem index_ne {j : Nat} (hij : i < j) (hj : j < n) : (tail + i) % n ≠ (tail + j) % n := by
  intro h
  -- the distance is less than `n`, so it is no multiple of it
  have hmod : (tail + j - (tail + i)) % n = 0 := Nat.sub_mod_eq_zero_of_mod_eq h.symm
  rw [show tail + j - (tail + i) = j - i from by omega, Nat.mod_eq_of_lt (by omega)] at hmod
  omega

/-- Only the cells of the queue matter. -/
theorem window_congr (h : ∀ i < count, buf' ((tail + i) % n) = buf ((tail + i) % n)) :
    window buf' n tail count = window buf n tail count := by
  unfold window
  refine List.map_congr_left fun i hi => h i (List.mem_range.mp hi)

/-- Writing behind the last element appends it. -/
theorem window_push (hc : count < n) (x : α) :
    window (Function.update buf ((tail + count) % n) x) n tail (count + 1) =
      window buf n tail count ++ [x] := by
  -- the cell behind the queue is none of its own
  have hkeep : window (Function.update buf ((tail + count) % n) x) n tail count =
      window buf n tail count := by
    refine window_congr fun i hi => ?_
    rw [Function.update_of_ne (index_ne hi hc)]
  rw [← hkeep]
  simp [window, List.range_succ]

/-- The oldest element is the first one. -/
theorem window_succ (ht : tail < n) :
    window buf n tail (count + 1) = buf tail :: window buf n (tail + 1) count := by
  unfold window
  rw [List.range_succ_eq_map, List.map_cons, List.map_map, Nat.add_zero, Nat.mod_eq_of_lt ht]
  congr 1
  refine List.map_congr_left fun i _ => ?_
  show buf ((tail + (i + 1)) % n) = buf ((tail + 1 + i) % n)
  congr 2
  omega

/-- Behind the last cell comes the first one. -/
theorem window_wrap : window buf n n count = window buf n 0 count := by
  unfold window
  refine List.map_congr_left fun i _ => ?_
  rw [Nat.add_mod_left, Nat.zero_add]

/-- Stepping over the oldest element removes it. -/
theorem window_pop (ht : tail < n) :
    window buf n tail (count + 1) = buf tail :: window buf n (next n tail) count := by
  rw [window_succ ht]
  unfold next
  split
  · next h => rw [h, window_wrap]
  · rfl

/-- The index behind the last element moves on by one with either operation. -/
theorem next_mod (hn : 0 < n) : next n ((tail + count) % n) = (tail + (count + 1)) % n := by
  rw [next_eq_mod (Nat.mod_lt _ hn), Nat.mod_add_mod]
  rfl

theorem next_add_mod (ht : tail < n) : (next n tail + count) % n = (tail + (count + 1)) % n := by
  rw [next_eq_mod ht, Nat.mod_add_mod]
  congr 1
  omega

end Ring
