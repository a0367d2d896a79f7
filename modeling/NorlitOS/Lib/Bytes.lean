import Mathlib.Data.UInt
import Mathlib.Tactic.Ring

/-!
# Byte arrays with little-endian words

A memory, a page or a disk is a function from addresses to bytes. The two writes are a store of
one 32-bit word and a copy of a range; what is read afterwards depends only on whether the bytes
read lie inside the bytes written or outside them.
-/

/-- Bytes by address. -/
abbrev Bytes := Nat → UInt8

namespace Bytes

/-- The little-endian word at `o`. -/
def u32 (b : Bytes) (o : Nat) : Nat :=
  (b o).toNat + 0x100 * (b (o + 1)).toNat + 0x10000 * (b (o + 2)).toNat +
    0x1000000 * (b (o + 3)).toNat

/-- Storing the word `v` at `o`. -/
def setU32 (b : Bytes) (o v : Nat) : Bytes := fun i =>
  if o ≤ i ∧ i < o + 4 then UInt8.ofNat (v / 2 ^ (8 * (i - o))) else b i

/-- `n` bytes of `src` from `s` on, over `dst` from `o` on. -/
def copy (src : Bytes) (s : Nat) (dst : Bytes) (o n : Nat) : Bytes := fun i =>
  if o ≤ i ∧ i < o + n then src (s + (i - o)) else dst i

variable {b b' src dst : Bytes} {o p s n v i : Nat}

/-- A word is below `2 ^ 32`. -/
theorem u32_lt : b.u32 o < 2 ^ 32 := by
  have h₀ := (b o).toNat_lt
  have h₁ := (b (o + 1)).toNat_lt
  have h₂ := (b (o + 2)).toNat_lt
  have h₃ := (b (o + 3)).toNat_lt
  unfold u32
  omega

/-- A word depends on its four bytes. -/
theorem u32_congr (h : ∀ j < 4, b (o + j) = b' (p + j)) : b.u32 o = b'.u32 p := by
  have h₀ : b o = b' p := h 0 (by decide)
  unfold u32
  rw [h₀, h 1 (by decide), h 2 (by decide), h 3 (by decide)]

/-- A word has its four bytes. -/
theorem eq_of_u32 {j : Nat} (h : b.u32 o = b'.u32 p) (hj : j < 4) : b (o + j) = b' (p + j) := by
  have hlt : ∀ i, (b i).toNat < 256 ∧ (b' i).toNat < 256 :=
    fun i => ⟨(b i).toNat_lt, (b' i).toNat_lt⟩
  have h₀ := hlt o
  have h₁ := hlt (o + 1)
  have h₂ := hlt (o + 2)
  have h₃ := hlt (o + 3)
  have h₀' := hlt p
  have h₁' := hlt (p + 1)
  have h₂' := hlt (p + 2)
  have h₃' := hlt (p + 3)
  unfold u32 at h
  apply UInt8.toNat_inj.mp
  match j, hj with
  | 0, _ => rw [Nat.add_zero, Nat.add_zero]; omega
  | 1, _ => omega
  | 2, _ => omega
  | 3, _ => omega

/-! ## Storing a word

Four bytes change. A word that is read afterwards is the one stored, or has no byte in common with
it. -/

theorem setU32_of_notMem (h : i < o ∨ o + 4 ≤ i) : b.setU32 o v i = b i := by
  apply if_neg
  omega

/-- Byte `j` of the word is byte `j` of the value. -/
theorem setU32_add {j : Nat} (hj : j < 4) :
    b.setU32 o v (o + j) = UInt8.ofNat (v / 2 ^ (8 * j)) := by
  unfold setU32
  rw [if_pos (by omega), Nat.add_sub_cancel_left]

/-- What was stored is read. -/
theorem u32_setU32 (hv : v < 2 ^ 32) : (b.setU32 o v).u32 o = v := by
  have h₀ : b.setU32 o v o = UInt8.ofNat (v / 2 ^ (8 * 0)) := setU32_add (j := 0) (by decide)
  unfold u32
  rw [h₀, setU32_add (by decide), setU32_add (by decide), setU32_add (by decide)]
  simp only [UInt8.toNat_ofNat']
  omega

theorem u32_setU32_of_ne (h : o + 4 ≤ p ∨ p + 4 ≤ o) : (b.setU32 o v).u32 p = b.u32 p := by
  apply u32_congr
  intro j hj
  exact setU32_of_notMem (by omega)

/-! ## Copying a range

A word that lies inside the range is one of the source, and a word that lies outside is one of the
target. No lemma is about words that lie across an end. -/

theorem copy_of_mem (h : o ≤ i) (h' : i < o + n) : src.copy s dst o n i = src (s + (i - o)) :=
  if_pos ⟨h, h'⟩

theorem copy_of_notMem (h : i < o ∨ o + n ≤ i) : src.copy s dst o n i = dst i := by
  apply if_neg
  omega

theorem u32_copy_of_mem (h : o ≤ p) (h' : p + 4 ≤ o + n) :
    (src.copy s dst o n).u32 p = src.u32 (s + (p - o)) := by
  apply u32_congr
  intro j hj
  rw [copy_of_mem (by omega) (by omega), show s + (p + j - o) = s + (p - o) + j from by omega]

theorem u32_copy_of_notMem (h : p + 4 ≤ o ∨ o + n ≤ p) :
    (src.copy s dst o n).u32 p = dst.u32 p := by
  apply u32_congr
  intro j hj
  exact copy_of_notMem (by omega)

theorem copy_zero : src.copy s dst o 0 = dst := by
  funext i
  exact copy_of_notMem (by omega)

/-- Two ranges one after the other. -/
theorem copy_append {m : Nat} :
    src.copy (s + m) (src.copy s dst o m) (o + m) n = src.copy s dst o (m + n) := by
  funext i
  by_cases hi : o ≤ i ∧ i < o + (m + n)
  · rw [copy_of_mem hi.1 hi.2]
    rcases Nat.lt_or_ge i (o + m) with hlt | hge
    · rw [copy_of_notMem (Or.inl hlt), copy_of_mem hi.1 hlt]
    · rw [copy_of_mem hge (by omega), show s + m + (i - (o + m)) = s + (i - o) by omega]
  · rw [copy_of_notMem (by omega), copy_of_notMem (by omega), copy_of_notMem (by omega)]

/-! ## Reading a range, changing it and writing it back

A page is read from a disk, a word of it is set, and the page is written back: together this sets
the word on the disk. -/

/-- What was read can be written back without a change. -/
theorem copy_back : (b.copy s dst 0 n).copy 0 b s n = b := by
  funext i
  by_cases hi : s ≤ i ∧ i < s + n
  · rw [copy_of_mem hi.1 hi.2, copy_of_mem (by omega) (by omega)]
    congr 1
    omega
  · exact copy_of_notMem (by omega)

/-- A word set in the page is set where the page goes. -/
theorem copy_setU32 (h : o + 4 ≤ n) :
    (src.setU32 o v).copy 0 dst s n = (src.copy 0 dst s n).setU32 (s + o) v := by
  funext i
  by_cases hi : s ≤ i ∧ i < s + n
  · rw [copy_of_mem hi.1 hi.2, Nat.zero_add]
    by_cases ho : s + o ≤ i ∧ i < s + o + 4
    · rw [show i - s = o + (i - (s + o)) from by omega, setU32_add (by omega)]
      nth_rewrite 2 [show i = s + o + (i - (s + o)) from by omega]
      rw [setU32_add (by omega)]
    · rw [setU32_of_notMem (by omega), setU32_of_notMem (by omega), copy_of_mem hi.1 hi.2,
        Nat.zero_add]
  · rw [copy_of_notMem (by omega), setU32_of_notMem (by omega), copy_of_notMem (by omega)]

end Bytes
