import Mathlib.Data.Nat.Bitwise

/-!
# Machine words and the ways a run can stop

`u32` values are natural numbers below `2 ^ 32`; the operators that can leave that range are
`add32` and `sub32`. A kernel function that does not return normally ends in a `Stop`.
-/

namespace NorlitOS

/-- Why a kernel function does not return. -/
inductive Stop where
  /-- `io_clihlt` behind the out-of-memory message. -/
  | outOfMemory
  /-- A loop that goes round for ever. -/
  | hang
  /-- An array index or a pointer outside the object it belongs to. -/
  | wild
  /-- `io_clihlt` of an `assert` that fails. -/
  | assertion
  deriving DecidableEq

section Outcome

variable {α β : Type}

@[simp] theorem ok_bind (a : α) (f : α → Except Stop β) : (.ok a : Except Stop α) >>= f = f a := rfl

@[simp] theorem error_bind (e : Stop) (f : α → Except Stop β) :
    (.error e : Except Stop α) >>= f = .error e := rfl

/-- A sequence that returns: both parts returned. -/
theorem bind_eq_ok {x : Except Stop α} {f : α → Except Stop β} {b : β} :
    x >>= f = .ok b ↔ ∃ a, x = .ok a ∧ f a = .ok b := by
  cases x with
  | error e => simp
  | ok a => simp

theorem exists_of_isOk {x : Except Stop α} (hx : x.isOk = true) : ∃ a, x = .ok a := by
  cases x with
  | ok a => exact ⟨a, rfl⟩
  | error e => exact nomatch hx

theorem map_eq_ok {x : Except Stop α} {g : α → β} {b : β} :
    x.map g = .ok b ↔ ∃ a, x = .ok a ∧ g a = b := by
  cases x with
  | error e => simp [Except.map]
  | ok a => simp [Except.map]

theorem map_ok {a : α} {g : α → β} : (.ok a : Except Stop α).map g = .ok (g a) := rfl

theorem map_bind {γ : Type} {x : Except Stop α} {g : α → β} {f : β → Except Stop γ} :
    x.map g >>= f = x >>= fun a => f (g a) := by
  cases x with
  | error e => rfl
  | ok a => rfl

theorem bind_map {γ : Type} {x : Except Stop α} {f : α → Except Stop β} {g : β → γ} :
    (x >>= f).map g = x >>= fun a => (f a).map g := by
  cases x with
  | error e => rfl
  | ok a => rfl

/-- `x` returns a value with `Q`, or the machine stops as it may: for lack of memory, or in a loop
that waits for ever. -/
def Yields (x : Except Stop α) (Q : α → Prop) : Prop :=
  match x with
  | .ok a => Q a
  | .error e => e ≠ .wild

variable {x : Except Stop α} {f : α → Except Stop β} {a : α} {P Q : α → Prop} {R : β → Prop}

@[simp] theorem yields_ok : Yields (.ok a) Q ↔ Q a := Iff.rfl

theorem Yields.of_eq_ok (hx : x = .ok a) (ha : Q a) : Yields x Q := hx ▸ ha

theorem Yields.elim (h : Yields x Q) (hx : x = .ok a) : Q a := by
  rw [hx] at h
  exact h

theorem Yields.mono (h : Yields x P) (hPQ : ∀ a, P a → Q a) : Yields x Q := by
  cases x with
  | ok a => exact hPQ a h
  | error e => exact h

/-- The value is the one returned. -/
theorem Yields.with_eq (h : Yields x Q) : Yields x fun a => x = .ok a ∧ Q a := by
  cases x with
  | ok a => exact ⟨rfl, h⟩
  | error e => exact h

/-- The rule of sequencing. -/
theorem Yields.bind (h : Yields x P) (hf : ∀ a, P a → Yields (f a) R) : Yields (x >>= f) R := by
  cases x with
  | ok a => exact hf a h
  | error e => exact h

theorem Yields.of_map {γ : Type} {g : α → γ} {S : γ → Prop} (h : Yields (x.map g) S) :
    Yields x fun a => S (g a) := by
  cases x with
  | ok a => exact h
  | error e => exact h

/-- Properties that hold of the value for every index hold together. -/
theorem Yields.forall_of {ι : Type} {I : ι → Prop} {S : ι → α → Prop} {i : ι} (hi : I i)
    (h : ∀ i, I i → Yields x (S i)) : Yields x fun a => ∀ i, I i → S i a := by
  cases x with
  | ok a => exact fun j hj => h j hj
  | error e => exact h i hi

end Outcome

/-- `u32` addition. -/
def add32 (a b : Nat) : Nat := (a + b) % 2 ^ 32

/-- `u32` subtraction. -/
def sub32 (a b : Nat) : Nat := (a + 2 ^ 32 - b) % 2 ^ 32

theorem add32_of_lt {a b : Nat} (h : a + b < 2 ^ 32) : add32 a b = a + b :=
  Nat.mod_eq_of_lt h

theorem sub32_of_le {a b : Nat} (hb : b ≤ a) (ha : a < 2 ^ 32) : sub32 a b = a - b := by
  unfold sub32
  rw [show a + 2 ^ 32 - b = a - b + 2 ^ 32 from by omega, Nat.add_mod_right]
  exact Nat.mod_eq_of_lt (by omega)

/-- The value of a `u32` stored into an `s32`. -/
def s32 (x : Nat) : Int := (x : Int).bmod (2 ^ 32)

/-- `x & (1 << bit)` is non-zero exactly when bit `bit` of `x` is set. -/
theorem and_two_pow_ne_zero {x bit : Nat} : x &&& 2 ^ bit ≠ 0 ↔ x.testBit bit = true := by
  rw [Nat.and_two_pow]
  cases x.testBit bit <;> simp

theorem and_two_pow_eq_zero {x bit : Nat} : x &&& 2 ^ bit = 0 ↔ x.testBit bit = false := by
  rw [Nat.and_two_pow]
  cases x.testBit bit <;> simp

/-! ## Address constants (`config.h`, `typedef.h`) -/

/-- Start of the kernel half of every address space. -/
def PAGE_OFFSET : Nat := 0xC0000000

/-- Bytes of physical memory the kernel maps. -/
def MAX_MAPPING : Nat := 0x30000000

/-- The size of the kernel image. -/
def KERNEL_SIZE : Nat := 40960

/-- The pointer that ends a free list. -/
def EMPTY : Nat := 0xFFFFFFFF

end NorlitOS
