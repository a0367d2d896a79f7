import NorlitOS.Clock.Time
import NorlitOS.Lib.Loop
import Mathlib.Tactic.Ring

/-!
# Division of `u64`

`do_divmod64` shifts the denominator to the left until its top bit is set, and then subtracts and
shifts it back. `qbit` is the power of two that the denominator has been multiplied with, so
nothing is lost on the way. The loops are followed step by step: they end, and what is in the
variables in front of any step is known.
-/

namespace NorlitOS

/-! ## The function -/

variable {n num quot den d j k rest : Nat}

theorem justify_spec (hd : 0 < d) (hlt : d * 2 ^ j < 2 ^ 64) (hn : 2 ^ 63 ≤ d * 2 ^ (j + n)) :
    ∃ k, justify n (d * 2 ^ j) (2 ^ j) = (d * 2 ^ k, 2 ^ k) ∧ 2 ^ 63 ≤ d * 2 ^ k ∧
      d * 2 ^ k < 2 ^ 64 := by
  induction n generalizing j with
  | zero => exact ⟨j, rfl, hn, hlt⟩
  | succ n ih =>
    rw [justify]
    -- shifted once more, or at the top already
    by_cases hsmall : d * 2 ^ j < 2 ^ 63
    · have hden : d * 2 ^ j * 2 % 2 ^ 64 = d * 2 ^ (j + 1) := by
        rw [Nat.mod_eq_of_lt (by omega), Nat.pow_succ, Nat.mul_assoc]
      have hle : 2 ^ j ≤ d * 2 ^ j := Nat.le_mul_of_pos_left _ hd
      have hqbit : 2 ^ j * 2 % 2 ^ 64 = 2 ^ (j + 1) := by
        rw [Nat.mod_eq_of_lt (by omega), Nat.pow_succ]
      rw [if_pos hsmall, hden, hqbit]
      refine ih ?_ ?_
      · rw [Nat.pow_succ, ← Nat.mul_assoc]
        omega
      · rw [show j + 1 + n = j + (n + 1) by omega]
        exact hn
    · rw [if_neg hsmall]
      exact ⟨j, rfl, by omega, hlt⟩

theorem divLoop_zero : divLoop n num quot den 0 = (quot, num) := by
  cases n with
  | zero => rfl
  | succ n => rw [divLoop, if_pos rfl]

/-- The loop divides what is left of `num`. Induction on the bits that are left. -/
theorem divLoop_spec (hd : 0 < d) (hk : k < n) (hlt : num < 2 * (d * 2 ^ k)) :
    divLoop n num quot (d * 2 ^ k) (2 ^ k) = (quot + num / d, num % d) := by
  induction n generalizing num quot k with
  | zero => omega
  | succ n ih =>
    rw [divLoop, if_neg (Nat.two_pow_pos k).ne']
    cases k with
    | zero =>
      -- the last bit
      rw [Nat.pow_zero, Nat.mul_one] at hlt ⊢
      by_cases hle : d ≤ num
      · have hdiv : num / d = 1 := Nat.div_eq_of_lt_le (by omega) (by omega)
        rw [if_pos hle, divLoop_zero, hdiv, Nat.mod_eq_sub_mod hle, Nat.mod_eq_of_lt (by omega)]
      · rw [if_neg hle, divLoop_zero, Nat.div_eq_of_lt (by omega), Nat.mod_eq_of_lt (by omega)]
        rfl
    | succ k =>
      have hden : d * 2 ^ (k + 1) = 2 * (d * 2 ^ k) := by ring
      have hhalf : d * 2 ^ (k + 1) / 2 = d * 2 ^ k := by
        rw [hden]
        exact Nat.mul_div_cancel_left _ (by decide)
      have hbit : 2 ^ (k + 1) / 2 = 2 ^ k := by
        rw [Nat.pow_succ]
        exact Nat.mul_div_cancel _ (by decide)
      rw [hhalf, hbit]
      by_cases hle : d * 2 ^ (k + 1) ≤ num
      · rw [if_pos hle, ih (by omega) (by omega), Nat.sub_mul_div, Nat.sub_mul_mod hle]
        have hquot : 2 ^ (k + 1) ≤ num / d := by
          rw [Nat.le_div_iff_mul_le hd, Nat.mul_comm]
          exact hle
        congr 1
        omega
      · rw [if_neg hle]
        exact ih (by omega) (by omega)

theorem doDivmod64_eq (hnum : num < 2 ^ 64) (hpos : 0 < den) (hden : den < 2 ^ 64) :
    doDivmod64 num den = some (num / den, num % den) := by
  obtain ⟨k, hjust, hlo, hhi⟩ := justify_spec (n := 64) (j := 0) hpos
    (by rw [Nat.pow_zero, Nat.mul_one]; exact hden)
    (by rw [Nat.zero_add]; omega)
  rw [Nat.pow_zero, Nat.mul_one] at hjust
  have hk : k < 64 := by
    have hle : 2 ^ k ≤ den * 2 ^ k := Nat.le_mul_of_pos_left _ hpos
    exact (Nat.pow_lt_pow_iff_right (by decide)).mp (lt_of_le_of_lt hle hhi)
  unfold doDivmod64
  rw [if_neg (by omega), hjust]
  dsimp only
  rw [divLoop_spec hpos hk (by omega), Nat.zero_add]

/-! ## Step by step -/

/-- Where `do_divmod64` stands: in front of the test of its first loop, in front of that of its
second loop, or behind both. -/
inductive DivPhase where
  | justify
  | divide
  | done
  deriving DecidableEq

/-- The variables of `do_divmod64`. -/
structure DivState where
  phase : DivPhase
  num : Nat
  quot : Nat
  den : Nat
  qbit : Nat

namespace DivState

/-- The variables in front of the loops. -/
def start (num den : Nat) : DivState := ⟨.justify, num, 0, den, 1⟩

/-- The test of a loop, and its body when it goes round. -/
def step (s : DivState) : DivState :=
  match s.phase with
  | .justify =>
    if s.den < 2 ^ 63 then { s with den := s.den * 2 % 2 ^ 64, qbit := s.qbit * 2 % 2 ^ 64 }
    else { s with phase := .divide }
  | .divide =>
    if s.qbit = 0 then { s with phase := .done }
    else if s.den ≤ s.num then
      { s with num := s.num - s.den, quot := (s.quot + s.qbit) % 2 ^ 64, den := s.den / 2,
               qbit := s.qbit / 2 }
    else { s with den := s.den / 2, qbit := s.qbit / 2 }
  | .done => s

/-- The shifts and the addition of the next step lose no bit. The shift to the right by which the
second loop ends is not looked at: its results are not used. -/
def Lossless (s : DivState) : Prop :=
  match s.phase with
  | .justify => s.den < 2 ^ 63 → s.den * 2 < 2 ^ 64 ∧ s.qbit * 2 < 2 ^ 64
  | .divide => (s.qbit ≠ 0 → s.den ≤ s.num → s.quot + s.qbit < 2 ^ 64) ∧
    (1 < s.qbit → s.den / 2 * 2 = s.den ∧ s.qbit / 2 * 2 = s.qbit)
  | .done => True

variable {s : DivState}

/-- The variables while `num` is divided by `d`. -/
inductive Divides (num d : Nat) : DivState → Prop
  | justify {j : Nat} (fits : d * 2 ^ j < 2 ^ 64) : Divides num d ⟨.justify, num, 0, d * 2 ^ j, 2 ^ j⟩
  | divide {k rest quot : Nat} (rest_lt : rest < 2 * (d * 2 ^ k)) (sum : quot * d + rest = num) :
    Divides num d ⟨.divide, rest, quot, d * 2 ^ k, 2 ^ k⟩
  | last {den : Nat} : Divides num d ⟨.divide, num % d, num / d, den, 0⟩
  | done {den : Nat} : Divides num d ⟨.done, num % d, num / d, den, 0⟩

/-- Quotient and remainder by their equation. -/
theorem divides_last (hsum : quot * d + rest = num) (hlt : rest < d) :
    Divides num d ⟨.divide, rest, quot, den, 0⟩ := by
  have hmod : num % d = rest := by
    rw [← hsum, Nat.add_comm, Nat.add_mul_mod_self_right, Nat.mod_eq_of_lt hlt]
  have hdiv : num / d = quot := by
    rw [← hsum, Nat.add_comm, Nat.add_mul_div_right _ _ (by omega), Nat.div_eq_of_lt hlt, Nat.zero_add]
  rw [← hmod, ← hdiv]
  exact .last

/-- The shifts to the right, once the denominator has been subtracted where it could be. -/
theorem divides_halve (hsum : quot * d + rest = num) (hlt : rest < d * 2 ^ k) :
    Divides num d ⟨.divide, rest, quot, d * 2 ^ k / 2, 2 ^ k / 2⟩ := by
  cases k with
  | zero =>
    rw [Nat.pow_zero, Nat.mul_one] at hlt
    exact divides_last hsum hlt
  | succ k =>
    have hden : d * 2 ^ (k + 1) / 2 = d * 2 ^ k := by
      rw [Nat.pow_succ, ← Nat.mul_assoc, Nat.mul_div_cancel _ (by decide)]
    have hbit : 2 ^ (k + 1) / 2 = 2 ^ k := by
      rw [Nat.pow_succ, Nat.mul_div_cancel _ (by decide)]
    rw [hden, hbit]
    rw [Nat.pow_succ, ← Nat.mul_assoc, Nat.mul_comm _ 2] at hlt
    exact .divide hlt hsum

section Step

variable (hnum : num < 2 ^ 64) (hd : 0 < d)

include hnum hd

theorem quot_lt (hsum : quot * d + rest = num) : quot < 2 ^ 64 := by
  have hle : quot ≤ quot * d := Nat.le_mul_of_pos_right _ hd
  omega

/-- **One step.** What is divided stays the same. -/
theorem Divides.step (hs : Divides num d s) : Divides num d s.step := by
  cases hs with
  | @justify j fits =>
    unfold DivState.step
    dsimp only
    split
    · next hsmall =>
      -- the divisor fits once more, so nothing is shifted out
      have hbit : 2 ^ j ≤ d * 2 ^ j := Nat.le_mul_of_pos_left _ hd
      rw [Nat.mod_eq_of_lt (by omega), Nat.mod_eq_of_lt (by omega), Nat.mul_assoc, ← Nat.pow_succ]
      refine .justify ?_
      rw [Nat.pow_succ, ← Nat.mul_assoc]
      omega
    · exact .divide (by omega) (by omega)
  | @divide k rest quot rest_lt sum =>
    have hbit : ¬ 2 ^ k = 0 := (Nat.two_pow_pos k).ne'
    unfold DivState.step
    dsimp only
    rw [if_neg hbit]
    split
    · next hle =>
      -- the bit goes to the quotient
      have hsum : (quot + 2 ^ k) * d + (rest - d * 2 ^ k) = num := by
        rw [Nat.add_mul, Nat.mul_comm (2 ^ k)]
        omega
      rw [Nat.mod_eq_of_lt (quot_lt hnum hd hsum)]
      exact divides_halve hsum (by omega)
    · exact divides_halve sum (by omega)
  | last => exact .done
  | done => exact .done

omit hnum in
/-- The next step loses nothing. -/
theorem Divides.lossless (hnum : num < 2 ^ 64) (hs : Divides num d s) : s.Lossless := by
  cases hs with
  | @justify j fits =>
    intro hsmall
    have hbit : 2 ^ j ≤ d * 2 ^ j := Nat.le_mul_of_pos_left _ hd
    dsimp only at hsmall ⊢
    omega
  | @divide k rest quot rest_lt sum =>
    refine ⟨fun _ hle => ?_, fun hlast => ?_⟩
    · dsimp only at hle ⊢
      have hsum : (quot + 2 ^ k) * d + (rest - d * 2 ^ k) = num := by
        rw [Nat.add_mul, Nat.mul_comm (2 ^ k)]
        omega
      exact quot_lt hnum hd hsum
    -- halving loses no bit: the quotient bit is not the last one
    · dsimp only at hlast ⊢
      obtain ⟨m, rfl⟩ : ∃ m, k = m + 1 := by
        cases k with
        | zero => exact absurd hlast (by decide)
        | succ m => exact ⟨m, rfl⟩
      rw [Nat.pow_succ, ← Nat.mul_assoc, Nat.mul_div_cancel _ (by decide),
        Nat.mul_div_cancel _ (by decide)]
      exact ⟨rfl, rfl⟩
  | last => exact ⟨fun hne => absurd rfl hne, fun hlt => absurd hlt (Nat.not_lt_zero 1)⟩
  | done => trivial

end Step

/-- What falls until the function returns. -/
def left (s : DivState) : Nat :=
  match s.phase with
  | .justify => 2 ^ 65 + (2 ^ 64 - s.den)
  | .divide => s.qbit + 1
  | .done => 0

theorem Divides.left_step (hd : 0 < d) (hs : Divides num d s) (hrun : s.phase ≠ .done) :
    s.step.left < s.left := by
  cases hs with
  | @justify j fits =>
    -- the divisor is shifted up, or the division starts
    have hpos : 0 < d * 2 ^ j := Nat.mul_pos hd (Nat.two_pow_pos j)
    have hbit : 2 ^ j ≤ d * 2 ^ j := Nat.le_mul_of_pos_left _ hd
    unfold DivState.step
    dsimp only
    split
    · unfold left
      dsimp only
      omega
    · unfold left
      dsimp only
      omega
  | @divide k rest quot rest_lt sum =>
    -- the bit moves down
    have hbit : 0 < 2 ^ k := Nat.two_pow_pos k
    unfold DivState.step
    dsimp only
    rw [if_neg hbit.ne']
    split
    · unfold left
      dsimp only
      omega
    · unfold left
      dsimp only
      omega
  | last =>
    show 0 < 1
    decide
  | done => exact absurd rfl hrun

end DivState

/-- **64-bit division.** `do_divmod64` ends, no step of it loses a bit, and it gives the quotient and
the remainder. -/
theorem do_divmod64_exact (hnum : num < 2 ^ 64) (hpos : 0 < den) (hden : den < 2 ^ 64) :
    (∃ n, (DivState.step^[n] (.start num den)).phase = .done) ∧
    (∀ n, (DivState.step^[n] (.start num den)).Lossless ∧
      ((DivState.step^[n] (.start num den)).phase = .done →
        (DivState.step^[n] (.start num den)).quot = num / den ∧
        (DivState.step^[n] (.start num den)).num = num % den)) ∧
    doDivmod64 num den = some (num / den, num % den) := by
  have hstart : DivState.Divides num den (.start num den) := by
    have hjustify : DivState.Divides num den ⟨.justify, num, 0, den * 2 ^ 0, 2 ^ 0⟩ :=
      .justify (by rwa [Nat.pow_zero, Nat.mul_one])
    rwa [Nat.pow_zero, Nat.mul_one] at hjustify
  refine ⟨?_, fun n => ?_, doDivmod64_eq hnum hpos hden⟩
  · exact Loop.ends_of_measure (I := DivState.Divides num den) (μ := DivState.left)
      (fun s hs => hs.step hnum hpos) (fun s hs hrun => hs.left_step hpos hrun) hstart
  -- when the steps are over the state is the one with the result
  · have hs : DivState.Divides num den (DivState.step^[n] (.start num den)) :=
      Function.Iterate.rec (DivState.Divides num den) hstart (fun s hs => hs.step hnum hpos) n
    refine ⟨hs.lossless hpos hnum, fun hdone => ?_⟩
    generalize DivState.step^[n] (.start num den) = s at hs hdone
    cases hs with
    | done => exact ⟨rfl, rfl⟩
    | justify => exact nomatch hdone
    | divide => exact nomatch hdone
    | last => exact nomatch hdone

/-- The largest number by one with its top bit set. -/
theorem do_divmod64_exact_top :
    doDivmod64 (2 ^ 64 - 1) (2 ^ 63 + 1) = some (1, 2 ^ 63 - 2) :=
  (do_divmod64_exact (by decide) (by decide) (by decide)).2.2

end NorlitOS
