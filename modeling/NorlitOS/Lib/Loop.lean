import Mathlib.Logic.Function.Iterate

/-!
# Counted loops

`forRange n body s` runs `body 0`, `body 1`, .., `body (n - 1)` on a state, and stops at the
first failure. The rule is the one for a `for` loop: a predicate of the loop index and the state
that every round carries from `i` to `i + 1` holds of `n` at the end.

A loop without a bound takes an amount of fuel. It returns a value if it gives it for every amount
that is large enough. A loop that is given by its step alone comes to an end if a measure falls.
-/

namespace Loop

variable {σ ε : Type}

/-- `for (i = start; n rounds; i++) body(i)`. -/
def forFrom (body : Nat → σ → Except ε σ) : Nat → Nat → σ → Except ε σ
  | 0, _, s => .ok s
  | n + 1, i, s => body i s >>= forFrom body n (i + 1)

/-- `for (i = 0; i < n; i++) body(i)`. -/
def forRange (n : Nat) (body : Nat → σ → Except ε σ) (s : σ) : Except ε σ := forFrom body n 0 s

/-- Induction on the rounds left. -/
theorem forFrom_spec {body : Nat → σ → Except ε σ} {P : Nat → σ → Prop} {n i : Nat} {s : σ}
    (hs : P i s)
    (hbody : ∀ j s, i ≤ j → j < i + n → P j s → ∃ t, body j s = .ok t ∧ P (j + 1) t) :
    ∃ t, forFrom body n i s = .ok t ∧ P (i + n) t := by
  induction n generalizing i s with
  | zero => exact ⟨s, rfl, hs⟩
  | succ n ih =>
    obtain ⟨t, ht, hPt⟩ := hbody i s (Nat.le_refl i) (by omega) hs
    obtain ⟨u, hu, hPu⟩ := ih hPt fun j s hij hjn hP => hbody j s (by omega) (by omega) hP
    refine ⟨u, ?_, by rwa [show i + (n + 1) = i + 1 + n from by omega]⟩
    rw [forFrom, ht]
    exact hu

/-- **The loop rule.** Every round returns and carries `P`, so the loop does. -/
theorem forRange_spec {body : Nat → σ → Except ε σ} {P : Nat → σ → Prop} {n : Nat} {s : σ}
    (hs : P 0 s) (hbody : ∀ i s, i < n → P i s → ∃ t, body i s = .ok t ∧ P (i + 1) t) :
    ∃ t, forRange n body s = .ok t ∧ P n t := by
  have h := forFrom_spec (n := n) hs fun j s _ hj hP => hbody j s (by omega) hP
  rwa [Nat.zero_add] at h

/-- What every round keeps, a loop that returns has kept. -/
theorem forFrom_rel {body : Nat → σ → Except ε σ} {R : σ → σ → Prop} {n i : Nat} {s t : σ}
    (hrefl : ∀ s, R s s) (htrans : ∀ s t u, R s t → R t u → R s u)
    (hbody : ∀ j s t, body j s = .ok t → R s t) (hok : forFrom body n i s = .ok t) : R s t := by
  induction n generalizing i s with
  | zero =>
    cases hok
    exact hrefl _
  | succ n ih =>
    rw [forFrom] at hok
    cases hround : body i s with
    | error e =>
      rw [hround] at hok
      exact nomatch hok
    | ok u =>
      rw [hround] at hok
      exact htrans s u t (hbody i s u hround) (ih hok)

theorem forRange_rel {body : Nat → σ → Except ε σ} {R : σ → σ → Prop} {n : Nat} {s t : σ}
    (hrefl : ∀ s, R s s) (htrans : ∀ s t u, R s t → R t u → R s u)
    (hbody : ∀ j s t, body j s = .ok t → R s t) (hok : forRange n body s = .ok t) : R s t :=
  forFrom_rel hrefl htrans hbody hok

/-! ## Loops with fuel -/

/-- `f` gives `a` from some amount of fuel on. -/
def Returns {α : Type} (f : Nat → Option α) (a : α) : Prop := ∃ n, ∀ m, n ≤ m → f m = some a

namespace Returns

variable {α β : Type} {f : Nat → Option α} {a b : α}

theorem of_some (a : α) : Returns (fun _ => some a) a := ⟨0, fun _ _ => rfl⟩

/-- More fuel does not change what is returned. -/
theorem unique (ha : Returns f a) (hb : Returns f b) : a = b := by
  obtain ⟨n, hn⟩ := ha
  obtain ⟨m, hm⟩ := hb
  -- with enough fuel for both
  have h := (hn (max n m) (Nat.le_max_left n m)).symm.trans (hm (max n m) (Nat.le_max_right n m))
  exact Option.some.inj h

theorem bind {g : α → Nat → Option β} {b : β} (hf : Returns f a) (hg : Returns (g a) b) :
    Returns (fun n => f n >>= fun a => g a n) b := by
  obtain ⟨n, hn⟩ := hf
  obtain ⟨m, hm⟩ := hg
  refine ⟨max n m, fun l hl => ?_⟩
  have hfl := hn l (Nat.le_trans (Nat.le_max_left n m) hl)
  have hgl := hm l (Nat.le_trans (Nat.le_max_right n m) hl)
  show (f l).bind _ = some b
  rw [hfl]
  exact hgl

theorem map (hf : Returns f a) (g : α → β) : Returns (fun n => (f n).map g) (g a) := by
  obtain ⟨n, hn⟩ := hf
  refine ⟨n, fun m hm => ?_⟩
  show (f m).map g = some (g a)
  rw [hn m hm]
  rfl

/-- One round takes one amount of fuel. -/
theorem round {g : Nat → Option α} (hg : Returns g a) (h : ∀ n, f (n + 1) = g n) : Returns f a := by
  obtain ⟨n, hn⟩ := hg
  refine ⟨n + 1, fun m hm => ?_⟩
  obtain ⟨l, rfl⟩ : ∃ l, m = l + 1 := ⟨m - 1, by omega⟩
  rw [h]
  exact hn l (by omega)

end Returns

/-! ## Loops by their step -/

/-- A measure that falls until the loop has ended: it ends. -/
theorem ends_of_measure {f : σ → σ} {I ended : σ → Prop} {μ : σ → Nat} {s : σ}
    (hkeep : ∀ s, I s → I (f s)) (hfall : ∀ s, I s → ¬ ended s → μ (f s) < μ s) (hs : I s) :
    ∃ n, ended (f^[n] s) := by
  induction hm : μ s using Nat.strongRecOn generalizing s with
  | _ m ih =>
    -- strong induction on the measure
    by_cases hend : ended s
    · exact ⟨0, hend⟩
    · obtain ⟨n, hn⟩ := ih (μ (f s)) (hm ▸ hfall s hs hend) (hkeep s hs) rfl
      exact ⟨n + 1, hn⟩

end Loop
