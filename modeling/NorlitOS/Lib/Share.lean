import NorlitOS.Lib.Run
import Mathlib.Algebra.BigOperators.Group.Finset.Basic
import Mathlib.Algebra.Order.BigOperators.Group.Finset
import Mathlib.Algebra.Order.Group.Int
import Mathlib.Data.Nat.Cast.Order.Ring
import Mathlib.Algebra.BigOperators.Ring.Finset
import Mathlib.Tactic.Ring

/-!
# Proportional shares

Members of a ring are charged for the units of time they run. Whoever is picked to run next has
something left; when nobody has, everybody gets his weight again. Whatever rule picks the next
one, a round from one refill to the next charges each member with exactly his weight.
-/

namespace Share

variable {ι : Type} [DecidableEq ι] {members : Finset ι} {w : ι → ℤ}

structure Clock (ι : Type) where
  left : ι → ℤ
  running : ι

/-- What is left when the running member has been charged with a unit. -/
def Clock.charged (s : Clock ι) (p : ι) : ℤ := if p = s.running then s.left p - 1 else s.left p

/-- One unit of time. The label tells who has been charged and whether a refill followed. -/
inductive Step (members : Finset ι) (w : ι → ℤ) (s : Clock ι) : ι × Bool → Clock ι → Prop where
  | pass (t : Clock ι) (mem : t.running ∈ members) (pos : 0 < t.left t.running)
      (left : ∀ p ∈ members, t.left p = s.charged p) : Step members w s (s.running, false) t
  | refill (t : Clock ι) (mem : t.running ∈ members) (pos : 0 < t.left t.running)
      (spent : ∀ p ∈ members, s.charged p ≤ 0) (left : ∀ p ∈ members, t.left p = w p) :
      Step members w s (s.running, true) t

/-- The members have something between nothing and their weights, the running one not nothing. -/
structure Within (members : Finset ι) (w : ι → ℤ) (s : Clock ι) : Prop where
  running : s.running ∈ members
  positive : 0 < s.left s.running
  low : ∀ p ∈ members, 0 ≤ s.left p
  high : ∀ p ∈ members, s.left p ≤ w p

/-- How often `p` has been charged. -/
def count (p : ι) (l : List (ι × Bool)) : ℕ := (l.map Prod.fst).count p

variable {s t : Clock ι} {c : ι × Bool} {l l₁ l₂ l₃ : List (ι × Bool)} {p q : ι}

@[simp] theorem count_nil : count p [] = 0 := rfl

theorem count_cons : count p (c :: l) = count p l + if p = c.1 then 1 else 0 := by
  unfold count
  rw [List.map_cons, List.count_cons]
  by_cases h : p = c.1
  · simp [h]
  · simp [h, Ne.symm h]

theorem count_append : count p (l₁ ++ l₂) = count p l₁ + count p l₂ := by
  unfold count
  rw [List.map_append, List.count_append]

namespace Step

theorem label (h : Step members w s c t) : c.1 = s.running := by
  cases h <;> rfl

theorem within (h : Step members w s c t) (hs : Within members w s) : Within members w t := by
  cases h with
  | pass _ mem pos left =>
    refine ⟨mem, pos, fun p hp => ?_, fun p hp => ?_⟩ <;> rw [left p hp, Clock.charged]
    · split
      · next h =>
        have hpos := hs.positive
        rw [← h] at hpos
        omega
      · exact hs.low p hp
    · split
      · exact (sub_le_self _ zero_le_one).trans (hs.high p hp)
      · exact hs.high p hp
  | refill _ mem pos spent left =>
    refine ⟨mem, pos, fun p hp => ?_, fun p hp => ?_⟩ <;> rw [left p hp]
    exact (hs.low p hp).trans (hs.high p hp)

/-- Without a refill the charge is what is missing. -/
theorem left_add (h : Step members w s c t) (hc : c.2 = false) (hp : p ∈ members) :
    t.left p + (if p = c.1 then 1 else 0) = s.left p := by
  cases h with
  | pass _ mem pos left =>
    rw [left p hp, Clock.charged]
    split
    · exact sub_add_cancel _ _
    · exact add_zero _
  | refill _ mem pos spent left => exact nomatch hc

end Step

/-! ## Rounds

A round begins with full weights and ends when nobody has anything left. What each member was
charged in between is what it had. -/

theorem run_within (hrun : Run (Step members w) s l t) (hs : Within members w s) : Within members w t :=
  Run.invariant (I := Within members w) (fun _ _ _ h hstep => hstep.within h) hrun hs

/-- Only members are charged. -/
theorem run_mem (hrun : Run (Step members w) s l t) (hs : Within members w s) : ∀ c ∈ l, c.1 ∈ members := by
  induction hrun with
  | nil => exact fun c hc => absurd hc List.not_mem_nil
  | cons first _ ih =>
    refine List.forall_mem_cons.mpr ⟨?_, ih (first.within hs)⟩
    rw [first.label]
    exact hs.running

/-- **A run without a refill**: what is left and what has been charged is what there was. -/
theorem left_add_count (hrun : Run (Step members w) s l t) (hl : ∀ c ∈ l, c.2 = false)
    (hp : p ∈ members) : t.left p + count p l = s.left p := by
  induction hrun with
  | nil => simp
  | @cons s u t c l first _ ih =>
    obtain ⟨hc, hl⟩ := List.forall_mem_cons.mp hl
    have hrest := ih hl
    have hfirst := first.left_add hc hp
    rw [count_cons, ← hfirst, ← hrest]
    push_cast
    ring

/-- Every unit of time has been charged to somebody. -/
theorem sum_count (h : ∀ c ∈ l, c.1 ∈ members) : ∑ p ∈ members, count p l = l.length := by
  have hmem : ∀ a ∈ (↑(l.map Prod.fst) : Multiset ι), a ∈ members := by
    intro a ha
    obtain ⟨c, hc, rfl⟩ := List.mem_map.mp (Multiset.mem_coe.mp ha)
    exact h c hc
  calc ∑ p ∈ members, count p l
      = ∑ p ∈ members, (↑(l.map Prod.fst) : Multiset ι).count p :=
        Finset.sum_congr rfl fun p _ => (Multiset.coe_count p _).symm
    _ = Multiset.card (↑(l.map Prod.fst) : Multiset ι) := Multiset.sum_count_eq_card hmem
    _ = l.length := by rw [Multiset.coe_card, List.length_map]

/-- What is left decreases with every unit, so a refill is never far. -/
theorem length_lt (hrun : Run (Step members w) s l t) (hs : Within members w s)
    (hl : ∀ c ∈ l, c.2 = false) : (l.length : ℤ) < ∑ p ∈ members, w p := by
  have ht := run_within hrun hs
  have hleft : 0 < ∑ p ∈ members, t.left p := Finset.sum_pos' ht.low ⟨_, ht.running, ht.positive⟩
  have hsum : ∑ p ∈ members, t.left p + l.length = ∑ p ∈ members, s.left p := by
    rw [← sum_count (run_mem hrun hs), Nat.cast_sum, ← Finset.sum_add_distrib]
    exact Finset.sum_congr rfl fun p hp => left_add_count hrun hl hp
  have hweight : ∑ p ∈ members, s.left p ≤ ∑ p ∈ members, w p := Finset.sum_le_sum hs.high
  omega

/-- The unit after which everything is spent charges the last unit there was. -/
theorem Step.refill_spent (h : Step members w s (q, true) t) (hs : Within members w s) (hp : p ∈ members) :
    s.left p = if p = q then 1 else 0 := by
  cases h with
  | refill _ mem pos spent left =>
    have hle := spent p hp
    have hlow := hs.low p hp
    rw [Clock.charged] at hle
    split at hle
    · next h =>
      have hpos := hs.positive
      rw [← h] at hpos
      rw [if_pos h]
      omega
    · next h =>
      rw [if_neg h]
      omega

/-- **Proportional share.** From one refill to the next every member is charged with its weight,
and the round takes the sum of the weights. -/
theorem count_eq_weight (hs : Within members w s) (hl : ∀ c ∈ l₂, c.2 = false)
    (hrun : Run (Step members w) s (l₁ ++ (p, true) :: (l₂ ++ (q, true) :: l₃)) t) :
    (∀ r ∈ members, (count r (l₂ ++ [(q, true)]) : ℤ) = w r) ∧
      ((l₂.length + 1 : ℕ) : ℤ) = ∑ r ∈ members, w r := by
  obtain ⟨u, hrun₁, hrun⟩ := Run.of_append hrun
  cases hrun with
  | @cons _ v _ _ _ first hrun =>
    have hu := run_within hrun₁ hs
    have hv := first.within hu
    obtain ⟨x, hrun₂, hrun⟩ := Run.of_append hrun
    cases hrun with
    | @cons _ y _ _ _ last _ =>
      -- the refill gives every member its weight, and at the next one nothing is left
      have hfull : ∀ r ∈ members, v.left r = w r := by
        intro r hr
        cases first with
        | refill _ mem pos spent left => exact left r hr
      have hcount : ∀ r ∈ members, (count r (l₂ ++ [(q, true)]) : ℤ) = w r := by
        intro r hr
        have hspent := last.refill_spent (run_within hrun₂ hv) hr
        have hsum := left_add_count hrun₂ hl hr
        rw [hspent, hfull r hr] at hsum
        rw [count_append, count_cons, count_nil, ← hsum]
        push_cast
        ring
      refine ⟨hcount, ?_⟩
      have hmem : ∀ c ∈ l₂ ++ [(q, true)], c.1 ∈ members := by
        refine List.forall_mem_append.mpr ⟨run_mem hrun₂ hv, fun c hc => ?_⟩
        rw [List.mem_singleton.mp hc, last.label]
        exact (run_within hrun₂ hv).running
      have hlen := sum_count hmem
      rw [List.length_append, List.length_singleton] at hlen
      rw [← hlen, Nat.cast_sum]
      exact Finset.sum_congr rfl hcount

end Share
