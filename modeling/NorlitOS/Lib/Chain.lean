import Mathlib.Data.List.Basic
import Mathlib.Data.List.Nodup

/-!
# Singly linked lists threaded through a memory

A list is reached through a *slot*: a list head, or the link word of a node. `Chain` says
that the words of a memory, followed from a slot, spell out a given list and then hit the
terminator. The edits of such a list are changes of one slot: `Chain.splice` replaces the
tail behind a slot and keeps what comes before.
-/

/-- Where a link is stored: in a list head, or in the node at an address. -/
inductive Slot (ι : Type) where
  | head (i : ι)
  | link (a : Nat)
  deriving DecidableEq

namespace Slot

variable {ι : Type}

/-- The slot the walk along `l` ends in. -/
def last (s : Slot ι) : List Nat → Slot ι
  | [] => s
  | a :: l => last (.link a) l

/-- The slots the walk along `l` reads before the one it ends in. -/
def before (s : Slot ι) : List Nat → List (Slot ι)
  | [] => []
  | a :: l => s :: before (.link a) l

theorem last_eq_or_link (s : Slot ι) (l : List Nat) :
    last s l = s ∨ ∃ a ∈ l, last s l = .link a := by
  induction l generalizing s with
  | nil => exact Or.inl rfl
  | cons a l ih =>
    rcases ih (.link a) with h | ⟨b, hb, h⟩
    · exact Or.inr ⟨a, List.mem_cons_self, h⟩
    · exact Or.inr ⟨b, List.mem_cons_of_mem a hb, h⟩

theorem last_head_ne_link {i : ι} {l : List Nat} {b : Nat} (hb : b ∉ l) :
    (Slot.head i).last l ≠ .link b := by
  intro heq
  rcases last_eq_or_link (.head i) l with h | ⟨a, ha, h⟩
  · exact nomatch h.symm.trans heq
  · obtain rfl : a = b := Slot.link.inj (h.symm.trans heq)
    exact hb ha

theorem last_head_ne_head {i j : ι} {l : List Nat} (hij : i ≠ j) :
    (Slot.head i).last l ≠ .head j := by
  intro heq
  rcases last_eq_or_link (.head i) l with h | ⟨a, _, h⟩
  · exact hij (Slot.head.inj (h.symm.trans heq))
  · exact nomatch h.symm.trans heq

theorem mem_before {s t : Slot ι} {l : List Nat} (h : t ∈ before s l) :
    t = s ∨ ∃ a ∈ l, t = .link a := by
  induction l generalizing s with
  | nil => cases h
  | cons a l ih =>
    rcases List.mem_cons.mp h with rfl | h
    · exact Or.inl rfl
    · rcases ih h with rfl | ⟨b, hb, rfl⟩
      · exact Or.inr ⟨a, List.mem_cons_self, rfl⟩
      · exact Or.inr ⟨b, List.mem_cons_of_mem a hb, rfl⟩

/-- On a list without repetitions the walk does not come back to a slot. -/
theorem last_notMem_before {s : Slot ι} {l : List Nat} (hs : ∀ a ∈ l, s ≠ .link a)
    (hl : l.Nodup) : last s l ∉ before s l := by
  induction l generalizing s with
  | nil => exact List.not_mem_nil
  | cons a l ih =>
    obtain ⟨ha, hl⟩ := List.nodup_cons.mp hl
    have hne : ∀ b ∈ l, (Slot.link a : Slot ι) ≠ .link b := by
      rintro b hb ⟨⟩
      exact ha hb
    intro hmem
    rcases List.mem_cons.mp hmem with heq | hmem
    -- the walk would come back to its first slot
    · rcases last_eq_or_link (.link a : Slot ι) l with h | ⟨b, hb, h⟩
      · exact hs a List.mem_cons_self (heq.symm.trans h)
      · exact hs b (List.mem_cons_of_mem a hb) (heq.symm.trans h)
    · exact ih hne hl hmem

end Slot

variable {ι : Type}

/-- Following `load` from slot `s` visits exactly the nodes of the list, then `stop`. -/
def Chain (load : Slot ι → Nat) (stop : Nat) (s : Slot ι) : List Nat → Prop
  | [] => load s = stop
  | a :: l => load s = a ∧ a ≠ stop ∧ Chain load stop (.link a) l

namespace Chain

variable {load load' : Slot ι → Nat} {stop : Nat} {s : Slot ι} {l l₁ l₂ l₂' : List Nat}

theorem nil_iff : Chain load stop s [] ↔ load s = stop := Iff.rfl

theorem cons_iff {a : Nat} :
    Chain load stop s (a :: l) ↔ load s = a ∧ a ≠ stop ∧ Chain load stop (.link a) l := Iff.rfl

/-- The words a chain reads decide it; the first of them may have moved to another slot. -/
theorem congr {s' : Slot ι} (h : Chain load stop s l) (hs : load' s' = load s)
    (hl : ∀ a ∈ l, load' (.link a) = load (.link a)) : Chain load' stop s' l := by
  induction l generalizing s s' with
  | nil => exact hs.trans h
  | cons a l ih =>
    obtain ⟨ha, hne, h⟩ := h
    exact ⟨hs.trans ha, hne, ih h (hl a List.mem_cons_self)
      fun b hb => hl b (List.mem_cons_of_mem a hb)⟩

/-- A slot is the start of at most one chain. -/
theorem unique (h : Chain load stop s l) (h' : Chain load stop s l₂) : l = l₂ := by
  induction l generalizing s l₂ with
  | nil =>
    cases l₂ with
    | nil => rfl
    | cons b l₂ => exact absurd (h'.1.symm.trans h) h'.2.1
  | cons a l ih =>
    cases l₂ with
    | nil => exact absurd (h.1.symm.trans h') h.2.1
    | cons b l₂ =>
      -- the slot holds one word
      obtain rfl : a = b := h.1.symm.trans h'.1
      rw [ih h.2.2 h'.2.2]

/-- The tail of a chain is a chain from the slot where the prefix ends. -/
theorem suffix (h : Chain load stop s (l₁ ++ l₂)) : Chain load stop (s.last l₁) l₂ := by
  induction l₁ generalizing s with
  | nil => exact h
  | cons a l₁ ih => exact ih h.2.2

/-- **Replacing a tail.** If only slots behind the prefix `l₁` changed and a new list hangs
off the slot where `l₁` ends, the chain is `l₁` followed by the new list. -/
theorem splice (h : Chain load stop s (l₁ ++ l₂))
    (hsame : ∀ t ∈ s.before l₁, load' t = load t)
    (h' : Chain load' stop (s.last l₁) l₂') : Chain load' stop s (l₁ ++ l₂') := by
  induction l₁ generalizing s with
  | nil => exact h'
  | cons a l₁ ih =>
    obtain ⟨ha, hne, h⟩ := h
    refine ⟨(hsame s List.mem_cons_self).trans ha, hne, ih h (fun t ht => ?_) h'⟩
    exact hsame t (List.mem_cons_of_mem s ht)

end Chain
