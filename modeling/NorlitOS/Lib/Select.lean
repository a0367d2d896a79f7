import Mathlib.Data.List.Perm.Basic

/-!
# Selective reading

A reader looks for the first message of a kind. It takes messages from the front of a queue and
puts those it does not want back at its end, while others append new ones. The content is the
message in the reader's hand, if there is one, followed by the queue.
-/

namespace Select

variable {α : Type} {want : α → Bool} {all content queue : List α} {m : α}

/-- The content is made up of the messages of `all`, and those the reader wants are still in their
order. -/
structure Kept (want : α → Bool) (all content : List α) : Prop where
  perm : content.Perm all
  order : content.filter want = all.filter want

namespace Kept

theorem refl (all : List α) : Kept want all all := ⟨List.Perm.refl _, rfl⟩

/-- New messages join the queue. -/
theorem arrive (h : Kept want all content) (new : List α) :
    Kept want (all ++ new) (content ++ new) := by
  refine ⟨h.perm.append_right new, ?_⟩
  rw [List.filter_append, h.order, List.filter_append]

/-- An unwanted message goes back to the end. -/
theorem putBack (h : Kept want all (m :: queue)) (hm : want m = false) :
    Kept want all (queue ++ [m]) := by
  have hnot : ¬ want m = true := by
    rw [hm]
    exact Bool.false_ne_true
  refine ⟨(List.perm_append_singleton m queue).trans h.perm, ?_⟩
  calc (queue ++ [m]).filter want
      = queue.filter want ++ [m].filter want := List.filter_append ..
    _ = queue.filter want := by rw [List.filter_cons_of_neg hnot, List.filter_nil, List.append_nil]
    _ = (m :: queue).filter want := (List.filter_cons_of_neg hnot).symm
    _ = all.filter want := h.order

/-- With a wanted message in hand, it is the first of its kind, and the rest is in the queue. -/
theorem found [BEq α] [LawfulBEq α] (h : Kept want all (m :: queue)) (hm : want m = true) :
    all.find? want = some m ∧ queue.Perm (all.erase m) := by
  constructor
  -- the first message wanted is the head of the filtered list
  · rw [← List.head?_filter, ← h.order, List.filter_cons_of_pos hm]
    rfl
  · have hperm := h.perm.erase m
    rwa [List.erase_cons_head] at hperm

end Kept

/-! ## A queue that is only turned -/

/-- The content while nothing arrives: of the messages `pre` in front of `w`, the first `n` have been
put back behind `post`. -/
structure Turned (pre : List α) (w : α) (post : List α) (n : Nat) (content : List α) : Prop where
  le : n ≤ pre.length
  eq : content = pre.drop n ++ w :: (post ++ pre.take n)

namespace Turned

variable {pre post : List α} {w : α} {n : Nat}

theorem start (pre : List α) (w : α) (post : List α) : Turned pre w post 0 (pre ++ w :: post) := by
  refine ⟨Nat.zero_le _, ?_⟩
  rw [List.drop_zero, List.take_zero, List.append_nil]

theorem length (h : Turned pre w post n content) : content.length = pre.length + post.length + 1 := by
  have hle := h.le
  rw [h.eq, List.length_append, List.length_drop, List.length_cons, List.length_append, List.length_take]
  omega

/-- In front of `w` a message goes back to the end. -/
theorem putBack (want : α → Bool) (h : Turned pre w post n (m :: queue)) (hm : want m = false) (hw : want w = true) :
    m ∈ pre ∧ Turned pre w post (n + 1) (queue ++ [m]) := by
  -- `w` itself is wanted, so it is not the one put back
  have hlt : n < pre.length := by
    by_contra hge
    have heq := h.eq
    rw [List.drop_eq_nil_of_le (Nat.not_lt.mp hge), List.nil_append] at heq
    rw [(List.cons.inj heq).1, hw] at hm
    exact Bool.false_ne_true hm.symm
  have heq := h.eq
  rw [List.drop_eq_getElem_cons hlt, List.cons_append] at heq
  obtain ⟨rfl, rfl⟩ := List.cons.inj heq
  refine ⟨List.getElem_mem hlt, hlt, ?_⟩
  rw [List.take_succ_eq_append_getElem hlt]
  simp

/-- With a wanted message in hand, it is `w`, and all others are in the queue. -/
theorem found (want : α → Bool) (h : Turned pre w post n (m :: queue)) (hpre : ∀ x ∈ pre, want x = false)
    (hm : want m = true) : m = w ∧ queue = post ++ pre := by
  -- what is in front of `w` is not wanted
  have hge : pre.length ≤ n := by
    by_contra hlt
    have heq := h.eq
    rw [List.drop_eq_getElem_cons (Nat.not_le.mp hlt)] at heq
    rw [(List.cons.inj heq).1, hpre _ (List.getElem_mem _)] at hm
    exact Bool.false_ne_true hm
  have heq := h.eq
  rw [List.drop_eq_nil_of_le hge, List.nil_append, List.take_of_length_le hge] at heq
  exact List.cons.inj heq

end Turned

end Select
