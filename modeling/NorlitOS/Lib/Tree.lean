import NorlitOS.Lib.Run
import Mathlib.Data.List.Induction

/-!
# Rooted trees with labelled edges

An edge relation is *rooted* at a node when no edge enters the root and every other node is entered
by one edge at most. A path from the root is a run of the relation; its labels are then determined
by the node it ends in. Where a label leads to one node at most, the labels determine the node.
-/

/-- No edge enters the root, and one edge at most enters any other node. -/
structure Rooted {σ ε : Type} (edge : σ → ε → σ → Prop) (root : σ) : Prop where
  top : ∀ s e, ¬ edge s e root
  parent : ∀ {s e s' e' t}, edge s e t → edge s' e' t → s = s' ∧ e = e'

variable {σ ε : Type} {edge edge' : σ → ε → σ → Prop} {root s t u : σ} {e : ε} {es es' : List ε}

namespace Run

/-- The last edge of a path. -/
theorem of_concat (h : Run edge s (es ++ [e]) u) : ∃ t, Run edge s es t ∧ edge t e u := by
  obtain ⟨t, hes, hlast⟩ := of_append h
  cases hlast with
  | cons first rest =>
    cases rest with
    | nil => exact ⟨t, hes, first⟩

/-- The labels determine the end. -/
theorem end_unique (hdet : ∀ {s e t t'}, edge s e t → edge s e t' → t = t')
    (h : Run edge s es t) (h' : Run edge s es u) : t = u := by
  induction h with
  | nil s =>
    cases h' with
    | nil => rfl
  | cons first _ ih =>
    cases h' with
    | cons first' rest' =>
      obtain rfl := hdet first first'
      exact ih rest'

end Run

/-- **The end determines the labels.** Induction on the last edge. -/
theorem Rooted.labels_unique (hR : Rooted edge root) (h : Run edge root es t)
    (h' : Run edge root es' t) : es = es' := by
  induction es using List.reverseRecOn generalizing es' t with
  | nil =>
    cases h with
    | nil =>
      cases es' using List.reverseRecOn with
      | nil => rfl
      | append_singleton es' e' =>
        obtain ⟨u, -, hlast⟩ := h'.of_concat
        exact absurd hlast (hR.top u e')
  | append_singleton es e ih =>
    obtain ⟨u, hpre, hlast⟩ := h.of_concat
    cases es' using List.reverseRecOn with
    | nil =>
      cases h' with
      | nil => exact absurd hlast (hR.top u e)
    | append_singleton es' e' =>
      obtain ⟨u', hpre', hlast'⟩ := h'.of_concat
      -- the last edge is the same, since a node has one parent
      obtain ⟨rfl, rfl⟩ := hR.parent hlast hlast'
      rw [ih hpre hpre']

/-- A new leaf, one edge from a node of the tree. -/
theorem Rooted.insert {s' t' : σ} {e' : ε} (hR : Rooted edge root) (hroot : t' ≠ root)
    (hnew : ∀ s e, ¬ edge s e t')
    (hedge : ∀ {s e t}, edge' s e t ↔ edge s e t ∨ (s = s' ∧ e = e' ∧ t = t')) :
    Rooted edge' root where
  top s e h := by
    rcases hedge.mp h with hold | ⟨-, -, heq⟩
    · exact hR.top s e hold
    · exact hroot heq.symm
  parent {s₁ e₁ s₂ e₂ t} h h' := by
    rcases hedge.mp h with hold | ⟨rfl, rfl, rfl⟩
    · rcases hedge.mp h' with hold' | ⟨-, -, rfl⟩
      · exact hR.parent hold hold'
      · exact absurd hold (hnew s₁ e₁)
    · rcases hedge.mp h' with hold' | ⟨rfl, rfl, -⟩
      · exact absurd hold' (hnew s₂ e₂)
      · exact ⟨rfl, rfl⟩

/-- A new leaf adds one path to those of every node: the one to itself. -/
theorem Run.insert_iff {s' t' : σ} {e' : ε}
    (hedge : ∀ {s e t}, edge' s e t ↔ edge s e t ∨ (s = s' ∧ e = e' ∧ t = t'))
    (hout : ∀ e t, ¬ edge' t' e t) :
    Run edge' s es t ↔ Run edge s es t ∨ (t = t' ∧ ∃ es₀, es = es₀ ++ [e'] ∧ Run edge s es₀ s') := by
  constructor
  · intro h
    induction es using List.reverseRecOn generalizing t with
    | nil =>
      cases h with
      | nil => exact Or.inl (.nil s)
    | append_singleton es e ih =>
      obtain ⟨u, hpre, hlast⟩ := h.of_concat
      -- nothing leads on from the new leaf, so the new edge is the last one
      rcases ih hpre with hold | ⟨rfl, -⟩
      · rcases hedge.mp hlast with hstep | ⟨rfl, rfl, rfl⟩
        · exact Or.inl (hold.append (.single hstep))
        · exact Or.inr ⟨rfl, es, rfl, hold⟩
      · exact absurd hlast (hout e t)
  · intro h
    have hmono : ∀ {es u}, Run edge s es u → Run edge' s es u :=
      fun hrun => hrun.mono fun _ _ _ hstep => hedge.mpr (Or.inl hstep)
    rcases h with hold | ⟨rfl, es₀, rfl, hpre⟩
    · exact hmono hold
    · exact (hmono hpre).append (.single (hedge.mpr (Or.inr ⟨rfl, rfl, rfl⟩)))
