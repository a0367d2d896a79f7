import Mathlib.Data.List.Basic

/-!
# Runs of a labelled transition relation

A run is a sequence of labelled steps. What every step preserves, every run preserves.
-/

/-- `Run step s es t`: the steps labelled `es` lead from `s` to `t`. -/
inductive Run {σ ε : Type} (step : σ → ε → σ → Prop) : σ → List ε → σ → Prop where
  | nil (s : σ) : Run step s [] s
  | cons {s t u : σ} {e : ε} {es : List ε} (first : step s e t) (rest : Run step t es u) :
      Run step s (e :: es) u

namespace Run

variable {σ ε : Type} {step step' : σ → ε → σ → Prop} {s t u : σ} {es es' : List ε}

/-- A property that every step preserves holds at the end of a run if it holds at its start. -/
theorem invariant {I : σ → Prop} (hstep : ∀ s e t, I s → step s e t → I t)
    (hrun : Run step s es t) (hs : I s) : I t := by
  induction hrun with
  | nil => exact hs
  | cons first _ ih => exact ih (hstep _ _ _ hs first)

theorem single {e : ε} (h : step s e t) : Run step s [e] t := .cons h (.nil t)

theorem append (h₁ : Run step s es t) (h₂ : Run step t es' u) : Run step s (es ++ es') u := by
  induction h₁ with
  | nil => exact h₂
  | cons first _ ih => exact .cons first (ih h₂)

theorem of_append (h : Run step s (es ++ es') u) : ∃ t, Run step s es t ∧ Run step t es' u := by
  induction es generalizing s with
  | nil => exact ⟨s, .nil s, h⟩
  | cons e es ih =>
    cases h with
    | cons first rest =>
      obtain ⟨t, hes, hes'⟩ := ih rest
      exact ⟨t, .cons first hes, hes'⟩

/-- Runs of a relation are runs of a larger one. -/
theorem mono (h : ∀ s e t, step s e t → step' s e t) (hrun : Run step s es t) :
    Run step' s es t := by
  induction hrun with
  | nil s => exact .nil s
  | cons first _ ih => exact .cons (h _ _ _ first) ih

/-- What holds of every label may be asked of every step. -/
theorem restrict {P : ε → Prop} (h : ∀ e ∈ es, P e) (hrun : Run step s es t) :
    Run (fun s e t => P e ∧ step s e t) s es t := by
  induction hrun with
  | nil s => exact .nil s
  | cons first _ ih =>
    obtain ⟨he, hes⟩ := List.forall_mem_cons.mp h
    exact .cons ⟨he, first⟩ (ih hes)

/-- The run of a step function along its labels. -/
def follow (f : σ → ε → Option σ) : σ → List ε → Option σ
  | s, [] => some s
  | s, e :: es => (f s e).bind fun t => follow f t es

theorem of_follow {f : σ → ε → Option σ} (hf : ∀ s e t, f s e = some t → step s e t)
    (h : follow f s es = some t) : Run step s es t := by
  induction es generalizing s with
  | nil =>
    cases h
    exact .nil _
  | cons e es ih =>
    obtain ⟨u, hu, hrest⟩ := Option.bind_eq_some_iff.mp h
    exact .cons (hf s e u hu) (ih hrest)

end Run

/-- What the steps of a run give, in order: `next` is the state after an event. -/
def total {σ ε α : Type} (next : σ → ε → Option σ) (give : σ → ε → σ → List α) :
    σ → List ε → List α
  | _, [] => []
  | s, e :: es =>
    match next s e with
    | some t => give s e t ++ total next give t es
    | none => []

section Conservation

variable {σ ε α : Type} {next : σ → ε → Option σ} {step : σ → ε → σ → Prop} {s t : σ} {e : ε}
  {es : List ε} {give : σ → ε → σ → List α}

theorem total_cons (h : next s e = some t) :
    total next give s (e :: es) = give s e t ++ total next give t es := by
  rw [total, h]

theorem map_total {β : Type} (f : α → β) :
    (total next give s es).map f = total next (fun s e t => (give s e t).map f) s es := by
  induction es generalizing s with
  | nil => rfl
  | cons e es ih =>
    rw [total, total]
    cases next s e with
    | none => rfl
    | some t => rw [List.map_append, ih]

/-- **Conservation.** If every step gives out what was there and what it takes in, oldest first,
so does every run. -/
theorem Run.conserve {I : σ → Prop} {q : σ → List α} {inn out : σ → ε → σ → List α}
    (hnext : ∀ s e t, step s e t → next s e = some t)
    (hstep : ∀ s e t, I s → step s e t → I t)
    (hlaw : ∀ s e t, I s → step s e t → q s ++ inn s e t = out s e t ++ q t)
    (hrun : Run step s es t) (hs : I s) :
    q s ++ total next inn s es = total next out s es ++ q t := by
  induction hrun with
  | nil s => simp [total]
  | @cons s t u e es first _ ih =>
    have hrest := ih (hstep _ _ _ hs first)
    rw [total_cons (hnext _ _ _ first), total_cons (hnext _ _ _ first)]
    -- the law of the first step, and that of the rest of the run
    calc q s ++ (inn s e t ++ total next inn t es)
        = (q s ++ inn s e t) ++ total next inn t es := (List.append_assoc _ _ _).symm
      _ = (out s e t ++ q t) ++ total next inn t es := by rw [hlaw _ _ _ hs first]
      _ = out s e t ++ (q t ++ total next inn t es) := List.append_assoc _ _ _
      _ = out s e t ++ total next out t es ++ q u := by rw [hrest, List.append_assoc]

/-- What every step gives of a kind, the run gives of that kind. -/
theorem Run.forall_total {I : σ → Prop} {P : α → Prop}
    (hnext : ∀ s e t, step s e t → next s e = some t) (hstep : ∀ s e t, I s → step s e t → I t)
    (hP : ∀ s e t, I s → step s e t → ∀ a ∈ give s e t, P a) (hrun : Run step s es t) (hs : I s) :
    ∀ a ∈ total next give s es, P a := by
  induction hrun with
  | nil s => exact fun a ha => absurd ha List.not_mem_nil
  | cons first _ ih =>
    intro a ha
    rw [total_cons (hnext _ _ _ first)] at ha
    rcases List.mem_append.mp ha with ha | ha
    · exact hP _ _ _ hs first a ha
    · exact ih (hstep _ _ _ hs first) a ha

/-- The run gives only what is of a kind exactly if each of its steps is one that does. -/
theorem Run.forall_total_iff {I : σ → Prop} {P : α → Prop} {good : σ → ε → Prop}
    (hnext : ∀ s e t, step s e t → next s e = some t) (hstep : ∀ s e t, I s → step s e t → I t)
    (hP : ∀ s e t, I s → step s e t → ((∀ a ∈ give s e t, P a) ↔ good s e))
    (hrun : Run step s es t) (hs : I s) :
    (∀ a ∈ total next give s es, P a) ↔ Run (fun s e t => good s e ∧ step s e t) s es t := by
  constructor
  · intro h
    induction hrun with
    | nil s => exact .nil s
    | cons first _ ih =>
      rw [total_cons (hnext _ _ _ first)] at h
      obtain ⟨hhead, htail⟩ := List.forall_mem_append.mp h
      exact .cons ⟨(hP _ _ _ hs first).mp hhead, first⟩ (ih (hstep _ _ _ hs first) htail)
  · intro h
    exact h.forall_total (I := I) (fun s e t he => hnext s e t he.2)
      (fun s e t hi he => hstep s e t hi he.2) (fun s e t hi he => (hP s e t hi he.2).mpr he.1) hs

end Conservation
