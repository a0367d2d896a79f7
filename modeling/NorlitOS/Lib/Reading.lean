/-!
# Programs that read a memory

A program that only reads is a tree: it is done, or it reads a place and goes on with the value found
there. The memory is a parameter of the run, and a place that the memory does not have ends it. Which
places a run looks at is part of its outcome, so that two memories that agree on these places give
the same run.
-/

/-- A program that reads values of `V` at places in `A`, and gives an `α`. -/
inductive Reading (A V α : Type) where
  | done (a : α)
  | read (place : A) (next : V → Reading A V α)

namespace Reading

variable {A V α β : Type}

protected def bind : Reading A V α → (α → Reading A V β) → Reading A V β
  | done a, f => f a
  | read place next, f => read place fun v => (next v).bind f

instance : Monad (Reading A V) where
  pure := done
  bind := Reading.bind

/-- The value at a place. -/
def get (place : A) : Reading A V V := read place done

/-- What the program gives, if every place it looks at is there. -/
def eval (load : A → Option V) : Reading A V α → Option α
  | done a => some a
  | read place next => (load place).bind fun v => (next v).eval load

/-- The places the program looks at, the missing one included. -/
def reads (load : A → Option V) : Reading A V α → List A
  | done _ => []
  | read place next => place :: ((load place).map fun v => (next v).reads load).getD []

variable {load load' : A → Option V} {x : Reading A V α} {f : α → Reading A V β} {a : α} {b : β}
  {place : A} {v : V} {P : A → Prop}

/-! ## Runs of a sequence

The value of a sequence, and the places it looks at, are those of its parts in order. -/

@[simp] theorem eval_pure : (pure a : Reading A V α).eval load = some a := rfl

@[simp] theorem reads_pure : (pure a : Reading A V α).reads load = [] := rfl

@[simp] theorem eval_get : (get place).eval load = load place := by
  unfold get eval
  cases load place <;> rfl

@[simp] theorem reads_get : (get place).reads load = [place] := by
  unfold get reads
  cases load place <;> rfl

/-- One program after the other. -/
theorem eval_bind : (x >>= f).eval load = (x.eval load).bind fun a => (f a).eval load := by
  induction x with
  | done a => rfl
  | read place next ih =>
    show (load place).bind (fun v => ((next v).bind f).eval load) =
      ((load place).bind fun v => (next v).eval load).bind _
    cases load place with
    | none => rfl
    | some v => exact ih v

/-- The places of the second program come behind those of the first. -/
theorem reads_bind : (x >>= f).reads load =
    x.reads load ++ ((x.eval load).map fun a => (f a).reads load).getD [] := by
  induction x with
  | done a => rfl
  | read place next ih =>
    show place :: ((load place).map fun v => ((next v).bind f).reads load).getD [] =
      place :: (((load place).map fun v => (next v).reads load).getD [] ++
        (((load place).bind fun v => (next v).eval load).map _).getD [])
    cases load place with
    | none => rfl
    | some v => exact congrArg (place :: ·) (ih v)

theorem eval_bind_of_eq (h : x.eval load = some a) : (x >>= f).eval load = (f a).eval load := by
  rw [eval_bind, h]
  rfl

theorem reads_bind_of_eq (h : x.eval load = some a) :
    (x >>= f).reads load = x.reads load ++ (f a).reads load := by
  rw [reads_bind, h]
  rfl

/-! ## What a run depends on

Two memories that agree on the places a run looks at give the same run. -/

/-- A run depends on the places it looks at. -/
theorem eval_congr (h : ∀ place ∈ x.reads load, load' place = load place) :
    x.eval load' = x.eval load ∧ x.reads load' = x.reads load := by
  induction x with
  | done a => exact ⟨rfl, rfl⟩
  | read place next ih =>
    -- the first place decides how the run goes on
    have hplace : load' place = load place := h place List.mem_cons_self
    unfold eval reads
    rw [hplace]
    cases hv : load place with
    | none => exact ⟨rfl, rfl⟩
    | some v =>
      have hnext := ih v fun p hp => h p (by
        unfold reads
        rw [hv]
        exact List.mem_cons_of_mem _ hp)
      exact ⟨hnext.1, congrArg (place :: ·) hnext.2⟩

/-- What holds of all places of a run can be told from a run that meets it, in another memory that is
the same wherever it holds. -/
theorem forall_reads_iff (h : ∀ place, P place → load place = load' place) :
    (∀ place ∈ x.reads load, P place) ↔ ∀ place ∈ x.reads load', P place := by
  constructor
  · intro hall
    -- the run that meets `P` is the same in both
    rw [(eval_congr fun p hp => (h p (hall p hp)).symm).2]
    exact hall
  · intro hall
    rw [(eval_congr fun p hp => h p (hall p hp)).2]
    exact hall

/-! ## What a run gives

`Gives` carries the value together with a bound on the places, through sequences. -/

/-- The run gives `a`, and looks at places with `P` only. -/
structure Gives (load : A → Option V) (P : A → Prop) (x : Reading A V α) (a : α) : Prop where
  eval_eq : x.eval load = some a
  places : ∀ place ∈ x.reads load, P place

theorem Gives.pure : Gives load P (pure a) a := ⟨rfl, nofun⟩

theorem Gives.get (hplace : P place) (hv : load place = some v) : Gives load P (get place) v := by
  refine ⟨eval_get.trans hv, fun p hp => ?_⟩
  rw [reads_get, List.mem_singleton] at hp
  rwa [hp]

/-- The rule of sequencing. -/
theorem Gives.bind (hx : Gives load P x a) (hf : Gives load P (f a) b) :
    Gives load P (x >>= f) b := by
  refine ⟨(eval_bind_of_eq hx.eval_eq).trans hf.eval_eq, fun p hp => ?_⟩
  rw [reads_bind_of_eq hx.eval_eq] at hp
  exact (List.mem_append.mp hp).elim (hx.places p) (hf.places p)

end Reading
