/-!
# Programs that call a server

A program that calls is a tree: it is done, it gives up, or it asks the server something and goes on
with the answer. The server is a parameter of the run. As a function of its state it gives one run;
as a relation it may allow several answers, and `Safe` says that the program never leaves what the
server promises, whichever it gives. A server that does on its own states what another one allows on
theirs can take its place under every program that is safe with it (`run_refines`).
-/

/-- A program that asks `Q`, is answered in `A`, and ends with an `α` or gives up with an `ε`. -/
inductive Calls (Q A ε α : Type) where
  | done (a : α)
  | fail (e : ε)
  | call (q : Q) (next : A → Calls Q A ε α)

namespace Calls

variable {Q A Q' A' ε α β σ τ ρ : Type}

protected def bind : Calls Q A ε α → (α → Calls Q A ε β) → Calls Q A ε β
  | done a, f => f a
  | fail e, _ => fail e
  | call q next, f => call q fun a => (next a).bind f

instance : Monad (Calls Q A ε) where
  pure := done
  bind := Calls.bind

/-- One call. -/
def ask (q : Q) : Calls Q A ε A := call q done

/-- The run with a server that is a function of its state. -/
def run (serve : Q → σ → Except ε (A × σ)) : Calls Q A ε α → σ → Except ε (α × σ)
  | done a, s => .ok (a, s)
  | fail e, _ => .error e
  | call q next, s =>
    match serve q s with
    | .error e => .error e
    | .ok (a, s) => (next a).run serve s

/-- Each call is answered by a program that calls another server; it keeps a state `ρ`. -/
def through (h : Q → ρ → Calls Q' A' ε (A × ρ)) : Calls Q A ε α → ρ → Calls Q' A' ε (α × ρ)
  | done a, r => done (a, r)
  | fail e, _ => fail e
  | call q next, r => h q r >>= fun x => (next x.1).through h x.2

/-- What the server is after `n` calls, or after the last one. -/
def after (serve : Q → σ → Except ε (A × σ)) : Nat → Calls Q A ε α → σ → σ
  | 0, _, s => s
  | n + 1, call q next, s =>
    match serve q s with
    | .error _ => s
    | .ok (a, s) => after serve n (next a) s
  | _ + 1, _, s => s

/-- The run with a server that is a relation: the program may end with `a`. -/
inductive Ends (step : τ → Q → A → τ → Prop) : Calls Q A ε α → τ → α → τ → Prop where
  | done (a : α) (t : τ) : Ends step (done a) t a t
  | call {q : Q} {next : A → Calls Q A ε α} {a : A} {b : α} {t t₁ t' : τ} (first : step t q a t₁)
      (rest : Ends step (next a) t₁ b t') : Ends step (call q next) t b t'

/-- The program does not give up, and asks only what `P` allows. -/
def Safe (step : τ → Q → A → τ → Prop) (P : τ → Q → Prop) : Calls Q A ε α → τ → Prop
  | done _, _ => True
  | fail _, _ => False
  | call q next, t => P t q ∧ ∀ a t', step t q a t' → (next a).Safe step P t'

/-- A server that is a function, as a relation. -/
def Answers (serve : Q → σ → Except ε (A × σ)) (s : σ) (q : Q) (a : A) (s' : σ) : Prop :=
  serve q s = .ok (a, s')

variable {serve : Q → σ → Except ε (A × σ)} {serve' : Q → τ → Except ε (A × τ)}
  {step : τ → Q → A → τ → Prop} {P P' : τ → Q → Prop} {J : σ → Q → Prop} {R : σ → τ → Prop}
  {x c : Calls Q A ε α} {f : α → Calls Q A ε β} {q : Q} {a : α} {b : β} {n : Nat} {s s' s₁ : σ}
  {t t' : τ}

/-! ## Runs of a sequence

Programs in sequence pass the state of the server on. Where the requests are answered by a program
itself, in calls of another server, the two runs become one. -/

@[simp] theorem run_pure : (pure a : Calls Q A ε α).run serve s = .ok (a, s) := rfl

/-- A last step that does nothing. -/
theorem bind_pure : x >>= pure = x := by
  induction x with
  | done a => rfl
  | fail e => rfl
  | call q next ih => exact congrArg (call q) (funext ih)

/-- One request. -/
theorem run_ask : (ask q).run serve s = serve q s := by
  unfold ask run
  cases serve q s with
  | error e => rfl
  | ok r => rfl

/-- One program after the other. -/
theorem run_bind :
    (x >>= f).run serve s = x.run serve s >>= fun r => (f r.1).run serve r.2 := by
  induction x generalizing s with
  | done a => rfl
  | fail e => rfl
  | call q next ih =>
    change (call q fun a => next a >>= f).run serve s = _
    rw [run, run]
    cases serve q s with
    | error e => rfl
    | ok r => exact ih r.1

theorem run_bind_of_ok (h : x.run serve s = .ok (a, s')) :
    (x >>= f).run serve s = (f a).run serve s' := by
  rw [run_bind, h]
  rfl

/-- A run that ends is one of the runs that the relation allows, and the only one. -/
theorem ends_iff : Ends (Answers serve) c s a s' ↔ c.run serve s = .ok (a, s') := by
  induction c generalizing s with
  | done b =>
    constructor
    · intro h
      cases h
      rfl
    · intro h
      obtain ⟨rfl, rfl⟩ := Prod.mk.inj (Except.ok.inj h)
      exact .done b s
  | fail e =>
    constructor
    · intro h
      cases h
    · intro h
      cases h
  | call q next ih =>
    rw [run]
    constructor
    · intro h
      cases h with
      | call first rest =>
        rw [show serve q s = _ from first]
        exact (ih _).mp rest
    · intro h
      -- the server answers in one way only
      cases hserve : serve q s with
      | error e =>
        rw [hserve] at h
        cases h
      | ok r =>
        rw [hserve] at h
        exact .call hserve ((ih _).mpr h)

/-- The program in the middle and the server behind it, as one server. -/
def stack (h : Q → ρ → Calls Q' A' ε (A × ρ)) (serve : Q' → σ → Except ε (A' × σ)) (q : Q)
    (s : ρ × σ) : Except ε (A × ρ × σ) :=
  ((h q s.1).run serve s.2).map fun x => (x.1.1, x.1.2, x.2)

/-- Answering by a program is running on the server's state together with the one below it. -/
theorem run_through {h : Q → ρ → Calls Q' A' ε (A × ρ)} {serve : Q' → σ → Except ε (A' × σ)}
    {r : ρ} : (c.through h r).run serve s =
      (c.run (stack h serve) (r, s)).map fun x => ((x.1, x.2.1), x.2.2) := by
  induction c generalizing r s with
  | done a => rfl
  | fail e => rfl
  | call q next ih =>
    rw [through, run_bind, run, stack]
    cases (h q r).run serve s with
    | error e => rfl
    | ok x => exact ih x.1.1

/-! ## Safe programs

A program is safe if each of its requests is permitted where it is made, whatever the answers are.
Safety is a property of the program and the relation, without any server. -/

/-- Where more is permitted, it is safe as well. -/
theorem Safe.mono (hPP : ∀ t q, P t q → P' t q) (h : c.Safe step P t) : c.Safe step P' t := by
  induction c generalizing t with
  | done a => trivial
  | fail e => exact h
  | call q next ih => exact ⟨hPP t q h.1, fun a t' ha => ih a (h.2 a t' ha)⟩

/-- The rule of sequencing. -/
theorem Safe.bind (hx : x.Safe step P t)
    (hf : ∀ a t', Ends step x t a t' → (f a).Safe step P t') : (x >>= f).Safe step P t := by
  induction x generalizing t with
  | done a => exact hf a t (.done a t)
  | fail e => exact hx
  | call q next ih =>
    refine ⟨hx.1, fun a t' ha => ?_⟩
    exact ih a (hx.2 a t' ha) fun b t'' hend => hf b t'' (.call ha hend)

/-- The same with a server that is a function: its run is the only one. -/
theorem Safe.seq (hx : x.Safe (Answers serve) J s) (hrun : x.run serve s = .ok (a, s'))
    (hf : (f a).Safe (Answers serve) J s') : (x >>= f).Safe (Answers serve) J s := by
  refine hx.bind fun a' s₁ hend => ?_
  obtain ⟨rfl, rfl⟩ := Prod.mk.inj (Except.ok.inj (hrun.symm.trans (ends_iff.mp hend)))
  exact hf

/-- **Every program that is safe with a server runs with one that takes its place.** Induction on
the program: what the second server answers, the first one allows. -/
theorem run_refines (hsim : ∀ s t q, R s t → P t q →
      ∃ a s' t', serve q s = .ok (a, s') ∧ step t q a t' ∧ R s' t')
    (hsafe : c.Safe step P t) (hR : R s t) :
    ∃ a s' t', c.run serve s = .ok (a, s') ∧ Ends step c t a t' ∧ R s' t' := by
  induction c generalizing s t with
  | done a => exact ⟨a, s, t, rfl, .done a t, hR⟩
  | fail e => exact hsafe.elim
  | call q next ih =>
    obtain ⟨a, s₁, t₁, hserve, hstep, hR₁⟩ := hsim s t q hR hsafe.1
    obtain ⟨b, s', t', hrun, hend, hR'⟩ := ih a (hsafe.2 a t₁ hstep) hR₁
    refine ⟨b, s', t', ?_, .call hstep hend, hR'⟩
    rw [run, hserve]
    exact hrun

/-- So it does after every number of calls, when the second server is a function as well. -/
theorem after_refines (hsim : ∀ s t q, R s t → P t q →
      ∃ a s' t', serve q s = .ok (a, s') ∧ Answers serve' t q a t' ∧ R s' t')
    (hsafe : c.Safe (Answers serve') P t) (hR : R s t) :
    R (after serve n c s) (after serve' n c t) := by
  induction n generalizing c s t with
  | zero => exact hR
  | succ n ih =>
    cases c with
    | done a => exact hR
    | fail e => exact hR
    | call q next =>
      obtain ⟨a, s₁, t₁, hserve, hstep, hR₁⟩ := hsim s t q hR hsafe.1
      rw [after, after, hserve, show serve' q t = _ from hstep]
      exact ih (hsafe.2 a t₁ hstep) hR₁

/-! ## Programs that are stopped

A program may be stopped between two requests, or in the middle of one. `Leads` has the states in
which that leaves the server. -/

/-- With a server that is a relation, the program may come to `c'`. -/
inductive Leads (step : τ → Q → A → τ → Prop) : Calls Q A ε α → τ → Calls Q A ε α → τ → Prop where
  | refl (c : Calls Q A ε α) (t : τ) : Leads step c t c t
  | call {q : Q} {next : A → Calls Q A ε α} {a : A} {c' : Calls Q A ε α} {t t₁ t' : τ}
      (first : step t q a t₁) (rest : Leads step (next a) t₁ c' t') : Leads step (call q next) t c' t'

/-- A sequence that is stopped is stopped in its first part or in its second. -/
theorem after_bind (hrun : x.run serve s = .ok (a, s')) :
    after serve n (x >>= f) s = after serve n x s ∨
      ∃ m, after serve n (x >>= f) s = after serve m (f a) s' := by
  induction x generalizing n s with
  | done b =>
    obtain ⟨rfl, rfl⟩ := Prod.mk.inj (Except.ok.inj hrun)
    exact Or.inr ⟨n, rfl⟩
  | fail e => cases hrun
  | call q next ih =>
    -- the program may be stopped before its first request is answered
    cases n with
    | zero => exact Or.inl rfl
    | succ n =>
      rw [run] at hrun
      cases hserve : serve q s with
      | error e =>
        rw [hserve] at hrun
        cases hrun
      | ok r =>
        rw [hserve] at hrun
        have hfirst : ∀ next' : A → Calls Q A ε β,
            after serve (n + 1) (call q next') s = after serve n (next' r.1) r.2 := by
          intro next'
          rw [after, hserve]
        rw [show call q next >>= f = call q fun a => next a >>= f from rfl, hfirst, after, hserve]
        exact ih r.1 hrun

/-- **A program over another one, stopped.** It has come to some point, and the program in the middle
to some call of its answer to the next request. -/
theorem after_through {h : Q → ρ → Calls Q' A' ε (A × ρ)} {serve : Q' → σ → Except ε (A' × σ)}
    {R : ρ × σ → τ → Prop} (hsim : ∀ s t q, R s t → P t q →
      ∃ a s' t', stack h serve q s = .ok (a, s') ∧ step t q a t' ∧ R s' t')
    (hsafe : c.Safe step P t) {r : ρ} (hR : R (r, s) t) : ∃ c' t' r' s',
      c.Leads step t c' t' ∧ c'.Safe step P t' ∧ R (r', s') t' ∧
        (after serve n (c.through h r) s = s' ∨ ∃ q next m, c' = call q next ∧
          after serve n (c.through h r) s = after serve m (h q r') s') := by
  induction c generalizing n r s t with
  | done a =>
    refine ⟨done a, t, r, s, .refl _ t, trivial, hR, Or.inl ?_⟩
    cases n <;> rfl
  | fail e => exact hsafe.elim
  | call q next ih =>
    obtain ⟨a, ⟨r₁, s₁⟩, t₁, hstack, hstep, hR₁⟩ := hsim (r, s) t q hR hsafe.1
    have hrun : (h q r).run serve s = .ok ((a, r₁), s₁) := by
      unfold stack at hstack
      cases hh : (h q r).run serve s with
      | error e =>
        rw [hh] at hstack
        cases hstack
      | ok y =>
        rw [hh] at hstack
        obtain ⟨rfl, hpair⟩ := Prod.mk.inj (Except.ok.inj hstack)
        obtain ⟨rfl, rfl⟩ := Prod.mk.inj hpair
        rfl
    rw [through]
    -- stopped while one request is answered, or behind it
    rcases after_bind (n := n) (f := fun x => (next x.1).through h x.2) hrun with heq | ⟨m, heq⟩
    · exact ⟨_, t, r, s, .refl _ t, hsafe, hR, Or.inr ⟨q, next, n, rfl, heq⟩⟩
    · obtain ⟨c', t', r', s', hleads, hsafe', hR', hafter⟩ := ih a (n := m) (hsafe.2 a t₁ hstep) hR₁
      exact ⟨c', t', r', s', .call hstep hleads, hsafe', hR', heq ▸ hafter⟩

/-! ## Programs that end

With a server that is a function the program has one result. `Gives` carries the result and the
permission together, through sequences. -/

/-- With the server `serve` the program asks what `P` allows and ends with `a`. -/
structure Gives (serve : Q → τ → Except ε (A × τ)) (P : τ → Q → Prop) (c : Calls Q A ε α) (t : τ)
    (a : α) (t' : τ) : Prop where
  run_eq : c.run serve t = .ok (a, t')
  safe : c.Safe (Answers serve) P t

theorem Gives.pure : Gives serve' P (pure a) t a t := ⟨rfl, trivial⟩

theorem Gives.ask {r : A} (hP : P t q) (h : serve' q t = .ok (r, t')) :
    Gives serve' P (ask q) t r t' := ⟨run_ask.trans h, hP, fun _ _ _ => trivial⟩

theorem Gives.bind {t₁ : τ} (hx : Gives serve' P x t a t₁) (hf : Gives serve' P (f a) t₁ b t') :
    Gives serve' P (x >>= f) t b t' :=
  ⟨(run_bind_of_ok hx.run_eq).trans hf.run_eq, hx.safe.seq hx.run_eq hf.safe⟩

/-- Where more is permitted, it gives the same. -/
theorem Gives.mono (hPP : ∀ t q, P t q → P' t q) (h : Gives serve' P c t a t') :
    Gives serve' P' c t a t' := ⟨h.run_eq, h.safe.mono hPP⟩

/-- What holds of the server whenever it is asked, and at the end, holds after every number of
calls. -/
theorem Gives.after {I : τ → Prop} (h : Gives serve' (fun t _ => I t) c t a t') (hend : I t') :
    I (after serve' n c t) := by
  induction n generalizing c t with
  | zero =>
    cases c with
    | done b =>
      obtain ⟨-, rfl⟩ := Prod.mk.inj (Except.ok.inj h.run_eq)
      exact hend
    | fail e => exact h.safe.elim
    | call q next => exact h.safe.1
  | succ n ih =>
    cases c with
    | done b =>
      obtain ⟨-, rfl⟩ := Prod.mk.inj (Except.ok.inj h.run_eq)
      exact hend
    | fail e => exact h.safe.elim
    | call q next =>
      have hrun := h.run_eq
      rw [run] at hrun
      rw [Calls.after]
      -- a request that is not answered leaves the server as it was
      cases hserve : serve' q t with
      | error e => exact h.safe.1
      | ok r =>
        rw [hserve] at hrun
        exact ih ⟨hrun, h.safe.2 r.1 r.2 hserve⟩

/-- With a server that takes the place of `serve'` the program ends with the same. -/
theorem Gives.refines (hsim : ∀ s t q, R s t → P t q →
      ∃ a s' t', serve q s = .ok (a, s') ∧ Answers serve' t q a t' ∧ R s' t')
    (h : Gives serve' P c t a t') (hR : R s t) :
    ∃ s', c.run serve s = .ok (a, s') ∧ R s' t' := by
  obtain ⟨b, s', t'', hrun, hend, hR'⟩ := run_refines hsim h.safe hR
  obtain ⟨rfl, rfl⟩ := Prod.mk.inj (Except.ok.inj (h.run_eq.symm.trans (ends_iff.mp hend)))
  exact ⟨s', hrun, hR'⟩

end Calls
