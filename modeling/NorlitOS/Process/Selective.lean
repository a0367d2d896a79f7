import NorlitOS.Lib.Select
import NorlitOS.Process.Mailbox

/-!
# Selective receive

`receive(proc, linear)` calls `RECEIVE` until the source is `proc`, and sends every other message
back to its own process. Between the two calls interrupts and other processes may fill the queue:
then `SEND` returns 0, which `receive` does not look at, and the message is gone. A message of Init
has the source 0, which `SEND` takes for the sender's own identifier.
-/

namespace NorlitOS

open Dyadic Ledger Select

namespace Kernel

variable {k k' k₁ k₂ : Kernel} {p proc linear ip kernelPDE ret : Nat} {es es' : List Event}
  {ev : Event}

/-! ## `receive` -/

/-- The condition of the `while` loop. -/
def again (proc ret : Nat) : Prop := ret ≠ proc ∧ proc ≠ 0

instance (proc ret : Nat) : Decidable (again proc ret) :=
  inferInstanceAs (Decidable (ret ≠ proc ∧ proc ≠ 0))

/-- The runner of `p` is in `receive(proc, linear)`. Everything else is an entry of others, an
interrupt or a tick. -/
inductive Selects (p proc linear : Nat) : Kernel × Loop → Event → Kernel × Loop → Prop
  | other {k k' : Kernel} {l : Loop} {ev : Event} (foreign : Foreign p k ev)
      (enters : k.EntersIpc ev k') : Selects p proc linear (k, l) ev (k', resumed k' p l)
  | receive {k k' : Kernel} {regs : StackFrame} (running : p = k.currentProc) (ax : regs.ax = 1)
      (cx : regs.cx = linear) (enters : k.EntersIpc (.systemCall regs) k') :
      Selects p proc linear (k, .start) (.systemCall regs) (k', resumed k' p .receiving)
  | repost {k k' : Kernel} {ret : Nat} {regs : StackFrame} (running : p = k.currentProc)
      (unwanted : again proc ret) (ax : regs.ax = 0) (dx : regs.dx = (k.proc p).pid)
      (cx : regs.cx = linear) (bx : regs.bx = ret) (enters : k.EntersIpc (.systemCall regs) k') :
      Selects p proc linear (k, .got ret) (.systemCall regs) (k', .start)

/-- A message that is put back has a source, and the queue has room for it. -/
def Repostable (p : Nat) (s : Kernel × Loop) (ev : Event) : Prop :=
  match s.2 with
  | .got ret => Foreign p s.1 ev ∨ (ret ≠ 0 ∧ s.1.HasRoom p)
  | _ => True

/-- A step of `receive` in which the message that is put back can be put back. -/
def SelectsSafely (p proc linear : Nat) (s : Kernel × Loop) (ev : Event) (s' : Kernel × Loop) : Prop :=
  Repostable p s ev ∧ Selects p proc linear s ev s'

/-- The letters others have posted to `p`. -/
def posted (p : Nat) (k : Kernel) (ev : Event) (k' : Kernel) : List (Nat × Nat) :=
  if Foreign p k ev then arrived p k ev k' else []

def postedIn (p : Nat) (k : Kernel) (es : List Event) : List (Nat × Nat) :=
  total next (posted p) k es

/-! ## Steps -/

/-- What the reader has to do with the messages for it. -/
def Collects (proc : Nat) (all : List (Nat × Nat)) (p linear : Nat) (s : Kernel × Loop) : Prop :=
  Kept (fun m => m.1 = proc) all (content s.1 p linear s.2)

/-- **One step of `receive`** that puts back what it can put back. -/
theorem SelectsSafely.step {s s' : Kernel × Loop} {all : List (Nat × Nat)}
    (hs : SelectsSafely p proc linear s ev s') (hr : Reader p linear s)
    (hc : Collects proc all p linear s) : Reader p linear s' ∧
      Collects proc (all ++ posted p s.1 ev s'.1) p linear s' := by
  obtain ⟨hsafe, hs⟩ := hs
  obtain ⟨pool, h⟩ := hr.inv
  cases hs with
  | @other k k' l ev hev henter =>
    obtain ⟨hat, hlaw⟩ := henter.content_foreign hev h hr.mortal.mem hr.phase hr.user hr.aligned
    refine ⟨hr.next henter hat, ?_⟩
    unfold Collects
    rw [posted, if_pos hev, hlaw]
    exact Kept.arrive hc _
  | @receive k k' regs hrun hax hcx henter =>
    subst hrun
    have hown : posted k.currentProc k (.systemCall regs) k' = [] := if_neg fun hne => hne rfl
    obtain ⟨hat, hlaw⟩ := henter.content_receive h hax hcx hr.phase hr.user hr.aligned
    refine ⟨hr.next henter hat, ?_⟩
    unfold Collects
    rw [hown, List.append_nil, hlaw]
    exact hc
  | @repost k k' ret regs hrun hunwanted hax hdx hcx hbx henter =>
    have hphase : ¬ k.Waits p ∧ k.Holds p linear := hr.phase
    subst hrun
    obtain ⟨hret, hroom⟩ := hsafe.resolve_left fun hne => hne rfl
    have hown : posted k.currentProc k (.systemCall regs) k' = [] := if_neg fun hne => hne rfl
    -- the call posts to its own process, under the number it reads there
    have hfound : k.getProcessById regs.dx = some k.currentProc := by
      rw [hdx]
      exact hr.ascending.getProcessById hr.mortal
    have hh : k.Holds k.currentProc regs.cx := hcx ▸ hphase.2
    obtain ⟨hpost, hmail⟩ := henter.repost h hax hfound hroom hh
    have hsource : k.sendSource regs.bx = ret := by
      rw [hbx]
      exact if_neg hret
    rw [hsource, hcx] at hmail
    rw [hown, List.append_nil]
    refine ⟨hr.next henter ⟨?_, (hcx ▸ hpost.holds).normal⟩, ?_⟩
    · unfold Waits
      rw [hpost.runner, hpost.flag]
      decide
    · show Kept _ all (k'.mail k.currentProc)
      rw [hmail]
      exact Kept.putBack hc (decide_eq_false hunwanted.1)

/-! ## Runs -/

theorem Selects.enters {s s' : Kernel × Loop} (hs : Selects p proc linear s ev s') :
    s.1.EntersIpc ev s'.1 := by
  cases hs with
  | other _ henter => exact henter
  | receive _ _ _ henter => exact henter
  | repost _ _ _ _ _ _ henter => exact henter

/-- **The law of a run of `receive`**, by induction on its entries. -/
theorem run_collects {s s' : Kernel × Loop} {all : List (Nat × Nat)}
    (hrun : Run (SelectsSafely p proc linear) s es s') (hr : Reader p linear s)
    (hc : Collects proc all p linear s) :
    Collects proc (all ++ postedIn p s.1 es) p linear s' := by
  induction hrun generalizing all with
  | nil s =>
    rw [postedIn, total, List.append_nil]
    exact hc
  | cons first _ ih =>
    obtain ⟨hr', hc'⟩ := first.step hr hc
    have hrest := ih hr' hc'
    rw [postedIn, total_cons first.2.enters.next, ← List.append_assoc]
    exact hrest

/-- **Selective receive.** A process other than Init calls `receive` at a valid address in a state
that careful entries reach. When `receive` returns, and it has only put back messages with a source
into a queue with room, it returns with the first message of `proc`, and all others that were queued
or have been posted are queued. -/
theorem run_receive (hB : k.Boot kernelPDE) (hinit : k.initProc kernelPDE ip = .ok k₁)
    (hreach : Run EntersCarefully k₁ es k') (hmortal : k'.Mortal k'.currentProc)
    (hproc : proc ≠ 0) (hv : k'.Receivable linear)
    (hrun : Run (SelectsSafely k'.currentProc proc linear) (k', .start) es' (k₂, .got ret))
    (hdone : ¬ again proc ret) :
    let all := k'.mail k'.currentProc ++ postedIn k'.currentProc k' es'
    let got := (ret, frameAt (k₂.entryAt k'.currentProc linear))
    ret = proc ∧ all.find? (fun m => m.1 = proc) = some got ∧
      (k₂.mail k'.currentProc).Perm (all.erase got) := by
  obtain ⟨pool, -, h⟩ := hB.run_inv hinit hreach
  have hret : ret = proc := by
    by_contra hne
    exact hdone ⟨hne, hproc⟩
  have hnot : ¬ k'.Waits k'.currentProc := fun hw => h.away h.threads.running hw rfl
  have hreader : Reader k'.currentProc linear (k', .start) :=
    ⟨⟨pool, h⟩, (hB.run_numbered hinit hreach).ascending, hmortal, hv.user, hv.aligned,
      hnot, hv.recyclable⟩
  have hc := run_collects hrun hreader (Kept.refl _)
  exact ⟨hret, hc.found (decide_eq_true hret)⟩


/-! ## Two runs of `receive` -/

instance (p : Nat) (s : Kernel × Loop) (ev : Event) : Decidable (Repostable p s ev) := by
  unfold Repostable
  cases s.2 <;>
  · infer_instance

/-- `Selects` as a function. -/
def select (p proc linear : Nat) (s : Kernel × Loop) (ev : Event) : Option (Kernel × Loop) :=
  if Ipc ev then
    (s.1.replay [ev]).bind fun k' =>
      if Foreign p s.1 ev then some (k', resumed k' p s.2)
      else
        match s.2, ev with
        | .start, .systemCall regs =>
          if regs.ax = 1 ∧ regs.cx = linear then some (k', resumed k' p .receiving) else none
        | .got ret, .systemCall regs =>
          if again proc ret ∧ regs.ax = 0 ∧ regs.dx = (s.1.proc p).pid ∧ regs.cx = linear ∧
              regs.bx = ret then
            some (k', .start)
          else none
        | _, _ => none
  else none

theorem selects_of_select {s s' : Kernel × Loop} (h : select p proc linear s ev = some s') :
    Selects p proc linear s ev s' := by
  obtain ⟨k, l⟩ := s
  unfold select at h
  split at h
  · next hipc =>
    obtain ⟨k', hk', h⟩ := Option.bind_eq_some_iff.mp h
    have henter : k.EntersIpc ev k' := by
      cases run_of_replay hk' with
      | cons first rest =>
        cases rest
        exact ⟨hipc, first⟩
    split at h
    · next hev =>
      cases h
      exact .other hev henter
    · next hev =>
      -- a call that is not foreign is one of the runner
      have hp : ∀ regs, ev = .systemCall regs → p = k.currentProc := fun regs hregs => by
        subst hregs
        exact not_not.mp hev
      dsimp only at h
      split at h
      · split at h
        · next hc =>
          cases h
          exact .receive (hp _ rfl) hc.1 hc.2 henter
        · exact nomatch h
      · split at h
        · next hc =>
          cases h
          exact .repost (hp _ rfl) hc.1 hc.2.1 hc.2.2.1 hc.2.2.2.1 hc.2.2.2.2 henter
        · exact nomatch h
      · exact nomatch h
  · exact nomatch h

/-- A process with an interrupt and a message in its queue asks for the message, while another
interrupt arrives. -/
theorem run_receive_second : ∃ (k k₁ k' k₂ : Kernel) (es' : List Event), k.Boot 0 ∧
    k.initProc 0 0 = .ok k₁ ∧ Run EntersCarefully k₁ [.createProcess 0 0 50, .createProcess 0 0 100,
      call 6 0 0 0, .interrupt noRegs 0xC0406004, call 0 1 0xBFFFF000 0, call 6 0 0 0] k' ∧
    Run (SelectsSafely k'.currentProc 2 0x400000) (k', .start) es' (k₂, .got 2) ∧ es'.length = 4 ∧
    (k'.mail k'.currentProc ++ postedIn k'.currentProc k' es').find? (fun m => m.1 = 2) =
      some (2, frameAt (k₂.entryAt k'.currentProc 0x400000)) := by
  obtain ⟨k, k₁, k', hB, -, hinit, hrun, hmortal, hv, hany⟩ := run_of_booted_any
    (a := 0xC0400000) (n := 0x400000) (l := [.createProcess 0 0 50, .createProcess 0 0 100,
      call 6 0 0 0, .interrupt noRegs 0xC0406004, call 0 1 0xBFFFF000 0, call 6 0 0 0])
    (P := fun k => k.Mortal k.currentProc ∧ k.Receivable 0x400000 ∧
      (Run.follow (fun s ev => if Repostable k.currentProc s ev then
        select k.currentProc 2 0x400000 s ev else none) (k, .start) [call 1 0 0x400000 0,
          .interrupt noRegs 0xC0406004, call 0 1 0x400000 0xFFFFFFFF, call 1 0 0x400000 0]).any
            (fun s => decide (s.2 = .got 2)) = true)
    (by decide +kernel)
  obtain ⟨s, hs, hgot⟩ := (Option.any_eq_true _ _).mp hany
  obtain ⟨k₂, l⟩ := s
  cases of_decide_eq_true hgot
  have hreach := run_of_plain (by simp [Plain, call, noRegs]) hrun
  -- each step is checked to be safe
  have hsafe : Run (SelectsSafely k'.currentProc 2 0x400000) (k', .start) _ (k₂, .got 2) :=
    Run.of_follow (fun s e t ht => by
      split at ht
      · next hr => exact ⟨hr, selects_of_select ht⟩
      · cases ht) hs
  exact ⟨k, k₁, k', k₂, _, hB, hinit, hreach, hsafe, rfl,
    (run_receive hB hinit hreach hmortal (by decide) hv hsafe (by decide)).2.1⟩

/-- A process with a message of Init in its queue asks for the next one: the first one comes back
as a message of its own. -/
theorem not_run_receive : ¬ ∀ (k k₁ k' k₂ : Kernel) (kernelPDE ip proc linear ret : Nat)
    (es es' : List Event), k.Boot kernelPDE → k.initProc kernelPDE ip = .ok k₁ →
      Run Enters k₁ es k' → proc ≠ 0 → k'.Receivable linear →
      Run (Selects k'.currentProc proc linear) (k', .start) es' (k₂, .got ret) →
      ¬ again proc ret →
      (k₂.mail k'.currentProc).Perm
        ((k'.mail k'.currentProc ++ postedIn k'.currentProc k' es').erase
          (ret, frameAt (k₂.entryAt k'.currentProc linear))) := by
  intro hall
  obtain ⟨k, k₁, k', hB, -, hinit, hrun, hv, hany⟩ := run_of_booted_any
    (a := 0xC0400000) (n := 0x400000) (l := [.createProcess 0 0 50, .createProcess 0 0 100,
      call 0 1 0xBFFFF000 0, call 6 0 0 0, call 0 1 0xBFFFF000 0, call 6 0 0 0])
    (P := fun k => k.Receivable 0x400000 ∧ (Run.follow (select k.currentProc 2 0x400000) (k, .start)
      [call 1 0 0x400000 0, call 0 1 0x400000 0, call 1 0 0x400000 0]).any (fun s =>
        decide (s.2 = .got 2 ∧ ((0 : Nat) ∈ ((k.mail k.currentProc ++ postedIn k.currentProc k
          [call 1 0 0x400000 0, call 0 1 0x400000 0, call 1 0 0x400000 0]).erase
            (2, frameAt (s.1.entryAt k.currentProc 0x400000))).map Prod.fst) ∧
              (0 : Nat) ∉ (s.1.mail k.currentProc).map Prod.fst)) = true)
    (by decide +kernel)
  obtain ⟨s, hs, hdec⟩ := (Option.any_eq_true _ _).mp hany
  obtain ⟨k₂, l⟩ := s
  -- a letter is lost on the way
  obtain ⟨hgot, hmem, hnot⟩ := of_decide_eq_true hdec
  cases hgot
  have hsel : Run (Selects k'.currentProc 2 0x400000) (k', .start) _ (k₂, .got 2) :=
    Run.of_follow (f := select k'.currentProc 2 0x400000) (fun _ _ _ => selects_of_select) hs
  have hperm := hall k k₁ k' k₂ 0 0 2 0x400000 2 _ _ hB hinit hrun (by decide) hv hsel (by decide)
  exact hnot ((hperm.map Prod.fst).mem_iff.mpr hmem)

end Kernel

end NorlitOS
