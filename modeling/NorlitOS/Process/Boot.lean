import NorlitOS.Process.Create

/-!
# `init_proc`

`init_paging` leaves a directory with an empty user half, whose kernel half names tables that
are allocated for good. `init_proc` copies it for Init, the first process.
-/

namespace NorlitOS

open Dyadic Ledger

namespace Kernel

variable {k k' : Kernel} {phy : Prop} {pool : Set Nat} {p q t ip kernelPDE : Nat}

/-- The machine before `init_proc`: the pool is what is free. -/
structure Boot (k : Kernel) (kernelPDE : Nat) : Prop where
  wellFormed : k.heap.WellFormed
  user : ∀ i < USER_PDES, k.table kernelPDE i = 0
  kernel : ∀ i, USER_PDES ≤ i → i < 1024 → k.table kernelPDE i ≠ 0 →
    frameAt (k.table kernelPDE i) ∉ k.heap.freeSet

/-- Without processes there are no owners. -/
theorem frameOf_of_empty (h : k.processTable = []) : k.frameOf = fun _ => none := by
  have hnot : ∀ p, p ∉ k.processTable := fun p => by
    rw [h]
    exact List.not_mem_nil
  funext o
  cases o with
  | threadPage t => exact frameOf_threadPage_none fun p hp => absurd hp (hnot p)
  | pte p i j => exact frameOf_of_not_mem (hnot p) rfl
  | pageTable p i => exact frameOf_of_not_mem (hnot p) rfl
  | pageDirectory p => exact frameOf_of_not_mem (hnot p) rfl
  | slot p n => exact frameOf_of_not_mem (hnot p) rfl
  | record p => exact frameOf_of_not_mem (hnot p) rfl

theorem layout_of_empty (h : k.processTable = []) : k.Layout phy pool := by
  have hnot : ∀ {p}, p ∉ k.processTable := fun {p} => by
    rw [h]
    exact List.not_mem_nil
  constructor <;> intros <;> exact absurd ‹_ ∈ k.processTable› hnot

theorem Boot.owned (hB : k.Boot kernelPDE) :
    Owned k.heap (fun _ => none) k.heap.freeSet := by
  have hR := Heap.wellFormed_iff_rep.mp hB.wellFormed
  refine ⟨hB.wellFormed, ⟨nofun, nofun, fun x => ?_⟩, hR.inside, nofun, nofun⟩
  constructor
  · exact Or.inl
  · rintro (hx | ⟨o, f, ho, -⟩)
    · exact hx
    · exact nomatch ho

/-- The machine turned over to Init, the process `p`. -/
def turnedOver (k : Kernel) (p : Nat) : Kernel :=
  { k.modProc p (fun P => { P with pid := 0, flag := 2 }) with
    processTable := [p], currentProc := p,
    currentThread := ((k.modProc p fun P => { P with pid := 0, flag := 2 }).proc p).current }

/-- The record of Init, and the machine turned over to it. -/
theorem Created.init (hk : k.processTable = []) (hC : Created k phy pool p k') :
    (k'.turnedOver p).Inv phy pool := by
  unfold turnedOver
  set k₁ := k'.modProc p (fun P => { P with pid := 0, flag := 2 }) with hk₁
  -- Init is the only process
  have hring : k'.processTable = [p] := by
    have hperm := hC.ring
    rw [hk] at hperm
    exact List.perm_singleton.mp hperm
  have hM : SameMaps k' k₁ :=
    sameMaps_modProc (fun _ => rfl) (fun _ => rfl) (fun _ => rfl) (fun _ => rfl) fun _ => rfl
  have hM' : SameMaps k₁ { k₁ with
      processTable := [p], currentProc := p, currentThread := (k₁.proc p).current } :=
    SameMaps.of_eq rfl rfl hring.symm rfl fun _ => rfl
  have hall := hM.trans hM'
  refine ⟨by rw [hall.frameOf]; exact hC.owned, hall.layout hC.layout, ?_⟩
  refine ⟨List.nodup_singleton p, List.mem_singleton_self p, rfl, fun q hq => ?_⟩
  obtain rfl := List.mem_singleton.mp hq
  refine hC.procOk.congr ?_ fun t _ hb => ?_
  · refine ⟨?_, ?_, ?_, ?_, ?_, ?_, ?_, fun _ _ => rfl, fun _ _ => rfl⟩ <;>
    · show _ = _
      rw [hk₁, modProc_proc_self]
  · exact absurd (hb.flag.symm.trans hC.flag) (by decide)

/-- `init_proc` creates a process in an empty ring, and turns the machine over to it. -/
theorem initProc_created (phy : Prop) (hB : k.Boot kernelPDE) :
    Yields (k.initProc kernelPDE ip) fun k' => ∃ k₁ k₂ p, k₁.processTable = [] ∧
      Created k₁ phy k.heap.freeSet p k₂ ∧ k' = k₂.turnedOver p := by
  unfold initProc
  refine (allocPage_spec hB.owned).bind fun r hr => ?_
  obtain ⟨d, h', rfl, hd⟩ := hr
  set k₁ : Kernel := { ({ k with heap := h' } : Kernel).setPage d (k.table kernelPDE) with
    processTable := [] } with hk₁
  have hself : ∀ i, k₁.table d i = k.table kernelPDE i := by
    intro i
    exact setPage_table.trans (if_pos rfl)
  -- the directory is a copy of the kernel's, with nothing in its user half
  have hdir : k₁.Directory k.heap.freeSet d := by
    refine ⟨hd.physical hB.owned, ⟨fun hp => absurd hp List.not_mem_nil, fun hp =>
      absurd hp List.not_mem_nil⟩, hd.free (self_mem_page d), fun i hi => ?_, fun i hi hi' h0 => ?_⟩
    · rw [hself]
      exact hB.user i hi
    · rw [hself] at h0 ⊢
      exact hB.kernel i hi hi' h0
  have hO : Owned k₁.heap (Function.update k₁.frameOf inHand (some d)) k.heap.freeSet := by
    rw [frameOf_of_empty (k := k₁) rfl]
    exact hd.enter inHand (fun _ => by simp [inHand]) rfl
  have hL : k₁.Layout phy k.heap.freeSet := layout_of_empty rfl
  exact (newProcess_spec hL hdir hO).bind fun r hC => ⟨k₁, r.2, r.1, rfl, hC, rfl⟩

/-- **`init_proc`.** -/
theorem initProc_spec (hB : k.Boot kernelPDE) :
    Yields (k.initProc kernelPDE ip) fun k' => k'.Inv phy k.heap.freeSet := by
  refine (initProc_created phy hB).mono fun k' hk' => ?_
  obtain ⟨k₁, k₂, p, hring, hC, rfl⟩ := hk'
  exact hC.init hring

end Kernel

end NorlitOS
