import NorlitOS.Process.Memory

/-!
# What is in a message

A message is a page. `Conserves` says which pages arrive and in which order; here they are followed
with what is in them, through runs in which the processes store, map memory, come and go. What a
`SEND` posts is what the page of the sender holds then, and the process that obtains the message
finds it there, whatever has happened to the page addresses of both in between.
-/

namespace NorlitOS

open Dyadic

namespace Kernel

variable {k k' k₁ k₂ : Kernel} {pool : Set Nat} {p t u ip kernelPDE : Nat} {regs : StackFrame}
  {ev : Event} {a : Action} {as as' : List Action} {es : List Event}

/-! ## Entries that move no message of a process

Such an entry leaves the queue and the waiting threads of the process as they are. -/

/-- `p` is still there, with the messages it had, and no thread of it has blocked or returned. -/
structure Idle (k : Kernel) (p : Nat) (k' : Kernel) : Prop where
  live : p ∈ k'.processTable
  queue : k'.queue p = k.queue p
  flags : ∀ t ∈ (k.proc p).thread, (k'.thr t).flag = (k.thr t).flag

theorem Idle.refl (hp : p ∈ k.processTable) : Idle k p k := ⟨hp, rfl, fun _ _ => rfl⟩

theorem Untouched.idle (h : Untouched k k' p) : Idle k p k' := by
  refine ⟨h.live, queue_congr ?_ ?_ ?_, fun t ht => by rw [h.thr t ht]⟩ <;> rw [h.proc]

/-- Records that are as they were. -/
theorem Idle.of_eq (h : Idle k p k₁) (hring : k'.processTable = k₁.processTable)
    (hproc : k'.proc = k₁.proc) (hthr : ∀ t, (k'.thr t).flag = (k₁.thr t).flag) : Idle k p k' := by
  refine ⟨hring ▸ h.live, (queue_congr ?_ ?_ ?_).trans h.queue, fun t ht => ?_⟩
  · rw [hproc]
  · rw [hproc]
  · rw [hproc]
  · rw [hthr, h.flags t ht]

theorem Idle.setAx (h : Idle k p k₁) (v : Nat) : Idle k p (k₁.setAx t v) :=
  h.of_eq rfl rfl fun _ => setAx_flag v

/-- A new thread brings no message. -/
theorem Spawned.idle {phy : Prop} (hS : Spawned k k.frameOf phy pool k.currentProc t k')
    (h : k.Inv phy pool) (hp : p ∈ k.processTable) : Idle k p k' := by
  obtain ⟨l, -, hproc⟩ := hS.proc
  refine ⟨hS.processTable ▸ hp, queue_congr ?_ ?_ ?_, fun u hu => ?_⟩
  -- the record of the running process has another list of threads, and one more of them
  iterate 3
    rw [hproc, modProc_proc]
    split
    · next hc => rw [hc]; rfl
    · rfl
  · rw [hS.thr u fun hut => h.owned.ne_of_free (frameOf_threadPage hp hu) hS.free hut]

theorem Idle.of_save (h : Idle (k.save regs) p k') : Idle k p k' :=
  ⟨h.live, h.queue, fun t ht => (h.flags t ht).trans (save_flag t)⟩

/-- An entry that neither sends nor receives. -/
theorem step_idle (h : k.Inv False pool) (hs : k.EntersOwning ev k') (hspare : k.Spares p ev)
    (hp : p ∈ k.processTable) (hev : ¬ Ipc ev) : Idle k p k' := by
  obtain ⟨howning, hadm, hok⟩ := hs
  have hcare := careful_of_owning h hadm howning
  cases ev with
  | createProcess ip privilege priority =>
    obtain ⟨r, hcreate, hlast⟩ := bind_eq_ok.mp hok
    obtain rfl := Except.ok.inj hlast
    exact (((createProcess_spec h).elim hcreate).2.untouched hp).idle
  | disposeProcess q =>
    have hE := ((disposeProcess_spec h hadm.mem hcare).elim hok).2
    exact (hE.untouched_of_ne hp fun hc => hspare hc.symm).idle
  | systemCall regs =>
    suffices hidle : Idle (k.save regs) p k' from hidle.of_save
    have hne : ¬ (regs.ax = 0 ∨ regs.ax = 1 ∨ regs.ax = 6) := hev
    change (k.save regs).systemCall regs.ax regs.dx regs.cx regs.bx = .ok k' at hok
    by_cases h2 : regs.ax = 2
    · rw [h2] at hok
      obtain ⟨-, k₁, v, rfl, hor⟩ := (sysCreateThread_spec h.save).elim hok
      have hidle : Idle (k.save regs) p k₁ := by
        rcases hor with rfl | ⟨t, hS⟩
        · exact Idle.refl hp
        · exact hS.idle h.save hp
      exact hidle.setAx v
    by_cases h3 : regs.ax = 3
    · obtain ⟨q, hq, ht, -⟩ := hadm.1 h3
      rw [h3] at hok
      have hwin := hcare.2.1 h3
      rw [(h.procOk hq).back _ ht] at hwin
      have hD := ((sysDisposeThread_spec (k := k.save regs) h.save hq ht
        (normalWindow_save.mpr hwin)).elim hok).2
      exact (hD.untouched_of_ne hp fun hpq => hspare.1 h3 (hpq ▸ ht)).idle
    by_cases h5 : regs.ax = 5
    · obtain ⟨f, g, r, hf, hM, -⟩ := step_allocMemory h.permissive h5 hok
      obtain ⟨hO, hA⟩ := inHand_owned hf
      obtain ⟨⟨own', pool', hE⟩, -⟩ := hM.extended h.permissive hO hA
      have hmapping : Idle (k.save regs) p (k.mapping regs g) :=
        (Idle.refl (k := k.save regs) hp).of_eq rfl rfl fun _ => rfl
      refine hmapping.of_eq (hM.processTable.trans hE.processTable) (hM.proc.trans hE.proc)
        fun t => ?_
      rw [hM.thr, setAx_flag, hE.thr]
    -- an unknown call ends the process that makes it, which is not `p`
    · have h6 : 6 < regs.ax := by
        have h4 := howning.1
        omega
      obtain ⟨n, hn⟩ : ∃ n, regs.ax = n + 7 := ⟨regs.ax - 7, by omega⟩
      rw [hn] at hok
      have hE := ((exceptionHandler_spec h.save (normalWindows_save.mpr (hcare.2.2 h6))).elim hok).2
      exact (hE.untouched_of_ne hp fun hc => hspare.2 h6 hc.symm).idle
  | interrupt regs q => exact absurd trivial hev
  | tick regs => exact absurd trivial hev
  | pageFault regs cr2 =>
    suffices hidle : Idle (k.save regs) p k' from hidle.of_save
    change (if growsStack _ cr2 then _ else _) = _ at hok
    split at hok
    · next hg =>
      have hz : (k.save regs).pte k.currentProc (va2pde cr2) (va2pte cr2) = 0 := by
        rw [save_pte]
        refine hadm.1 ?_
        rw [growsStack_save] at hg
        exact hg
      obtain ⟨k₁, f, -, hT, hR⟩ := (growStack_replaced h.save hg hz).elim hok
      exact (Idle.refl (k := k.save regs) hp).of_eq (hR.processTable.trans hT.processTable)
        (hR.proc.trans hT.proc) fun t => by rw [hR.thr, hT.thr]
    · next hg =>
      rw [growsStack_save] at hg
      have hE := ((exceptionHandler_spec h.save (normalWindows_save.mpr (hcare hg))).elim hok).2
      exact (hE.untouched_of_ne hp fun hc => hspare hg hc.symm).idle
  | exception regs =>
    suffices hidle : Idle (k.save regs) p k' from hidle.of_save
    have hE := ((exceptionHandler_spec h.save (normalWindows_save.mpr hcare)).elim hok).2
    exact (hE.untouched_of_ne hp fun hc => hspare hc.symm).idle

/-- **The law of one entry** of any kind. -/
theorem step_conserves (h : k.Inv False pool) (hs : k.EntersOwning ev k') (hspare : k.Spares p ev)
    (hp : p ∈ k.processTable) : k.Conserves ev k' p ∧ p ∈ k'.processTable := by
  by_cases hipc : Ipc ev
  · have hI : k.EntersIpc ev k' := ⟨hipc, hs.2⟩
    exact ⟨hI.conserves h hp, (hI.processTable h).symm ▸ hp⟩
  · have hidle := step_idle h hs hspare hp hipc
    have hmail : k'.mail p = k.mail p := congrArg (List.map letter) hidle.queue
    refine ⟨conserves_of_same ?_ hidle.flags ?_ hmail, hidle.live⟩
    · cases ev with
      | systemCall regs => exact if_neg fun hc => hipc (Or.inl hc.1)
      | interrupt regs q => exact absurd trivial hipc
      | createProcess _ _ _ | disposeProcess _ | tick _ | pageFault _ _ | exception _ => rfl
    · rintro t - hr
      cases ev with
      | systemCall regs => exact hipc (Or.inr (Or.inl hr.1))
      | createProcess _ _ _ | disposeProcess _ | interrupt _ _ | tick _ | pageFault _ _
      | exception _ => exact hr

/-! ## What the pages hold

A parcel is the source of a message and the words of its page. A page that is queued is mapped
nowhere, so no store reaches it. -/

/-- A message with the words of its page. -/
def parcel (k : Kernel) (m : Nat × Nat) : Nat × (Nat → Nat) := (m.1, k.table m.2)

/-- The queued messages of `p`, oldest first. -/
def parcels (k : Kernel) (p : Nat) : List (Nat × (Nat → Nat)) := (k.mail p).map k.parcel

/-- The state in which a message is posted: a `SEND` posts what is in the page when it is called,
and `sendInterrupt` what the page holds that it has taken. -/
def postedAt (k : Kernel) (a : Action) (k' : Kernel) : Kernel :=
  match a with
  | .enter (.systemCall _) => k
  | _ => k'

/-- What a step posts to `p`. -/
def posts (p : Nat) (k : Kernel) (a : Action) (k' : Kernel) : List (Nat × (Nat → Nat)) :=
  match a with
  | .enter ev => (accepted p k ev k').map fun m => (k.postedAt a k').parcel m.letter
  | .store _ _ => []

/-- What `RECEIVE` calls of `p` return with in a step, and what is in the pages then. -/
def finds (p : Nat) (k : Kernel) (a : Action) (k' : Kernel) : List (Nat × (Nat → Nat)) :=
  match a with
  | .enter ev => (obtained p k ev k').map k'.parcel
  | .store _ _ => []

/-- A queued message has its slot. -/
theorem Inv.slot_of_mem_mail {phy : Prop} {m : Nat × Nat} (h : k.Inv phy pool)
    (hp : p ∈ k.processTable) (hm : m ∈ k.mail p) : ∃ n, k.frameOf (.slot p n) = some m.2 := by
  obtain ⟨msg, hmsg, rfl⟩ := List.mem_map.mp hm
  obtain ⟨i, hi, rfl⟩ := List.mem_map.mp hmsg
  have hi := List.mem_range.mp hi
  have hP := h.procOk hp
  have htail := hP.tail
  have hcount := hP.count
  refine ⟨((k.proc p).msgTail + i) % MAX_MESSAGE_COUNT,
    frameOf_slot hp ⟨Nat.mod_lt _ (by decide), ?_⟩⟩
  unfold MAX_MESSAGE_COUNT at *
  omega

/-- What waits in a queue is not written. -/
theorem Moves.table_of_mail {m : Nat × Nat} (hm : k.Moves a k') (h : k.Inv False pool)
    (hp : p ∈ k.processTable) (hmail : m ∈ k.mail p) : k'.table m.2 = k.table m.2 := by
  obtain ⟨n, ho⟩ := h.slot_of_mem_mail hp hmail
  cases hm with
  | enter hs => exact step_table h hs ho (by simp) (by simp) (by simp)
  | @store x v hx =>
    refine setWord_table_of_ne fun hc => ?_
    have hcur := h.frameOf_entryOf h.threads.running hx
    have hsame := h.owned.owner_unique ho (hcur.trans (congrArg some hc.symm))
    exact Owner.noConfusion hsame

/-- What a `SEND` has accepted is as it was when the sender called. -/
theorem table_of_accepted {m : Posting} (h : k.Inv False pool)
    (hs : k.EntersOwning (.systemCall regs) k') (hm : m ∈ accepted p k (.systemCall regs) k') :
    k'.table m.frame = k.table m.frame := by
  unfold accepted at hm
  dsimp only at hm
  split at hm
  · next hc =>
    obtain ⟨hax, -, hstatus⟩ := hc
    obtain rfl := List.mem_singleton.mp hm
    cases sent_of_step h hax hs.2.2 with
    | accepted hsends _ hsendable _ _ =>
      have ho : k.frameOf (.pte k.currentProc (va2pde regs.cx) (va2pte regs.cx)) =
          some (frameAt (k.pte k.currentProc (va2pde regs.cx) (va2pte regs.cx))) := by
        rw [frameOf_pte h.threads.running hsendable.user hsendable.index]
        have hpresent := hsendable.present
        have howned := hsends.owned
        rw [save_pte] at hpresent howned
        exact entryFrame_of (ne_zero_of_testBit hpresent) howned
      refine step_table h hs ho (by simp) (by simp) fun regs' heq h1 => ?_
      rw [← Event.systemCall.inj heq, hax] at h1
      exact absurd h1 (by decide)
    | @refused v _ hv heq =>
      -- a `SEND` that is refused does not return 1
      have hax' : (k'.thr k.currentThread).regs.ax = v := by
        rw [heq]
        exact setAx_ax v
      omega
  · exact absurd hm List.not_mem_nil

/-- **The law of one step**, with the contents. -/
theorem MovesSparing.conserves (hm : MovesSparing p k a k') (h : k.Inv False pool)
    (hp : p ∈ k.processTable) :
    k.parcels p ++ posts p k a k' = finds p k a k' ++ k'.parcels p := by
  obtain ⟨hspare, hm⟩ := hm
  -- the pages in the queue keep what is in them
  have hqueued : k.parcels p = (k.mail p).map k'.parcel := by
    refine List.map_congr_left fun m hmem => ?_
    exact congrArg (Prod.mk m.1) (hm.table_of_mail h hp hmem).symm
  cases hm with
  | @enter ev k' hs =>
    have hlaw := (step_conserves h hs (hspare _ rfl) hp).1
    have hposted : posts p k (.enter ev) k' =
        ((accepted p k ev k').map Posting.letter).map k'.parcel := by
      rw [List.map_map]
      refine List.map_congr_left fun m hmem => ?_
      cases ev with
      | systemCall regs => exact congrArg (Prod.mk m.source) (table_of_accepted h hs hmem).symm
      | createProcess _ _ _ | disposeProcess _ | interrupt _ _ | tick _ | pageFault _ _
      | exception _ => rfl
    calc k.parcels p ++ posts p k (.enter ev) k'
        = (k.mail p ++ (accepted p k ev k').map Posting.letter).map k'.parcel := by
          rw [hqueued, hposted, List.map_append]
      _ = (obtained p k ev k' ++ k'.mail p).map k'.parcel := by rw [hlaw]
      _ = finds p k (.enter ev) k' ++ k'.parcels p := List.map_append
  | @store x v hx =>
    -- a store queues nothing, and reaches no page that is queued
    have hmail : (k.store x v).mail p = k.mail p := mail_congr rfl
    show k.parcels p ++ [] = [] ++ (k.store x v).parcels p
    rw [List.append_nil, List.nil_append, hqueued]
    exact congrArg (List.map _) hmail.symm

/-! ## Runs

Posting and finding along a run, with stores between the entries. What is found is what was
posted, in order. -/

/-- The state after a step, if it returns. -/
def after (k : Kernel) : Action → Option Kernel
  | .enter ev => k.next ev
  | .store x v => some (k.store x v)

theorem Moves.after (hm : k.Moves a k') : k.after a = some k' := by
  cases hm with
  | enter hs =>
    show k.next _ = _
    unfold Kernel.next
    rw [hs.2.2]
  | store => rfl

/-- What the steps post to `p`, in order. -/
def contentsPosted (p : Nat) (k : Kernel) (as : List Action) : List (Nat × (Nat → Nat)) :=
  total after (posts p) k as

/-- What the `RECEIVE` calls of `p` find, in order. -/
def contentsFound (p : Nat) (k : Kernel) (as : List Action) : List (Nat × (Nat → Nat)) :=
  total after (finds p) k as

theorem MovesSparing.live (hm : MovesSparing p k a k') (h : k.Inv False pool)
    (hp : p ∈ k.processTable) : p ∈ k'.processTable := by
  obtain ⟨hspare, hm⟩ := hm
  cases hm with
  | enter hs => exact (step_conserves h hs (hspare _ rfl) hp).2
  | store => exact hp

/-- **Messages arrive with what was in them.** From every state of the machine, in which programs
store in their user half only, over every run in which `p` and its threads are not disposed: the
messages queued for `p` at the start and those posted since, with the words of their pages when they
were posted, are in this order those `p` finds when its `RECEIVE` calls return, with the words it
finds then, and those still queued. -/
theorem run_contents (hB : k.Boot kernelPDE) (hinit : k.initProc kernelPDE ip = .ok k₁)
    (hreach : Run Moves k₁ as k₂) (hp : p ∈ k₂.processTable)
    (hrun : Run (MovesSparing p) k₂ as' k') :
    k₂.parcels p ++ contentsPosted p k₂ as' = contentsFound p k₂ as' ++ k'.parcels p := by
  have h₂ := run_moves_inv hreach ((initProc_spec hB).elim hinit)
  refine Run.conserve (I := fun s => s.Inv False k.heap.freeSet ∧ p ∈ s.processTable)
    (q := fun s => s.parcels p) (fun _ _ _ hm => hm.2.after) ?_ ?_ hrun ⟨h₂, hp⟩
  · rintro s a t ⟨hs, hps⟩ hm
    exact ⟨hm.2.inv hs, hm.live hs hps⟩
  · rintro s a t ⟨hs, hps⟩ hm
    exact hm.conserves hs hps

instance (ev : Event) : Decidable (Owning ev) :=
  match ev with
  | .systemCall regs => inferInstanceAs (Decidable (regs.ax ≠ 4 ∧
      (regs.ax = 5 → regs.bx = 1 ∧ regs.cx % PAGE_SIZE = 0 ∧ regs.cx < PAGE_OFFSET)))
  | .createProcess _ _ _ | .disposeProcess _ | .interrupt _ _ | .tick _ | .pageFault _ _
  | .exception _ => inferInstanceAs (Decidable True)

/-- A step, if the machine can do it. -/
def moved (k : Kernel) : Action → Option Kernel
  | .enter ev => if Owning ev ∧ k.Admissible ev then k.next ev else none
  | .store x v => if k.Mapped k.currentProc x then some (k.store x v) else none

theorem moves_of_moved (h : k.moved a = some k') : k.Moves a k' := by
  cases a with
  | enter ev =>
    rw [moved] at h
    split at h
    · next hc =>
      -- an entry that the kernel does not return from is no step
      cases hok : k.step ev with
      | ok k₁ =>
        rw [next, hok] at h
        cases h
        exact .enter ⟨hc.1, hc.2, hok⟩
      | error e =>
        rw [next, hok] at h
        exact absurd h (by simp)
    · exact absurd h (by simp)
  | store x v =>
    rw [moved] at h
    split at h
    · next hx =>
      cases h
      exact .store hx
    · exact absurd h (by simp)

/-- A process waits for a message; another one maps a page, stores a word there and sends it. -/
theorem run_contents_send : ∃ (k k₁ k₂ k' : Kernel) (as as' : List Action), k.Boot 0 ∧
    k.initProc 0 0 = .ok k₁ ∧ Run Moves k₁ as k₂ ∧ 0xC0406004 ∈ k₂.processTable ∧
      Run (MovesSparing 0xC0406004) k₂ as' k' ∧
      ((contentsFound 0xC0406004 k₂ as').map fun m => (m.1, m.2 0)) = [(2, 42)] ∧
        k₂.parcels 0xC0406004 ++ contentsPosted 0xC0406004 k₂ as' =
          contentsFound 0xC0406004 k₂ as' ++ k'.parcels 0xC0406004 := by
  obtain ⟨k, k₁, k₂, hB, -, hinit, hrun, hp, hsome, hfound⟩ := run_of_booted_any
    (a := 0xC0400000) (n := 0x400000)
    (l := [.createProcess 0 0 100, .createProcess 0 0 50, call 6 0 0 0])
    (P := fun k => 0xC0406004 ∈ k.processTable ∧
      (Run.follow moved k [.enter (call 1 0 0x400000 0), .enter (call 5 0 0x400000 1),
        .store 0x400000 42, .enter (call 0 1 0x400000 0)]).isSome = true ∧
      ((contentsFound 0xC0406004 k [.enter (call 1 0 0x400000 0), .enter (call 5 0 0x400000 1),
        .store 0x400000 42, .enter (call 0 1 0x400000 0)]).map fun m => (m.1, m.2 0)) = [(2, 42)])
    (by decide +kernel)
  obtain ⟨k', hk'⟩ := Option.isSome_iff_exists.mp hsome
  have howning : Run EntersOwning k₁ _ k₂ := hrun.restrict (P := Owning) (by
    simp [Owning, call, noRegs, PAGE_SIZE, PAGE_OFFSET])
  have hreach := run_moves howning
  have hmoves : Run Moves k₂ _ k' := Run.of_follow (fun _ _ _ h => moves_of_moved h) hk'
  -- no step disposes anything of the receiver
  have hsparing : Run (MovesSparing 0xC0406004) k₂ _ k' :=
    (hmoves.restrict (P := fun a => ∀ k ev, a = .enter ev → Spares k 0xC0406004 ev)
      (by simp [Spares, call, noRegs])).mono fun k _ _ h => ⟨h.1 k, h.2⟩
  exact ⟨k, k₁, k₂, k', _, _, hB, hinit, hreach, hp, hsparing, hfound,
    run_contents hB hinit hreach hp hsparing⟩

end Kernel

end NorlitOS
