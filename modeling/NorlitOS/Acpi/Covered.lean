import NorlitOS.Acpi.TempMap

/-!
# What the temporary mappings cover

A table is read rightly where its bytes are in the page that was mapped for it. The RSDT was the
first, and the tables it lists come behind it: where it goes on into its next page, the window shows
the page of another table, and rightly so only if this is the same page.
-/

namespace NorlitOS

namespace Acpi

variable {mem : Bytes} {s : Walk} {n a madt : Nat} {irq : Nat → Nat}

/-! ## What `acpi_apic` looks at

The bytes that matter are described without the loop: from entry to entry as long as the `switch`
breaks. Behind an entry at which it does not break nothing matters, because the loop does not get
there. -/

/-- The bytes of an entry at `d` that the `switch` looks at. -/
def switchBytes (e : Entry) (base d : Nat) : List Nat :=
  d :: if e.type = 1 then if base ≠ 0 then [] else [d + 4, d + 5, d + 6, d + 7]
    else if e.type = 2 then [d + 3, d + 4, d + 5, d + 6, d + 7]
    else []

/-- The `switch` breaks. -/
def Breaks (e : Entry) (base : Nat) : Prop := (e.type = 1 → base = 0) ∧ (e.type = 2 → e.source < IRQS)

instance (e : Entry) (base : Nat) : Decidable (Breaks e base) := inferInstanceAs (Decidable (_ ∧ _))

/-- The entries that the loop comes to in a table: where, with how many bytes left, and what it has for
the I/O APIC. -/
inductive Reached (mem : Bytes) : Nat → Nat → Nat → Prop
  | first : Reached mem apicStr (sub32 (mem.u32 4) apicStr) 0
  | next {d left base : Nat} (h : Reached mem d left base) (more : left ≠ 0)
      (breaks : Breaks (entryAt mem d) base) :
      Reached mem (d + (entryAt mem d).length) (sub32 left (entryAt mem d).length)
        (if (entryAt mem d).type = 1 then (entryAt mem d).word else base)

/-- The bytes of a table that matter: its length, and of each entry its type, its length and what is
wanted of it. -/
inductive Matters (mem : Bytes) : Nat → Prop
  | length {d : Nat} (hd : d ∈ [4, 5, 6, 7]) : Matters mem d
  | case {d left base d' : Nat} (h : Reached mem d left base) (more : left ≠ 0)
      (hd : d' ∈ switchBytes (entryAt mem d) base d) : Matters mem d'
  | step {d left base : Nat} (h : Reached mem d left base) (more : left ≠ 0)
      (breaks : Breaks (entryAt mem d) base) : Matters mem (d + 1)

@[simp] theorem reads_word : (word a).reads (whole mem) = [a, a + 1, a + 2, a + 3] := rfl

/-- The `switch` looks at the type, and at the number for the types that have one. -/
theorem reads_switch : (switch s).reads (whole mem) =
    switchBytes (entryAt mem s.header) s.io_apic_base s.header := by
  unfold switch switchBytes entryAt
  rw [Reading.reads_bind_of_eq (a := mem s.header) rfl]
  dsimp only
  split_ifs with h₀ h₁ hbase h₂ h₁ hbase h₂ <;> try rfl
  · omega
  · omega
  · rw [Reading.reads_bind_of_eq (a := mem (s.header + 3)) rfl, Reading.reads_bind_of_eq eval_word]
    split <;> rfl

/-- Behind the last entry nothing is read. -/
theorem reads_end (h : s.length = 0) : (loop n s).reads (whole mem) = [] := by
  cases n with
  | zero => rfl
  | succ n =>
    rw [loop, if_pos h]
    rfl

/-- Where the `switch` breaks, its bytes, the length twice, and what the rest reads. -/
theorem reads_break {e : Entry} (h : s.length ≠ 0) (he : e = entryAt mem s.header)
    (hbreak : Breaks e s.io_apic_base) : (loop (n + 1) s).reads (whole mem) =
      switchBytes e s.io_apic_base s.header ++ ([s.header + 1, s.header + 1] ++
        (loop n (after s e)).reads (whole mem)) := by
  subst he
  rw [loop, if_neg h, Reading.reads_bind_of_eq eval_switch, reads_switch, come_header,
    outcome_break hbreak.1 hbreak.2]
  rfl

/-- Where the `switch` does not break, the same bytes are read again or none. -/
theorem mem_reads_stay (h : s.length ≠ 0) (hbreak : ¬ Breaks (entryAt mem s.header) s.io_apic_base)
    (ha : a ∈ (loop n s).reads (whole mem)) :
    a ∈ switchBytes (entryAt mem s.header) s.io_apic_base s.header := by
  induction n generalizing s with
  | zero => cases ha
  | succ n ih =>
    rw [loop, if_neg h, Reading.reads_bind_of_eq eval_switch, reads_switch, come_header] at ha
    rcases List.mem_append.mp ha with ha | ha
    · exact ha
    by_cases hio : (entryAt mem s.header).type = 1 → s.io_apic_base = 0
    · have hirq : ¬ ((entryAt mem s.header).type = 2 → (entryAt mem s.header).source < IRQS) :=
        fun hirq => hbreak ⟨hio, hirq⟩
      obtain ⟨htype, hsource⟩ := Classical.not_imp.mp hirq
      rw [outcome_wild htype hsource] at ha
      cases ha
    · obtain ⟨htype, hbase⟩ := Classical.not_imp.mp hio
      rw [outcome_continue htype hbase] at ha
      exact ih (s := s.come) h hbreak ha

/-! ## The same table at another address

The loop runs on the addresses of the window, and the table is in physical memory. What it reads
at `va + d` is byte `d` of the table, as long as no address wraps around. -/

/-- The table, shown from `va` on. -/
def shifted (mem : Bytes) (va : Nat) : Bytes := fun a => mem (a - va)

variable {va d left base k : Nat} {e : Entry}

theorem shifted_add (d : Nat) : shifted mem va (va + d) = mem d :=
  congrArg mem (Nat.add_sub_cancel_left va d)

theorem u32_shifted (d : Nat) : (shifted mem va).u32 (va + d) = mem.u32 d := by
  apply Bytes.u32_congr
  intro j _
  rw [Nat.add_assoc]
  exact shifted_add (d + j)

theorem entryAt_shifted (d : Nat) : entryAt (shifted mem va) (va + d) = entryAt mem d := by
  unfold entryAt
  rw [Nat.add_assoc, Nat.add_assoc, Nat.add_assoc, u32_shifted, shifted_add, shifted_add, shifted_add]

/-- The bytes of an entry move with it. -/
theorem switchBytes_add (e : Entry) (base va d : Nat) :
    switchBytes e base (va + d) = (switchBytes e base d).map (va + ·) := by
  unfold switchBytes
  split_ifs <;> rfl

theorem mem_switchBytes_self (e : Entry) (base d : Nat) : d ∈ switchBytes e base d := List.mem_cons_self

/-- Nothing behind the first eight bytes of an entry is. -/
theorem le_of_mem_switchBytes {d' : Nat} (h : d' ∈ switchBytes e base d) : d' ≤ d + 7 := by
  unfold switchBytes at h
  split_ifs at h <;> simp at h <;> omega

/-- The length of the table is read first, and then the loop runs. -/
theorem reads_acpi_apic : (acpi_apic n irq madt).reads (whole mem) =
    [madt + 4, madt + 4 + 1, madt + 4 + 2, madt + 4 + 3] ++ (loop n (start mem irq madt)).reads (whole mem) := by
  unfold acpi_apic
  rw [Reading.reads_bind_of_eq eval_word, reads_word]
  rfl

/-- Whatever the `switch` does, the bytes it looks at are read. -/
theorem switchBytes_subset (h : s.length ≠ 0) (ha : a ∈ switchBytes (entryAt mem s.header) s.io_apic_base s.header) :
    a ∈ (loop (n + 1) s).reads (whole mem) := by
  rw [loop, if_neg h, Reading.reads_bind_of_eq eval_switch, reads_switch]
  exact List.mem_append_left _ ha

/-- Only what matters is looked at, while it is all in one page. Induction on the fuel. -/
theorem loop_matters (hpage : ∀ d, Matters mem d → d < PAGE_SIZE) (hva : va < 2 ^ 31)
    (hheader : s.header = va + d) (hreach : Reached mem d s.length s.io_apic_base)
    (ha : a ∈ (loop n s).reads (whole (shifted mem va))) : ∃ d, a = va + d ∧ Matters mem d := by
  induction n generalizing s d with
  | zero => exact nomatch ha
  | succ n ih =>
    have hentry : entryAt (shifted mem va) s.header = entryAt mem d := by rw [hheader, entryAt_shifted]
    by_cases hmore : s.length = 0
    · rw [reads_end hmore] at ha
      exact nomatch ha
    have hcase : a ∈ switchBytes (entryAt mem d) s.io_apic_base s.header → ∃ d, a = va + d ∧ Matters mem d := by
      intro ha
      rw [hheader, switchBytes_add] at ha
      obtain ⟨d', hd', rfl⟩ := List.mem_map.mp ha
      exact ⟨d', rfl, .case hreach hmore hd'⟩
    -- at an entry that is not broken from the loop reads the same bytes again
    by_cases hbreak : Breaks (entryAt mem d) s.io_apic_base
    · have hd : d < PAGE_SIZE := hpage d (.case hreach hmore (mem_switchBytes_self _ _ _))
      rw [reads_break hmore hentry.symm hbreak] at ha
      rcases List.mem_append.mp ha with ha | ha
      · exact hcase ha
      rcases List.mem_append.mp ha with ha | ha
      · have heq : a = s.header + 1 := by simpa using ha
        exact ⟨d + 1, by rw [heq, hheader, Nat.add_assoc], .step hreach hmore hbreak⟩
      · have hnext : (after s (entryAt mem d)).header = va + (d + (entryAt mem d).length) := by
          show add32 s.header (entryAt mem d).length = _
          have hlen : (entryAt mem d).length < 2 ^ 8 := (mem (d + 1)).toNat_lt
          have hpagesize : PAGE_SIZE = 4096 := rfl
          rw [hheader, add32_of_lt (by omega), Nat.add_assoc]
        exact ih hnext (.next hreach hmore hbreak) ha
    · rw [← hentry] at hcase hbreak
      exact hcase (mem_reads_stay hmore hbreak ha)

/-- The loop comes to every entry of the table, as long as it is in the page. -/
theorem reached_loop {Q : Nat → Prop} (hva : va < 2 ^ 31) (hQ : ∀ d < 2 ^ 31, Q (va + d) → d < PAGE_SIZE)
    (hreads : ∀ n, ∀ a ∈ (acpi_apic n irq va).reads (whole (shifted mem va)), Q a)
    (h : Reached mem d left base) : d < PAGE_SIZE + 2 ^ 8 ∧
      ∃ s : Walk, s.header = va + d ∧ s.length = left ∧ s.io_apic_base = base ∧
        ∀ n, ∀ a ∈ (loop n s).reads (whole (shifted mem va)), Q a := by
  have hpagesize : PAGE_SIZE = 4096 := rfl
  -- on how the loop gets there: with one round more it reads what it read from the next entry
  induction h with
  | first =>
    refine ⟨by decide, start (shifted mem va) irq va, ?_, ?_, rfl, fun n a ha => hreads n a ?_⟩
    · exact add32_of_lt (by unfold apicStr; omega)
    · exact congrArg (sub32 · apicStr) (u32_shifted 4)
    · rw [reads_acpi_apic]
      exact List.mem_append_right _ ha
  | @next d left base h more breaks ih =>
    obtain ⟨hd, s, hheader, hlength, hbase, hin⟩ := ih
    have hentry : entryAt (shifted mem va) s.header = entryAt mem d := by rw [hheader, entryAt_shifted]
    have hmore : s.length ≠ 0 := hlength ▸ more
    have hlen : (entryAt mem d).length < 2 ^ 8 := (mem (d + 1)).toNat_lt
    have hpage : d < PAGE_SIZE := by
      refine hQ d (hd.trans (by decide)) (hin 1 _ ?_)
      rw [← hheader]
      exact switchBytes_subset hmore (mem_switchBytes_self _ _ _)
    refine ⟨by omega, after s (entryAt mem d), ?_, ?_, ?_, fun n a ha => hin (n + 1) a ?_⟩
    · show add32 s.header (entryAt mem d).length = _
      rw [hheader, add32_of_lt (by omega), Nat.add_assoc]
    · exact congrArg (sub32 · _) hlength
    · exact congrArg (fun b => if (entryAt mem d).type = 1 then (entryAt mem d).word else b) hbase
    · rw [reads_break hmore hentry.symm (hbase ▸ breaks)]
      exact List.mem_append_right _ (List.mem_append_right _ ha)

/-- All that matters is looked at. -/
theorem matters_read {Q : Nat → Prop} (hva : va < 2 ^ 31) (hQ : ∀ d < 2 ^ 31, Q (va + d) → d < PAGE_SIZE)
    (hreads : ∀ n, ∀ a ∈ (acpi_apic n irq va).reads (whole (shifted mem va)), Q a)
    (h : Matters mem d) : d < 2 ^ 31 ∧ Q (va + d) := by
  have hpagesize : PAGE_SIZE = 4096 := rfl
  cases h with
  -- the length is read in front of the loop
  | length hd =>
    refine ⟨?_, hreads 0 _ ?_⟩
    · simp at hd
      omega
    · rw [reads_acpi_apic]
      refine List.mem_append_left _ ?_
      simp at hd ⊢
      omega
  -- what the loop reads, it reads in the round in which it gets to this entry
  | @case d left base d' h more hd =>
    obtain ⟨hlt, s, hheader, hlength, hbase, hin⟩ := reached_loop hva hQ hreads h
    have hle := le_of_mem_switchBytes hd
    refine ⟨by omega, hin 1 _ (switchBytes_subset (hlength ▸ more) ?_)⟩
    rw [hheader, entryAt_shifted, hbase, switchBytes_add]
    exact List.mem_map_of_mem hd
  | @step d left base h more breaks =>
    obtain ⟨hlt, s, hheader, hlength, hbase, hin⟩ := reached_loop hva hQ hreads h
    refine ⟨by omega, hin 1 _ ?_⟩
    rw [reads_break (hlength ▸ more) (by rw [hheader, entryAt_shifted]) (hbase ▸ breaks), hheader]
    exact List.mem_append_right _ List.mem_cons_self

/-! ## Reading through the window

The table that was mapped last is in the last page of the window, and behind this page nothing is
mapped. So a byte of it is found exactly if it is in its first page; no entry of the window is
behind it. -/

/-- Behind `x` is the byte of the table that is meant. -/
def RightAt (maps : TempMaps) (table pointer x : Nat) : Prop :=
  maps.translate x = some (table + (x - pointer))

variable {phys : Bytes} {maps : TempMaps} {table pointer : Nat} {places : List Nat} {α : Type}
  {x : Reading Nat UInt8 α} {ps : List Nat}

/-- A place is looked at rightly if the right byte is behind it. -/
theorem forall_looks : (∀ l ∈ looks maps table pointer places, l.Right) ↔
    ∀ x ∈ places, RightAt maps table pointer x := by
  unfold looks
  rw [List.forall_mem_map]
  rfl

/-- A table in physical memory. -/
def bytesOf (phys : Bytes) (table : Nat) : Bytes := fun d => phys (table + d)

/-- Where it is, the value read is that of the table. -/
theorem RightAt.load_eq {a : Nat} (h : RightAt maps table pointer a) :
    load phys maps a = whole (shifted (bytesOf phys table) pointer) a := by
  unfold load
  rw [show maps.translate a = _ from h]
  rfl

/-- Whether all is read rightly can be told from a table that is all there. -/
theorem forall_reads : (∀ l ∈ looks maps table pointer (x.reads (load phys maps)), l.Right) ↔
    ∀ a ∈ x.reads (whole (shifted (bytesOf phys table) pointer)), RightAt maps table pointer a := by
  rw [forall_looks]
  exact Reading.forall_reads_iff fun a ha => ha.load_eq

/-- So a run that reads rightly gives what it would give on the table itself. -/
theorem eval_eq (h : ∀ a ∈ x.reads (whole (shifted (bytesOf phys table) pointer)), RightAt maps table pointer a) :
    x.eval (load phys maps) = x.eval (whole (shifted (bytesOf phys table) pointer)) :=
  (Reading.eval_congr fun a ha => (h a ha).load_eq).1

/-- The page that was mapped last shows its table up to its end. -/
theorem rightAt_last (h : Mapped maps (ps ++ [table])) (hlen : ps.length < 1024) (hd : d < 2 ^ 31)
    (hpointer : pointer = TEMP_MAP_POSITION + PAGE_SIZE * ps.length + table % PAGE_SIZE) :
    RightAt maps table pointer (pointer + d) ↔ table % PAGE_SIZE + d < PAGE_SIZE := by
  have hoff : table % PAGE_SIZE < PAGE_SIZE := Nat.mod_lt _ (by decide)
  have hbase : pageBase table + table % PAGE_SIZE = table := Nat.div_add_mod' table PAGE_SIZE
  have hsum : TEMP_MAP_POSITION + PAGE_SIZE * ps.length + table % PAGE_SIZE + d =
      TEMP_MAP_POSITION + (table % PAGE_SIZE + d + PAGE_SIZE * ps.length) := by omega
  unfold RightAt
  rw [Nat.add_sub_cancel_left, hpointer, hsum]
  generalize table % PAGE_SIZE = off at hoff hbase ⊢
  -- an address above the window has another directory entry, and is not mapped at all
  by_cases hwindow : off + d + PAGE_SIZE * ps.length < 2 ^ 22
  · rw [translate_eq h hwindow, Nat.add_mul_div_left _ _ (by decide), Nat.add_mul_mod_self_left]
    by_cases hpage : off + d < PAGE_SIZE
    · rw [Nat.div_eq_of_lt hpage, Nat.mod_eq_of_lt hpage, Nat.zero_add, List.getElem?_concat_length,
        Option.map_some, ← Nat.add_assoc, hbase]
      exact iff_of_true rfl hpage
    · have hone : 1 ≤ (off + d) / PAGE_SIZE := Nat.div_pos (by omega) (by decide)
      have hbehind : (ps ++ [table]).length ≤ (off + d) / PAGE_SIZE + ps.length := by
        rw [List.length_append, List.length_singleton]
        omega
      rw [List.getElem?_eq_none hbehind]
      exact iff_of_false nofun hpage
  · have hpde : va2pde (TEMP_MAP_POSITION + (off + d + PAGE_SIZE * ps.length)) ≠ va2pde TEMP_MAP_POSITION := by
      unfold va2pde TEMP_MAP_POSITION
      unfold PAGE_SIZE at hwindow hoff ⊢
      omega
    have hpage : ¬ off + d < PAGE_SIZE := by
      unfold PAGE_SIZE at hwindow ⊢
      omega
    unfold TempMaps.translate
    rw [if_neg hpde]
    exact iff_of_false nofun hpage

/-- The walk of the MADT is right if what matters of it is in the page. -/
theorem apic_right (phys : Bytes) (irq : Nat → Nat) (h : Mapped maps (ps ++ [table])) (hlen : ps.length < 1024)
    (hpointer : pointer = TEMP_MAP_POSITION + PAGE_SIZE * ps.length + table % PAGE_SIZE) :
    (∀ n, ∀ l ∈ looks maps table pointer ((acpi_apic n irq pointer).reads (load phys maps)), l.Right) ↔
      ∀ d, Matters (bytesOf phys table) d → table % PAGE_SIZE + d < PAGE_SIZE := by
  have hpagesize : PAGE_SIZE = 4096 := rfl
  have hva : pointer < 2 ^ 31 := by
    rw [hpointer]
    unfold TEMP_MAP_POSITION PAGE_SIZE
    omega
  simp only [forall_reads]
  constructor
  · intro hreads d hd
    have hQ : ∀ d < 2 ^ 31, RightAt maps table pointer (pointer + d) → d < PAGE_SIZE := by
      intro d hd hright
      have := (rightAt_last h hlen hd hpointer).mp hright
      omega
    -- every byte that matters is read with fuel enough
    obtain ⟨hlt, hright⟩ := matters_read hva hQ hreads hd
    exact (rightAt_last h hlen hlt hpointer).mp hright
  · intro hpage n a ha
    have hmatters : ∃ d, a = pointer + d ∧ Matters (bytesOf phys table) d := by
      rw [reads_acpi_apic] at ha
      rcases List.mem_append.mp ha with ha | ha
      · refine ⟨a - pointer, ?_, .length ?_⟩
        · simp at ha
          omega
        · simp at ha ⊢
          omega
      · refine loop_matters (s := start _ irq pointer) (d := apicStr) (fun d hd => ?_) hva ?_ ?_ ha
        · have := hpage d hd
          omega
        · exact add32_of_lt (by unfold apicStr; omega)
        · show Reached _ _ (sub32 ((shifted _ pointer).u32 (pointer + 4)) apicStr) 0
          rw [u32_shifted]
          exact .first
    obtain ⟨d, rfl, hd⟩ := hmatters
    have hlt := hpage d hd
    exact (rightAt_last h hlen (by omega) hpointer).mpr hlt

/-! ## The tables of `init_acpi`

The loop takes the entries of the RSDT one by one and maps the page of each, up to the MADT. A
round is right by itself, and the condition on all rounds is the conjunction of those on each. -/

variable {rsdt i m : Nat}

/-- `rsdt->entry[i]`. -/
def tableAt (phys : Bytes) (rsdt i : Nat) : Nat := phys.u32 (rsdt + (entryOffset + 4 * i))

/-- The tables in the order in which they are mapped. -/
def slot (phys : Bytes) (rsdt : Nat) : Nat → Nat
  | 0 => rsdt
  | i + 1 => tableAt phys rsdt i

/-- `max_entries`. -/
def maxEntries (phys : Bytes) (rsdt : Nat) : Nat := sub32 (phys.u32 (rsdt + 4)) entryOffset / 4

/-- The loop comes to table `i`: no MADT is in front of it. -/
def Examined (phys : Bytes) (rsdt i : Nat) : Prop :=
  i < maxEntries phys rsdt ∧ ∀ j < i, phys.u32 (tableAt phys rsdt j) ≠ MADT_SIGNATURE

/-- In round `i`, the page that the window shows for byte `d` of the RSDT is the one that has it. -/
def Shown (phys : Bytes) (rsdt i d : Nat) : Prop :=
  (rsdt % PAGE_SIZE + d) / PAGE_SIZE ≤ i ∧
    pageBase (slot phys rsdt ((rsdt % PAGE_SIZE + d) / PAGE_SIZE)) =
      pageBase rsdt + PAGE_SIZE * ((rsdt % PAGE_SIZE + d) / PAGE_SIZE)

instance (phys : Bytes) (rsdt i d : Nat) : Decidable (Shown phys rsdt i d) :=
  inferInstanceAs (Decidable (_ ∧ _))

/-- What is read in round `i` is shown: the entry of the RSDT, and what matters of the table. -/
structure CoveredAt (phys : Bytes) (rsdt i : Nat) : Prop where
  entry : ∀ k < 4, Shown phys rsdt i (entryOffset + 4 * i + k)
  signature : tableAt phys rsdt i % PAGE_SIZE + 4 ≤ PAGE_SIZE
  madt : phys.u32 (tableAt phys rsdt i) = MADT_SIGNATURE → ∀ d, Matters (bytesOf phys (tableAt phys rsdt i)) d →
    tableAt phys rsdt i % PAGE_SIZE + d < PAGE_SIZE

/-- The mappings cover the length of the RSDT and all that is read in the loop. -/
structure Covered (phys : Bytes) (rsdt : Nat) : Prop where
  length : rsdt % PAGE_SIZE + 8 ≤ PAGE_SIZE
  round : ∀ i, Examined phys rsdt i → CoveredAt phys rsdt i

/-- The tables that are mapped before round `i`. -/
def slots (phys : Bytes) (rsdt i : Nat) : List Nat := (List.range (i + 1)).map (slot phys rsdt)

/-- One for the RSDT, and one for each round before. -/
theorem slots_length : (slots phys rsdt i).length = i + 1 := by
  unfold slots
  rw [List.length_map, List.length_range]

theorem slots_succ : slots phys rsdt (i + 1) = slots phys rsdt i ++ [tableAt phys rsdt i] := by
  unfold slots
  rw [List.range_succ, List.map_append]
  rfl

/-- The page of table `q` is the one at position `q`. -/
theorem getElem?_slots {q : Nat} : (slots phys rsdt i)[q]? = if q ≤ i then some (slot phys rsdt q) else none := by
  unfold slots
  rw [List.getElem?_map]
  split
  · next hq => rw [List.getElem?_range (by omega), Option.map_some]
  · next hq => rw [List.getElem?_eq_none (by rw [List.length_range]; omega), Option.map_none]

/-- A byte of the RSDT, in the page that the window shows for it. -/
theorem rightAt_rsdt (h : Mapped maps (slots phys rsdt i)) (hd : rsdt % PAGE_SIZE + d < 2 ^ 22) :
    RightAt maps rsdt (TEMP_MAP_POSITION + rsdt % PAGE_SIZE) (TEMP_MAP_POSITION + rsdt % PAGE_SIZE + d) ↔
      Shown phys rsdt i d := by
  have hbase : pageBase rsdt + rsdt % PAGE_SIZE = rsdt := Nat.div_add_mod' rsdt PAGE_SIZE
  have hsplit := Nat.div_add_mod (rsdt % PAGE_SIZE + d) PAGE_SIZE
  unfold RightAt Shown
  rw [Nat.add_sub_cancel_left, Nat.add_assoc, translate_eq h hd, getElem?_slots]
  generalize (rsdt % PAGE_SIZE + d) / PAGE_SIZE = q at hsplit ⊢
  by_cases hq : q ≤ i
  · rw [if_pos hq, Option.map_some, Option.some.injEq]
    constructor
    · intro heq
      exact ⟨hq, by omega⟩
    · rintro ⟨-, heq⟩
      omega
  · rw [if_neg hq]
    exact iff_of_false nofun fun hright => hq hright.1

/-- A property of the four bytes of a word. -/
theorem forall_word {P : Nat → Prop} {a : Nat} :
    (∀ x ∈ (word a).reads (whole mem), P x) ↔ ∀ k < 4, P (a + k) := by
  rw [reads_word]
  constructor
  · intro h k hk
    apply h
    have hcase : k = 0 ∨ k = 1 ∨ k = 2 ∨ k = 3 := by omega
    rcases hcase with rfl | rfl | rfl | rfl <;> simp
  · intro h x hx
    simp at hx
    rcases hx with rfl | rfl | rfl | rfl
    · exact h 0 (by decide)
    · exact h 1 (by decide)
    · exact h 2 (by decide)
    · exact h 3 (by decide)

/-- The word read rightly. -/
theorem word_eval {a : Nat} (hright : ∀ k < 4, RightAt maps table pointer (pointer + a + k)) :
    (word (pointer + a)).eval (load phys maps) = some (phys.u32 (table + a)) := by
  rw [eval_eq (forall_word.mpr hright), eval_word, u32_shifted]
  exact congrArg some (Bytes.u32_congr fun j _ => congrArg phys (Nat.add_assoc table a j).symm)

/-- A word is read rightly if its four bytes are. -/
theorem through_word {a : Nat} : (∀ l ∈ (through phys maps table pointer (word a)).1, l.Right) ↔
    ∀ k < 4, RightAt maps table pointer (a + k) :=
  forall_reads.trans forall_word

/-- A word, and what is done with it. -/
theorem word_andThen {β : Type} {a : Nat} {f : Nat → Looked β} :
    (∀ l ∈ ((through phys maps table pointer (word (pointer + a))).andThen f).1, l.Right) ↔
      (∀ k < 4, RightAt maps table pointer (pointer + a + k)) ∧ ∀ l ∈ (f (phys.u32 (table + a))).1, l.Right := by
  rw [Looked.forall_andThen, through_word]
  refine and_congr_right fun hright => ?_
  have heval : (through phys maps table pointer (word (pointer + a))).2 = some (phys.u32 (table + a)) :=
    word_eval hright
  rw [heval]
  exact ⟨fun h => h _ rfl, fun h b hb => Option.some.inj hb ▸ h⟩

/-- A word is read rightly through the last page if it is in it. -/
theorem word_last {a : Nat} (h : Mapped maps (ps ++ [table])) (hlen : ps.length < 1024) (ha : a < 2 ^ 30)
    (hpointer : pointer = TEMP_MAP_POSITION + PAGE_SIZE * ps.length + table % PAGE_SIZE) :
    (∀ k < 4, RightAt maps table pointer (pointer + a + k)) ↔ table % PAGE_SIZE + (a + 4) ≤ PAGE_SIZE := by
  have hlast : ∀ k < 4, (RightAt maps table pointer (pointer + a + k) ↔ table % PAGE_SIZE + (a + k) < PAGE_SIZE) := by
    intro k hk
    rw [Nat.add_assoc pointer]
    exact rightAt_last h hlen (by omega) hpointer
  constructor
  · intro hright
    have := (hlast 3 (by decide)).mp (hright 3 (by decide))
    omega
  · intro hle k hk
    exact (hlast k hk).mpr (by omega)

/-- The four bytes of an entry of the RSDT. -/
theorem entry_right (h : Mapped maps (slots phys rsdt i)) (hpage : i + 1 < 1024) :
    (∀ k < 4, RightAt maps rsdt (TEMP_MAP_POSITION + rsdt % PAGE_SIZE)
      (TEMP_MAP_POSITION + rsdt % PAGE_SIZE + (entryOffset + 4 * i) + k)) ↔
        ∀ k < 4, Shown phys rsdt i (entryOffset + 4 * i + k) := by
  refine forall₂_congr fun k hk => ?_
  rw [Nat.add_assoc (TEMP_MAP_POSITION + rsdt % PAGE_SIZE)]
  refine rightAt_rsdt h ?_
  unfold PAGE_SIZE entryOffset
  omega

/-- One round: the entry of the RSDT, the signature of its table, and the MADT or the rounds behind it. -/
theorem scanTables_round (n : Nat) (irq : Nat → Nat) (h : Mapped maps (slots phys rsdt i)) (hpage : i + 1 < 1024) :
    ∃ maps', Mapped maps' (slots phys rsdt (i + 1)) ∧
      ((∀ fuel, ∀ l ∈ (scanTables phys fuel irq rsdt (TEMP_MAP_POSITION + rsdt % PAGE_SIZE) (n + 1) i maps).1,
          l.Right) ↔
        CoveredAt phys rsdt i ∧ (phys.u32 (tableAt phys rsdt i) ≠ MADT_SIGNATURE → ∀ fuel,
          ∀ l ∈ (scanTables phys fuel irq rsdt (TEMP_MAP_POSITION + rsdt % PAGE_SIZE) n (i + 1) maps').1,
            l.Right)) := by
  have hlen : (slots phys rsdt i).length < 1024 := by rw [slots_length]; exact hpage
  obtain ⟨maps', hmap, hmapped⟩ := returnVirtualAddress_spec (p := tableAt phys rsdt i) h hlen
  refine ⟨maps', slots_succ ▸ hmapped, ?_⟩
  generalize hpointer : TEMP_MAP_POSITION + PAGE_SIZE * (slots phys rsdt i).length +
    tableAt phys rsdt i % PAGE_SIZE = entry at hmap
  have hsignature := word_last (a := 0) hmapped hlen (by decide) hpointer.symm
  have hmadt := apic_right phys irq hmapped hlen hpointer.symm
  have hround : ∀ fuel,
      (∀ l ∈ (scanTables phys fuel irq rsdt (TEMP_MAP_POSITION + rsdt % PAGE_SIZE) (n + 1) i maps).1, l.Right) ↔
        (∀ k < 4, Shown phys rsdt i (entryOffset + 4 * i + k)) ∧
          tableAt phys rsdt i % PAGE_SIZE + 4 ≤ PAGE_SIZE ∧
          ∀ l ∈ (if phys.u32 (tableAt phys rsdt i) = MADT_SIGNATURE then
              (through phys maps' (tableAt phys rsdt i) entry (acpi_apic fuel irq entry)).andThen fun walk =>
                ([], walk.map (Except.map some))
            else scanTables phys fuel irq rsdt (TEMP_MAP_POSITION + rsdt % PAGE_SIZE) n (i + 1) maps').1,
            l.Right := by
    intro fuel
    rw [scanTables, word_andThen, entry_right h hpage,
      show phys.u32 (rsdt + (entryOffset + 4 * i)) = tableAt phys rsdt i from rfl, hmap]
    exact and_congr_right fun _ => (word_andThen (a := 0)).trans (and_congr_left' hsignature)
  rw [forall_congr' hround, forall_and_left, forall_and_left]
  -- at the MADT the search ends with `acpi_apic`, at any other table it goes on
  by_cases hsig : phys.u32 (tableAt phys rsdt i) = MADT_SIGNATURE
  · simp only [if_pos hsig, Looked.forall_andThen]
    constructor
    · rintro ⟨hshown, hfits, hapic⟩
      exact ⟨⟨hshown, hfits, fun _ => hmadt.mp fun fuel => (hapic fuel).1⟩, fun hne => absurd hsig hne⟩
    · rintro ⟨hcovered, -⟩
      exact ⟨hcovered.entry, hcovered.signature, fun fuel =>
        ⟨hmadt.mpr (hcovered.madt hsig) fuel, fun _ _ l hl => nomatch hl⟩⟩
  · simp only [if_neg hsig]
    constructor
    · rintro ⟨hshown, hfits, hrest⟩
      exact ⟨⟨hshown, hfits, fun heq => absurd heq hsig⟩, fun _ => hrest⟩
    · rintro ⟨hcovered, hrest⟩
      exact ⟨hcovered.entry, hcovered.signature, hrest hsig⟩

/-- **The loop of `init_acpi`.** Induction on the tables left: those in front are mapped. -/
theorem scanTables_right (irq : Nat → Nat) (h : Mapped maps (slots phys rsdt i)) (hi : i + n = maxEntries phys rsdt)
    (hpages : ∀ j, Examined phys rsdt j → j + 1 < 1024)
    (hmadt : ∀ j < i, phys.u32 (tableAt phys rsdt j) ≠ MADT_SIGNATURE) :
    (∀ fuel, ∀ l ∈ (scanTables phys fuel irq rsdt (TEMP_MAP_POSITION + rsdt % PAGE_SIZE) n i maps).1, l.Right) ↔
      ∀ j, i ≤ j → Examined phys rsdt j → CoveredAt phys rsdt j := by
  induction n generalizing i maps with
  | zero =>
    refine iff_of_true (fun fuel l hl => nomatch hl) fun j hj hexamined => ?_
    exact absurd hexamined.1 (by omega)
  | succ n ih =>
    have hexamined : Examined phys rsdt i := ⟨by omega, hmadt⟩
    obtain ⟨maps', hmapped, hround⟩ := scanTables_round n irq h (hpages i hexamined)
    rw [hround]
    by_cases hsig : phys.u32 (tableAt phys rsdt i) = MADT_SIGNATURE
    · constructor
      · rintro ⟨hcovered, -⟩ j hj hj'
        -- no table behind the MADT is examined
        have heq : j = i := by
          by_contra hne
          exact hj'.2 i (by omega) hsig
        exact heq ▸ hcovered
      · intro hall
        exact ⟨hall i le_rfl hexamined, fun hne => absurd hsig hne⟩
    · have hnext : ∀ j < i + 1, phys.u32 (tableAt phys rsdt j) ≠ MADT_SIGNATURE := by
        intro j hj
        rcases Nat.lt_succ_iff_lt_or_eq.mp hj with hlt | rfl
        · exact hmadt j hlt
        · exact hsig
      have hrest := ih hmapped (by omega) hnext
      constructor
      · rintro ⟨hcovered, hlooks⟩ j hj hj'
        rcases Nat.eq_or_lt_of_le hj with rfl | hlt
        · exact hcovered
        · exact hrest.mp (hlooks hsig) j hlt hj'
      · intro hall
        exact ⟨hall i le_rfl hexamined, fun _ => hrest.mpr fun j hj => hall j (by omega)⟩

/-- The length of the RSDT and the loop. The number of tables is `count` of the length here: in numbers
it would be counted out. -/
theorem length_andThen (count : Nat → Nat) {fuel : Nat} :
    (∀ l ∈ ((through phys maps rsdt pointer (word (pointer + 4))).andThen fun length =>
      scanTables phys fuel irq rsdt pointer (count length) 0 maps).1, l.Right) ↔
    (∀ k < 4, RightAt maps rsdt pointer (pointer + 4 + k)) ∧
      ∀ l ∈ (scanTables phys fuel irq rsdt pointer (count (phys.u32 (rsdt + 4))) 0 maps).1, l.Right :=
  word_andThen

/-- **`init_acpi`.** It maps the RSDT, reads its length and goes over the tables. -/
theorem init_acpi_rounds (hpages : ∀ j, Examined phys rsdt j → j + 1 < 1024) :
    (∀ fuel, ∀ l ∈ (init_acpi phys fuel irq rsdt).1, l.Right) ↔
      rsdt % PAGE_SIZE + 8 ≤ PAGE_SIZE ∧ ∀ i, 0 ≤ i → Examined phys rsdt i → CoveredAt phys rsdt i := by
  obtain ⟨maps, hmap, hmapped⟩ := returnVirtualAddress_spec (p := rsdt) mapped_nil (Nat.zero_lt_succ _)
  rw [List.length_nil, Nat.mul_zero, Nat.add_zero] at hmap
  have hslots : Mapped maps (slots phys rsdt 0) := hmapped
  have hloop := scanTables_right irq hslots (Nat.zero_add (maxEntries phys rsdt)) hpages nofun
  have hlength : ∀ pointer, pointer = TEMP_MAP_POSITION + rsdt % PAGE_SIZE →
      ((∀ k < 4, RightAt maps rsdt pointer (pointer + 4 + k)) ↔ rsdt % PAGE_SIZE + 8 ≤ PAGE_SIZE) :=
    fun pointer hpointer => word_last hmapped (Nat.zero_lt_succ _) (by decide)
      (by rw [hpointer, List.length_nil, Nat.mul_zero, Nat.add_zero])
  generalize TEMP_MAP_POSITION + rsdt % PAGE_SIZE = pointer at hmap hloop hlength
  -- whatever the fuel, the rounds are those of the loop over the slots
  have hrun : ∀ fuel, (∀ l ∈ (init_acpi phys fuel irq rsdt).1, l.Right) ↔
      rsdt % PAGE_SIZE + 8 ≤ PAGE_SIZE ∧
        ∀ l ∈ (scanTables phys fuel irq rsdt pointer (maxEntries phys rsdt) 0 maps).1, l.Right := by
    intro fuel
    unfold init_acpi
    rw [hmap]
    exact (length_andThen _).trans (and_congr_left' (hlength pointer rfl))
  rw [forall_congr' hrun, forall_and_left, hloop]

/-- **What the mappings cover.** With no more than 1024 pages to map, every byte of a table is read
where it is, if and only if the length of the RSDT, the signatures and what matters of the MADT are in
their first pages, and every entry of the RSDT that is behind its first page is in a page that the
window shows in the right place. -/
theorem init_acpi_covered (hpages : ∀ j, Examined phys rsdt j → j + 1 < 1024) :
    (∀ fuel, ∀ l ∈ (init_acpi phys fuel irq rsdt).1, l.Right) ↔ Covered phys rsdt := by
  rw [init_acpi_rounds hpages]
  constructor
  · rintro ⟨hlength, hround⟩
    exact ⟨hlength, fun i hi => hround i (Nat.zero_le i) hi⟩
  · intro h
    exact ⟨h.length, fun i _ hi => h.round i hi⟩

/-- Words in a memory of zeroes. -/
def holdingWords (words : List (Nat × Nat)) : Bytes :=
  words.foldl (fun phys w => phys.setU32 w.1 w.2) fun _ => 0

/-- The RSDT and a MADT with one I/O APIC, at the beginning of two pages. -/
def alignedTables : Bytes :=
  holdingWords [(0x7FE0004, 40), (0x7FE0024, 0x7FE1000), (0x7FE1000, MADT_SIGNATURE), (0x7FE1004, 56),
    (0x7FE102C, 0x0C01)]

/-- The loop comes to one entry, and then to the end. -/
theorem alignedTables_reached (h : Reached (bytesOf alignedTables 0x7FE1000) d left base) :
    d = 44 ∧ left = 12 ∨ left = 0 := by
  induction h with
  | first => exact Or.inl ⟨rfl, by decide +kernel⟩
  | next h more breaks ih =>
    rcases ih with ⟨rfl, rfl⟩ | hzero
    · exact Or.inr (by decide +kernel)
    · exact absurd hzero more

theorem alignedTables_examined {j : Nat} (h : Examined alignedTables 0x7FE0000 j) : j = 0 := by
  have hcount : maxEntries alignedTables 0x7FE0000 = 1 := by decide +kernel
  have hlt := h.1
  omega

/-- Everything that matters is in these two pages. -/
theorem alignedTables_covered : Covered alignedTables 0x7FE0000 := by
  refine ⟨by decide +kernel, fun i hi => ?_⟩
  rw [alignedTables_examined hi]
  have htable : tableAt alignedTables 0x7FE0000 0 = 0x7FE1000 := by decide +kernel
  refine ⟨by decide +kernel, by decide +kernel, fun _ d hd => ?_⟩
  rw [htable] at hd ⊢
  -- the table is 52 bytes long and lies at the start of a page
  have hle : d ≤ 51 := by
    cases hd with
    | length hd =>
      simp at hd
      omega
    | case h more hd =>
      have hle := le_of_mem_switchBytes hd
      have hreach := alignedTables_reached h
      omega
    | step h more breaks =>
      have hreach := alignedTables_reached h
      omega
  show 0x7FE1000 % 4096 + d < 4096
  omega

theorem init_acpi_covered_aligned : Covered alignedTables 0x7FE0000 ∧
    ∀ fuel, ∀ l ∈ (init_acpi alignedTables fuel id 0x7FE0000).1, l.Right := by
  refine ⟨alignedTables_covered, (init_acpi_covered fun j hj => ?_).mpr alignedTables_covered⟩
  rw [alignedTables_examined hj]
  decide

/-- An RSDT of two entries, the second one in the next page. -/
def crossingTables : Bytes :=
  holdingWords [(0x7FE0FDC, 44), (0x7FE0FFC, 0x7FE4000), (0x7FE1000, 0x7FE5000)]

/-- The second entry is looked for in the page of the first table. -/
theorem not_right_crossing :
    ¬ ∀ phys rsdt irq, (∀ j, Examined phys rsdt j → j + 1 < 1024) →
      ∀ fuel, ∀ l ∈ (init_acpi phys fuel irq rsdt).1, l.Right := by
  intro h
  have hcount : maxEntries crossingTables 0x7FE0FD8 = 2 := by decide +kernel
  have hpages : ∀ j, Examined crossingTables 0x7FE0FD8 j → j + 1 < 1024 := by
    intro j hj
    have hlt := hj.1
    omega
  have hcovered := (init_acpi_rounds hpages).mp (h crossingTables 0x7FE0FD8 id hpages)
  have hexamined : Examined crossingTables 0x7FE0FD8 1 := ⟨by rw [hcount]; decide, by decide +kernel⟩
  exact absurd ((hcovered.2 1 (Nat.zero_le 1) hexamined).entry 0 (by decide +kernel)).2
    (by decide +kernel)

end Acpi

end NorlitOS
