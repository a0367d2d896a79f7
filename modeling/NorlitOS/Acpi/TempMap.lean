import NorlitOS.Acpi.Madt
import NorlitOS.Process.Kernel

/-!
# Temporary mappings (`returnVirtualAddress`, `init_acpi`)

The tables are somewhere in physical memory. To read one, `init_acpi` maps the page it begins in, at
the first free entry of a page table of its own. What is behind this page in physical memory is not
mapped; behind it in the window is the table that is mapped next.

`init_acpi` gives what it has looked at: the table, the offset into it, and where the page table has
led it.
-/

namespace NorlitOS

namespace Acpi

/-! ## The page table

One page table at `0x40000000`, with 1024 entries that are taken from the front. Nothing ever
gives an entry back. -/

/-- `TEMP_MAP_POSITION`. -/
def TEMP_MAP_POSITION : Nat := 0x40000000

/-- The page table at `kernelPDE[va2pde(TEMP_MAP_POSITION)]`, if there is one. -/
abbrev TempMaps := Option (Nat → Nat)

/-- `while(BIT_TEST(*pg,0))pg++`, with `n` words of the page left. -/
def freeEntry (pgo : Nat → Nat) : Nat → Nat → Option Nat
  | 0, _ => none
  | n + 1, pg => if (pgo pg).testBit 0 then freeEntry pgo n (pg + 1) else some pg

/-- `returnVirtualAddress`. -/
def returnVirtualAddress (maps : TempMaps) (phyaddr : Nat) : Except Stop (Nat × TempMaps) :=
  let pgo := maps.getD fun _ => 0
  match freeEntry pgo 1024 0 with
  | none => .error .wild
  | some pg =>
    .ok (TEMP_MAP_POSITION + pg * 4 * 1024 + phyaddr % PAGE_SIZE,
      some (Function.update pgo pg (pageBase phyaddr + 0b11011)))

/-- The physical address behind an address of the window. -/
def TempMaps.translate (maps : TempMaps) (x : Nat) : Option Nat :=
  if va2pde x = va2pde TEMP_MAP_POSITION then
    maps.bind fun pgo =>
      if (pgo (va2pte x)).testBit 0 then some (pageBase (pgo (va2pte x)) + x % PAGE_SIZE) else none
  else none

/-! ## `init_acpi`

Reads go through `Look`, so that of each byte it is known which table was meant. A byte that is
not mapped is a page fault, and ends what the function can do. -/

/-- A byte that is read: in which table and where in it, and the physical address found. -/
structure Look where
  table : Nat
  offset : Nat
  found : Option Nat

/-- The byte read is the byte meant. -/
def Look.Right (l : Look) : Prop := l.found = some (l.table + l.offset)

/-- A byte through the window. -/
def load (phys : Bytes) (maps : TempMaps) (x : Nat) : Option UInt8 := (maps.translate x).map phys

/-- The places read through the pointer to a table. -/
def looks (maps : TempMaps) (table pointer : Nat) (places : List Nat) : List Look :=
  places.map fun x => ⟨table, x - pointer, maps.translate x⟩

/-- What has been looked at, and the value. There is none behind a page fault, and none while
`acpi_apic` goes on. -/
abbrev Looked (α : Type) := List Look × Option α

/-- One after the other; behind a page fault nothing is looked at. -/
def Looked.andThen {α β : Type} (x : Looked α) (f : α → Looked β) : Looked β :=
  match x.2 with
  | none => (x.1, none)
  | some a => (x.1 ++ (f a).1, (f a).2)

/-- A table read through its pointer. -/
def through {α : Type} (phys : Bytes) (maps : TempMaps) (table pointer : Nat) (x : Reading Nat UInt8 α) :
    Looked α :=
  (looks maps table pointer (x.reads (load phys maps)), x.eval (load phys maps))

/-- `offsetof(struct ACPI_RSDT, entry)`. -/
def entryOffset : Nat := 36

/-- `"APIC"`. -/
def MADT_SIGNATURE : Nat := 0x43495041

/-- The loop over the tables, with `n` of them left. -/
def scanTables (phys : Bytes) (fuel : Nat) (irqOverride : Nat → Nat) (rsdt pointer : Nat) :
    Nat → Nat → TempMaps → Looked (Except Stop (Option Walk))
  | 0, _, _ => ([], some (.ok none))
  | n + 1, index, maps =>
    (through phys maps rsdt pointer (word (pointer + (entryOffset + 4 * index)))).andThen fun table =>
      match returnVirtualAddress maps table with
      | .error e => ([], some (.error e))
      | .ok (entry, maps) =>
        (through phys maps table entry (word entry)).andThen fun signature =>
          if signature = MADT_SIGNATURE then
            (through phys maps table entry (acpi_apic fuel irqOverride entry)).andThen fun walk =>
              ([], walk.map (Except.map some))
          else scanTables phys fuel irqOverride rsdt pointer n (index + 1) maps

/-- `init_acpi`, from the address of the RSDT to the end of its loop. -/
def init_acpi (phys : Bytes) (fuel : Nat) (irqOverride : Nat → Nat) (rsdt : Nat) :
    Looked (Except Stop (Option Walk)) :=
  match returnVirtualAddress none rsdt with
  | .error e => ([], some (.error e))
  | .ok (pointer, maps) =>
    (through phys maps rsdt pointer (word (pointer + 4))).andThen fun length =>
      scanTables phys fuel irqOverride rsdt pointer (sub32 length entryOffset / 4) 0 maps

/-- A property of all looks is one of those of both parts. -/
theorem Looked.forall_andThen {α β : Type} {x : Looked α} {f : α → Looked β} {P : Look → Prop} :
    (∀ l ∈ (x.andThen f).1, P l) ↔ (∀ l ∈ x.1, P l) ∧ ∀ a, x.2 = some a → ∀ l ∈ (f a).1, P l := by
  unfold Looked.andThen
  cases hx : x.2 with
  | none => exact ⟨fun h => ⟨h, nofun⟩, fun h => h.1⟩
  | some a =>
    dsimp only
    rw [List.forall_mem_append]
    exact and_congr_right fun _ => ⟨fun h a' ha' => Option.some.inj ha' ▸ h, fun h => h a rfl⟩

/-! ## What is mapped

The window is a list of pages: `Mapped maps ps` says that page `j` of the window is the page of
`ps[j]`. -/

/-- The pages of these addresses are mapped, one behind the other. -/
def Mapped (maps : TempMaps) (ps : List Nat) : Prop :=
  ∀ j, (maps.getD fun _ => 0) j = ((ps[j]?).map fun p => pageBase p + 0b11011).getD 0

variable {maps : TempMaps} {ps : List Nat} {p x d : Nat}

/-- At the beginning nothing is mapped. -/
theorem mapped_nil : Mapped none [] := fun _ => rfl

theorem testBit_entry (p : Nat) : (pageBase p + 0b11011).testBit 0 = true := by
  rw [Nat.testBit_zero, decide_eq_true_eq]
  unfold pageBase PAGE_SIZE
  omega

theorem pageBase_entry (p : Nat) : pageBase (pageBase p + 0b11011) = pageBase p := by
  unfold pageBase PAGE_SIZE
  omega

/-- The loop comes to the first entry behind those in use. Induction on the words left. -/
theorem freeEntry_eq (h : Mapped maps ps) {n pg : Nat} (hpg : pg ≤ ps.length) (hn : ps.length < pg + n) :
    freeEntry (maps.getD fun _ => 0) n pg = some ps.length := by
  induction n generalizing pg with
  | zero => omega
  | succ n ih =>
    rw [freeEntry, h pg]
    by_cases hlt : pg < ps.length
    · rw [List.getElem?_eq_getElem hlt, Option.map_some, Option.getD_some, if_pos (testBit_entry _)]
      exact ih hlt (by omega)
    · have heq : pg = ps.length := by omega
      rw [List.getElem?_eq_none (by omega), if_neg (by decide), heq]

/-- **A new mapping.** It is behind the others. -/
theorem returnVirtualAddress_spec (h : Mapped maps ps) (hlen : ps.length < 1024) :
    ∃ maps', returnVirtualAddress maps p =
        .ok (TEMP_MAP_POSITION + PAGE_SIZE * ps.length + p % PAGE_SIZE, maps') ∧ Mapped maps' (ps ++ [p]) := by
  refine ⟨some (Function.update (maps.getD fun _ => 0) ps.length (pageBase p + 0b11011)), ?_, fun j => ?_⟩
  · unfold returnVirtualAddress
    dsimp only
    rw [freeEntry_eq h (Nat.zero_le _) (by omega)]
    show Except.ok (TEMP_MAP_POSITION + ps.length * 4 * 1024 + p % PAGE_SIZE, _) = _
    rw [Nat.mul_assoc, Nat.mul_comm ps.length]
    rfl
  · show Function.update (maps.getD fun _ => 0) ps.length (pageBase p + 0b11011) j = _
    rcases Nat.lt_trichotomy j ps.length with hlt | rfl | hgt
    · rw [Function.update_of_ne hlt.ne, List.getElem?_append_left hlt]
      exact h j
    · rw [Function.update_self, List.getElem?_concat_length]
      rfl
    · rw [Function.update_of_ne hgt.ne', h j, List.getElem?_eq_none hgt.le,
        List.getElem?_eq_none (by rw [List.length_append, List.length_singleton]; omega)]

/-- The window shows the pages one behind the other. -/
theorem translate_eq (h : Mapped maps ps) (hx : x < 2 ^ 22) : maps.translate (TEMP_MAP_POSITION + x) =
    (ps[x / PAGE_SIZE]?).map fun p => pageBase p + x % PAGE_SIZE := by
  have hpde : va2pde (TEMP_MAP_POSITION + x) = va2pde TEMP_MAP_POSITION := by
    unfold va2pde TEMP_MAP_POSITION
    omega
  have hpte : va2pte (TEMP_MAP_POSITION + x) = x / PAGE_SIZE := by
    unfold va2pte TEMP_MAP_POSITION PAGE_SIZE
    omega
  have hoff : (TEMP_MAP_POSITION + x) % PAGE_SIZE = x % PAGE_SIZE := by
    unfold TEMP_MAP_POSITION PAGE_SIZE
    omega
  have hword := h (x / PAGE_SIZE)
  unfold TempMaps.translate
  rw [if_pos hpde, hpte, hoff]
  -- without a table nothing has been mapped yet
  cases maps with
  | none =>
    cases hp : ps[x / PAGE_SIZE]? with
    | none => rfl
    | some p =>
      rw [hp] at hword
      have hbit := testBit_entry p
      rw [← show 0 = pageBase p + 0b11011 from hword] at hbit
      exact absurd hbit (by decide)
  | some pgo =>
    show (if (pgo (x / PAGE_SIZE)).testBit 0 then _ else _) = _
    rw [show pgo (x / PAGE_SIZE) = _ from hword]
    cases ps[x / PAGE_SIZE]? with
    | none => rfl
    | some p =>
      rw [Option.map_some, Option.getD_some, if_pos (testBit_entry p), pageBase_entry]
      rfl

end Acpi

end NorlitOS
