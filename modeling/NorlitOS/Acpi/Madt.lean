import NorlitOS.Lib.Bytes
import NorlitOS.Lib.Loop
import NorlitOS.Lib.Reading
import NorlitOS.Machine
import Mathlib.Logic.Function.Basic

/-!
# The interrupt table (`acpi_apic` of `driver/acpi.c`)

The table (MADT) is a header and a sequence of entries, each with its type and its length. The loop
counts the processors, takes the address of the I/O APIC and notes which interrupts are wired
otherwise. A second I/O APIC is answered with a message and `continue`, inside the `switch`: the
loop comes to the same entry again, and prints the message for ever.
-/

namespace NorlitOS

namespace Acpi

/-! ## The function

Every byte the function looks at is a read of the memory it is given, so that one definition
serves for the walk here and for the question which bytes are read. `case` labels that `break` and
the one that says `continue` are the two ways to leave the `switch`. -/

/-- A `u32` behind a pointer. -/
def word (a : Nat) : Reading Nat UInt8 Nat := do
  let b₀ ← .get a
  let b₁ ← .get (a + 1)
  let b₂ ← .get (a + 2)
  let b₃ ← .get (a + 3)
  return b₀.toNat + 0x100 * b₁.toNat + 0x10000 * b₂.toNat + 0x1000000 * b₃.toNat

/-- `offsetof(struct ACPI_MADT,apic_str)`. -/
def apicStr : Nat := 44

/-- The length of `irqOverride`. -/
def IRQS : Nat := 16

/-- The locals of `acpi_apic`, and `irqOverride`. `visited` are the entries the loop has come to. -/
structure Walk where
  length : Nat
  header : Nat
  pros : Nat
  io_apic_base : Nat
  irqOverride : Nat → Nat
  visited : List Nat

/-- How a `case` is left. -/
inductive Case where
  | brk (s : Walk)
  | cont (s : Walk)

/-- `switch(header->type)`. -/
def switch (s : Walk) : Reading Nat UInt8 (Except Stop Case) := do
  let type ← .get s.header
  if type.toNat = 0 then
    -- a `u8`
    return .ok (.brk { s with pros := (s.pros + 1) % 2 ^ 8 })
  else if type.toNat = 1 then
    -- `continue`, before the pointer has moved
    if s.io_apic_base ≠ 0 then return .ok (.cont s)
    else
      let io_apic_addr ← word (s.header + 4)
      return .ok (.brk { s with io_apic_base := io_apic_addr })
  else if type.toNat = 2 then
    let source ← .get (s.header + 3)
    let interrupt ← word (s.header + 4)
    -- the source has no such test; outside the array the write goes anywhere
    if source.toNat < IRQS then
      return .ok (.brk { s with irqOverride := Function.update s.irqOverride source.toNat interrupt })
    else return .error .wild
  else return .ok (.brk s)

/-- The two statements behind the `switch`. -/
def advance (s : Walk) : Reading Nat UInt8 Walk := do
  let length ← .get (s.header + 1)
  let length' ← .get (s.header + 1)
  return { s with length := sub32 s.length length.toNat, header := add32 s.header length'.toNat }

/-- The loop has come to an entry. -/
def Walk.come (s : Walk) : Walk := { s with visited := s.visited ++ [s.header] }

/-- `while(length)`, for `n` rounds at most. -/
def loop : Nat → Walk → Reading Nat UInt8 (Option (Except Stop Walk))
  | 0, _ => return none
  | n + 1, s => do
    -- the test is for zero, not for what a header needs
    if s.length = 0 then return some (.ok s)
    else
      match ← switch s.come with
      | .error e => return some (.error e)
      | .ok (.cont s) => loop n s
      | .ok (.brk s) => advance s >>= loop n

/-- `acpi_apic`, up to the end of its loop. -/
def acpi_apic (n : Nat) (irqOverride : Nat → Nat) (madt : Nat) :
    Reading Nat UInt8 (Option (Except Stop Walk)) := do
  let length ← word (madt + 4)
  loop n ⟨sub32 length apicStr, add32 madt apicStr, 0, 0, irqOverride, []⟩

/-! ## The table

What a table says, without the loop: a list of entries, and from it the number of processors, the
address of the I/O APIC and the interrupts that are wired otherwise. -/

/-- What the loop looks at in an entry. The word is the address of an I/O APIC or the number of an
interrupt. -/
structure Entry where
  type : Nat
  length : Nat
  source : Nat
  word : Nat
  deriving DecidableEq

def entryAt (mem : Bytes) (header : Nat) : Entry where
  type := (mem header).toNat
  length := (mem (header + 1)).toNat
  source := (mem (header + 3)).toNat
  word := mem.u32 (header + 4)

/-- Entries one behind the other, of two bytes at least, that fill `length` bytes. -/
inductive Entries (mem : Bytes) : Nat → Nat → List Entry → Prop
  | nil (header : Nat) : Entries mem header 0 []
  | cons {header length : Nat} {es : List Entry} (two_le : 2 ≤ (entryAt mem header).length)
      (le : (entryAt mem header).length ≤ length)
      (rest : Entries mem (add32 header (entryAt mem header).length)
        (length - (entryAt mem header).length) es) :
      Entries mem header length (entryAt mem header :: es)

/-- Where the entries are. -/
def headers : Nat → List Entry → List Nat
  | _, [] => []
  | header, e :: es => header :: headers (add32 header e.length) es

def isProcessor (e : Entry) : Bool := e.type == 0

/-- The addresses of the I/O APICs. -/
def ioApics (es : List Entry) : List Nat := (es.filter fun e => e.type == 1).map Entry.word

/-- The interrupts, with those of the entries in their places. -/
def overrides (irqOverride : Nat → Nat) (es : List Entry) : Nat → Nat :=
  es.foldl (fun irq e => if e.type = 2 then Function.update irq e.source e.word else irq) irqOverride

/-- The loop has been over the entries, and has what they say. -/
structure Walked (irqOverride : Nat → Nat) (header : Nat) (es : List Entry) (s : Walk) : Prop where
  visited : s.visited = headers header es
  pros : s.pros = es.countP isProcessor
  io_apic_base : s.io_apic_base = (ioApics es).headD 0
  irqOverride : s.irqOverride = overrides irqOverride es

/-- `acpi_apic` comes to the end of the table, with what the entries say. -/
def Walks (mem : Bytes) (irqOverride : Nat → Nat) (madt : Nat) (es : List Entry) : Prop :=
  ∃ s, Loop.Returns (fun n => ((acpi_apic n irqOverride madt).eval fun a => some (mem a)).join) (.ok s) ∧
    Walked irqOverride (add32 madt apicStr) es s

/-- Entries that the loop is made for. -/
structure Orderly (es : List Entry) : Prop where
  ioApics : (ioApics es).length ≤ 1 ∨ ∀ a ∈ ioApics es, a = 0
  pros : es.countP isProcessor < 2 ^ 8
  source : ∀ e ∈ es, e.type = 2 → e.source < IRQS

/-! ## One round

In a memory that can be read everywhere a round is one of three things: it breaks and goes on
behind the entry, it stays at the entry, or it writes outside the array. -/

/-- A memory in which every byte can be read. -/
def whole (mem : Bytes) (a : Nat) : Option UInt8 := some (mem a)

variable {mem : Bytes} {s s' : Walk} {es : List Entry} {e : Entry} {n a madt : Nat} {irq : Nat → Nat}

@[simp] theorem eval_word : (word a).eval (whole mem) = some (mem.u32 a) := rfl

/-- What the `switch` does at an entry. -/
def outcome (e : Entry) (s : Walk) : Except Stop Case :=
  if e.type = 0 then .ok (.brk { s with pros := (s.pros + 1) % 2 ^ 8 })
  else if e.type = 1 then
    if s.io_apic_base ≠ 0 then .ok (.cont s) else .ok (.brk { s with io_apic_base := e.word })
  else if e.type = 2 then
    if e.source < IRQS then
      .ok (.brk { s with irqOverride := Function.update s.irqOverride e.source e.word })
    else .error .wild
  else .ok (.brk s)

/-- The `switch` looks at the entry only. -/
theorem eval_switch : (switch s).eval (whole mem) = some (outcome (entryAt mem s.header) s) := by
  unfold switch outcome entryAt
  rw [Reading.eval_bind_of_eq (a := mem s.header) rfl]
  dsimp only
  split_ifs with h₀ h₁ hbase h₂ hsource <;> try rfl
  · rw [Reading.eval_bind_of_eq (a := mem (s.header + 3)) rfl, Reading.eval_bind_of_eq eval_word,
      if_pos hsource]
    rfl
  · rw [Reading.eval_bind_of_eq (a := mem (s.header + 3)) rfl, Reading.eval_bind_of_eq eval_word,
      if_neg hsource]
    rfl

theorem eval_advance : (advance s).eval (whole mem) = some { s with
    length := sub32 s.length (entryAt mem s.header).length
    header := add32 s.header (entryAt mem s.header).length } := rfl

/-- The loop with `n` rounds of fuel: what it gives if it returns. -/
def run (mem : Bytes) (n : Nat) (s : Walk) : Option (Except Stop Walk) := ((loop n s).eval (whole mem)).join

/-- No length is left, and the loop ends. -/
theorem run_end (h : s.length = 0) : run mem (n + 1) s = some (.ok s) := by
  unfold run loop
  rw [if_pos h]
  rfl

/-- The entry is noted, and the pointer stays. -/
@[simp] theorem come_header : s.come.header = s.header := rfl

/-- The entry is behind the loop. -/
def pass (e : Entry) (s : Walk) : Walk :=
  { s with length := sub32 s.length e.length, header := add32 s.header e.length }

/-- A round is the `switch` and what is behind it. -/
theorem run_round (h : s.length ≠ 0) : run mem (n + 1) s =
    match outcome (entryAt mem s.header) s.come with
    | .error e => some (.error e)
    | .ok (.cont s) => run mem n s
    | .ok (.brk s) => run mem n (pass (entryAt mem s.header) s) := by
  unfold run
  rw [loop, if_neg h, Reading.eval_bind_of_eq eval_switch, come_header]
  split
  · rfl
  · rfl
  · rw [Reading.eval_bind_of_eq eval_advance]
    rfl

/-- The state behind an entry that the `switch` breaks from. -/
def after (s : Walk) (e : Entry) : Walk where
  length := sub32 s.length e.length
  header := add32 s.header e.length
  pros := if isProcessor e then (s.pros + 1) % 2 ^ 8 else s.pros
  io_apic_base := if e.type = 1 then e.word else s.io_apic_base
  irqOverride := if e.type = 2 then Function.update s.irqOverride e.source e.word else s.irqOverride
  visited := s.visited ++ [s.header]

/-- The first I/O APIC, an interrupt of the array, and every other entry are left with `break`. -/
theorem outcome_break (hio : e.type = 1 → s.io_apic_base = 0) (hirq : e.type = 2 → e.source < IRQS) :
    outcome e s.come = .ok (.brk { after s e with length := s.length, header := s.header }) := by
  unfold outcome after isProcessor Walk.come
  -- one case for each `case`, and the default
  by_cases h₀ : e.type = 0
  · simp [h₀]
  by_cases h₁ : e.type = 1
  · simp [h₁, hio h₁]
  by_cases h₂ : e.type = 2
  · simp [h₂, hirq h₂]
  · simp [h₀, h₁, h₂]

/-- A second I/O APIC is left with `continue`. -/
theorem outcome_continue (htype : e.type = 1) (hio : s.io_apic_base ≠ 0) :
    outcome e s.come = .ok (.cont s.come) := by
  unfold outcome Walk.come
  simp [htype, hio]

/-- An interrupt outside the array is written all the same. -/
theorem outcome_wild (htype : e.type = 2) (hirq : ¬ e.source < IRQS) : outcome e s.come = .error .wild := by
  unfold outcome
  simp [htype, hirq]

/-- A round that breaks is followed by the round at the next entry. -/
theorem run_break (h : s.length ≠ 0) (he : e = entryAt mem s.header)
    (hio : e.type = 1 → s.io_apic_base = 0) (hirq : e.type = 2 → e.source < IRQS) :
    run mem (n + 1) s = run mem n (after s e) := by
  rw [run_round h, ← he, outcome_break hio hirq, he]
  rfl

/-- **`continue`.** A second I/O APIC is never left. Induction on the fuel; the entry stays the same. -/
theorem run_continue (h : s.length ≠ 0) (htype : (entryAt mem s.header).type = 1)
    (hio : s.io_apic_base ≠ 0) : run mem n s = none := by
  induction n generalizing s with
  | zero => rfl
  | succ n ih =>
    rw [run_round h, outcome_continue htype hio]
    exact ih h htype hio

/-- A write outside the array ends what can be said of the loop. -/
theorem run_wild (h : s.length ≠ 0) (htype : (entryAt mem s.header).type = 2)
    (hirq : ¬ (entryAt mem s.header).source < IRQS) : run mem (n + 1) s = some (.error .wild) := by
  rw [run_round h, outcome_wild htype hirq]

/-! ## All rounds

The loop gets over an entry if no I/O APIC has been found before another one and every interrupt
is one of the array. Where it gets over all of them it ends, and otherwise it has no result. -/

/-- The loop gets over the entries, with `base` for the I/O APIC it has: none has found another one
in front of it, and every interrupt is one of the array. -/
def Passes : Nat → List Entry → Prop
  | _, [] => True
  | base, e :: es =>
    (e.type = 1 → base = 0) ∧ (e.type = 2 → e.source < IRQS) ∧
      Passes (if e.type = 1 then e.word else base) es

/-- While there are entries there is length left. -/
theorem Entries.length_ne {header length : Nat} (h : Entries mem header length (e :: es)) : length ≠ 0 := by
  cases h with
  | cons two_le le rest => omega

/-- The first entry is the one at the pointer. -/
theorem Entries.head {header length : Nat} (h : Entries mem header length (e :: es)) :
    e = entryAt mem header := by
  cases h with
  | cons two_le le rest => rfl

/-- The others are behind it, and the length does not wrap around. -/
theorem Entries.tail (h : Entries mem s.header s.length (e :: es)) (hlen : s.length < 2 ^ 32) :
    Entries mem (after s e).header (after s e).length es ∧ (after s e).length < 2 ^ 32 := by
  have he := h.head
  generalize hheader : s.header = header at h he
  generalize hlength : s.length = length at h hlen
  cases h with
  | cons two_le le rest =>
    have hrest : (after s (entryAt mem header)).length = length - (entryAt mem header).length := by
      show sub32 s.length _ = _
      rw [hlength, sub32_of_le le hlen]
    have hnext : (after s (entryAt mem header)).header = add32 header (entryAt mem header).length := by
      show add32 s.header _ = _
      rw [hheader]
    rw [hrest, hnext]
    exact ⟨rest, by omega⟩

/-- Round by round the entries are folded into the state. -/
theorem run_passes (h : Entries mem s.header s.length es) (hlen : s.length < 2 ^ 32)
    (hpass : Passes s.io_apic_base es) : Loop.Returns (fun n => run mem n s) (.ok (es.foldl after s)) := by
  induction es generalizing s with
  | nil =>
    have hzero : s.length = 0 := by
      generalize s.length = length at h
      cases h
      rfl
    exact Loop.Returns.round (Loop.Returns.of_some _) fun n => run_end hzero
  | cons e es ih =>
    obtain ⟨hio, hirq, hrest⟩ := hpass
    obtain ⟨htail, htaillen⟩ := h.tail hlen
    -- one round for the entry in front, and induction for those behind it
    exact Loop.Returns.round (ih htail htaillen hrest) fun n => run_break h.length_ne h.head hio hirq

/-- With an entry it does not get over, the loop gives no result, however many rounds it has: it
stays there, or it has written outside the array. -/
theorem run_ne_ok (h : Entries mem s.header s.length es) (hlen : s.length < 2 ^ 32)
    (hpass : ¬ Passes s.io_apic_base es) : run mem n s ≠ some (.ok s') := by
  induction es generalizing s n with
  | nil => exact absurd trivial hpass
  | cons e es ih =>
    cases n with
    | zero => exact nofun
    | succ n =>
      have he := h.head
      -- the entry in front fails one of the two tests, or those behind it do
      by_cases hio : e.type = 1 → s.io_apic_base = 0
      · by_cases hirq : e.type = 2 → e.source < IRQS
        · obtain ⟨htail, htaillen⟩ := h.tail hlen
          rw [run_break h.length_ne he hio hirq]
          exact ih htail htaillen fun hrest => hpass ⟨hio, hirq, hrest⟩
        · obtain ⟨htype, hsource⟩ := Classical.not_imp.mp hirq
          rw [run_wild h.length_ne (he ▸ htype) (he ▸ hsource)]
          exact nofun
      · obtain ⟨htype, hbase⟩ := Classical.not_imp.mp hio
        rw [run_continue h.length_ne (he ▸ htype) hbase]
        exact nofun

/-- The first entry may be one of them. -/
theorem ioApics_cons : ioApics (e :: es) = if e.type = 1 then e.word :: ioApics es else ioApics es := by
  unfold ioApics
  by_cases h : e.type = 1
  · rw [List.filter_cons_of_pos (by simpa using h), if_pos h, List.map_cons]
  · rw [List.filter_cons_of_neg (by simpa using h), if_neg h]

/-- Every I/O APIC but the last is at 0, if the entries are passed. -/
theorem passes_iff {base : Nat} : Passes base es ↔
    (∀ e ∈ es, e.type = 2 → e.source < IRQS) ∧ ∀ a ∈ (base :: ioApics es).dropLast, a = 0 := by
  induction es generalizing base with
  | nil => exact iff_of_true trivial ⟨nofun, nofun⟩
  | cons e es ih =>
    rw [Passes, ih, ioApics_cons, List.forall_mem_cons]
    by_cases h : e.type = 1
    -- an I/O APIC becomes the base that the later ones are tested against
    · rw [if_pos h, if_pos h, List.dropLast_cons_cons, List.forall_mem_cons]
      tauto
    · rw [if_neg h, if_neg h]
      tauto

/-- Every entry has been visited, in order. -/
@[simp] theorem foldl_visited :
    (es.foldl after s).visited = s.visited ++ headers s.header es := by
  induction es generalizing s with
  | nil => exact (List.append_nil _).symm
  | cons e es ih =>
    rw [List.foldl_cons, ih]
    exact List.append_assoc _ _ _

/-- The processors are counted, in a byte. -/
@[simp] theorem foldl_pros (hpros : s.pros < 2 ^ 8) :
    (es.foldl after s).pros = (s.pros + es.countP isProcessor) % 2 ^ 8 := by
  induction es generalizing s with
  | nil => exact (Nat.mod_eq_of_lt hpros).symm
  | cons e es ih =>
    have hnext : (after s e).pros = if isProcessor e then (s.pros + 1) % 2 ^ 8 else s.pros := rfl
    -- the count stays below 256 as a byte, whatever it would be
    rw [List.foldl_cons, ih (by rw [hnext]; split <;> omega), hnext, List.countP_cons]
    split <;> omega

/-- The last I/O APIC is the one that is kept; there has been none before it. -/
@[simp] theorem foldl_io : (es.foldl after s).io_apic_base = (ioApics es).getLastD s.io_apic_base := by
  induction es generalizing s with
  | nil => rfl
  | cons e es ih =>
    have hnext : (after s e).io_apic_base = if e.type = 1 then e.word else s.io_apic_base := rfl
    rw [List.foldl_cons, ih, hnext, ioApics_cons]
    split
    · rw [List.getLastD_cons]
    · rfl

/-- The interrupts are those of the entries. -/
@[simp] theorem foldl_irq : (es.foldl after s).irqOverride = overrides s.irqOverride es := by
  induction es generalizing s with
  | nil => rfl
  | cons e es ih => exact ih

/-- The first I/O APIC is the last one, or there is none that counts. -/
theorem ioApics_iff (l : List Nat) : (∀ a ∈ (0 :: l).dropLast, a = 0) ∧ l.getLastD 0 = l.headD 0 ↔
    l.length ≤ 1 ∨ ∀ a ∈ l, a = 0 := by
  match l with
  | [] => simp
  | [a] => simp
  | a :: b :: l =>
    -- all but the last are 0, and the last is the first
    have hlast : (a :: b :: l).getLastD 0 = (b :: l).getLast (List.cons_ne_nil b l) := by
      rw [List.getLastD_cons, List.getLastD_eq_getLast?, List.getLast?_eq_getLast_of_ne_nil (List.cons_ne_nil b l)]
      rfl
    have hall : (∀ c ∈ b :: l, c = 0) ↔
        (∀ c ∈ (b :: l).dropLast, c = 0) ∧ (b :: l).getLast (List.cons_ne_nil b l) = 0 := by
      conv_lhs => rw [← List.dropLast_append_getLast (List.cons_ne_nil b l)]
      simp only [List.mem_append, List.mem_singleton, or_imp, forall_and, forall_eq]
    rw [hlast, List.forall_mem_cons, hall, List.dropLast_cons_cons, List.dropLast_cons_cons,
      List.forall_mem_cons, List.forall_mem_cons]
    show _ ∧ _ = a ↔ _
    constructor
    · rintro ⟨⟨-, ha, hrest⟩, heq⟩
      exact Or.inr ⟨ha, hrest, heq.trans ha⟩
    · rintro (hlen | ⟨ha, hrest, heq⟩)
      · exact absurd hlen (by simp)
      · exact ⟨⟨rfl, ha, hrest⟩, heq.trans ha.symm⟩

/-! ## The walk

From the start of the table on. The statement goes both ways: a table that is not orderly is
either not walked to its end or read wrong. -/

/-- The state in front of the loop. -/
def start (mem : Bytes) (irq : Nat → Nat) (madt : Nat) : Walk :=
  ⟨sub32 (mem.u32 (madt + 4)) apicStr, add32 madt apicStr, 0, 0, irq, []⟩

/-- The function is the loop from its first state. -/
theorem acpi_apic_run : ((acpi_apic n irq madt).eval (whole mem)).join = run mem n (start mem irq madt) := by
  unfold acpi_apic
  rw [Reading.eval_bind_of_eq eval_word]
  rfl

/-- Where the loop gets over all entries, what it has is right if the processors fit into a byte;
nothing else can go wrong. -/
theorem walked_iff (hpass : Passes 0 es) :
    Walked irq (add32 madt apicStr) es (es.foldl after (start mem irq madt)) ↔ Orderly es := by
  -- past all entries two tests hold already; the byte is the third
  obtain ⟨hsource, hio⟩ := passes_iff.mp hpass
  have hpros : (es.foldl after (start mem irq madt)).pros = es.countP isProcessor % 2 ^ 8 := by
    rw [foldl_pros (by decide : 0 < 2 ^ 8)]
    exact congrArg (· % 2 ^ 8) (Nat.zero_add _)
  constructor
  · intro h
    have hfirst : (ioApics es).getLastD 0 = (ioApics es).headD 0 := foldl_io.symm.trans h.io_apic_base
    have hcount := hpros.symm.trans h.pros
    exact ⟨(ioApics_iff _).mp ⟨hio, hfirst⟩, hcount ▸ Nat.mod_lt _ (by decide), hsource⟩
  · intro h
    refine ⟨foldl_visited, hpros.trans (Nat.mod_eq_of_lt h.pros), ?_, foldl_irq⟩
    exact foldl_io.trans ((ioApics_iff _).mpr h.ioApics).2

theorem Orderly.passes (h : Orderly es) : Passes 0 es :=
  passes_iff.mpr ⟨h.source, ((ioApics_iff _).mpr h.ioApics).1⟩

/-- The walk is a run of the loop. -/
theorem walks_run : Walks mem irq madt es ↔
    ∃ s, Loop.Returns (fun n => run mem n (start mem irq madt)) (.ok s) ∧
      Walked irq (add32 madt apicStr) es s := by
  have hrun : (fun n => ((acpi_apic n irq madt).eval (whole mem)).join) =
      fun n => run mem n (start mem irq madt) := funext fun n => acpi_apic_run
  rw [← hrun]
  exact Iff.rfl

/-- The length is a difference of words. -/
theorem start_length_lt : (start mem irq madt).length < 2 ^ 32 := Nat.mod_lt _ (by decide)

/-- A walk that ends has passed every entry. -/
theorem Walks.orderly (hwalks : Walks mem irq madt es)
    (h : Entries mem (add32 madt apicStr) (sub32 (mem.u32 (madt + 4)) apicStr) es) : Orderly es := by
  obtain ⟨s, hs, hwalked⟩ := walks_run.mp hwalks
  -- otherwise the loop has no result
  have hpass : Passes 0 es := by
    by_contra hnot
    obtain ⟨n, hn⟩ := hs
    exact run_ne_ok (s := start mem irq madt) h start_length_lt hnot (hn n le_rfl)
  have hend := run_passes (s := start mem irq madt) h start_length_lt hpass
  -- a loop has one result at most
  have heq : s = es.foldl after (start mem irq madt) := Except.ok.inj (hs.unique hend)
  rw [heq] at hwalked
  exact (walked_iff hpass).mp hwalked

/-- **The walk of the table.** The loop ends with all the entries say if there is one I/O APIC, fewer
than 256 processors and no interrupt outside `irqOverride`. -/
theorem acpi_apic_walks (h : Entries mem (add32 madt apicStr) (sub32 (mem.u32 (madt + 4)) apicStr) es) :
    Walks mem irq madt es ↔ Orderly es := by
  refine ⟨fun hwalks => hwalks.orderly h, fun horderly => walks_run.mpr ?_⟩
  have hend := run_passes (s := start mem irq madt) h start_length_lt horderly.passes
  exact ⟨_, hend, (walked_iff horderly.passes).mpr horderly⟩

/-- A table with the bytes of its entries. -/
def table (entries : List UInt8) : Bytes := fun i =>
  ([0x41, 0x50, 0x49, 0x43, UInt8.ofNat (apicStr + entries.length), 0, 0, 0] ++
    List.replicate 36 0 ++ entries).getD i 0

/-- Two processors, an I/O APIC, and interrupt 0 on line 2. -/
def usualTable : Bytes :=
  table [0, 8, 0, 0, 1, 0, 0, 0, 0, 8, 1, 1, 1, 0, 0, 0, 1, 12, 2, 0, 0, 0, 0xC0, 0xFE, 0, 0, 0, 0,
    2, 10, 0, 0, 2, 0, 0, 0, 0, 0]

/-- Such a table is walked. -/
theorem acpi_apic_walks_usual : Walks usualTable id 0
    [⟨0, 8, 0, 1⟩, ⟨0, 8, 1, 1⟩, ⟨1, 12, 0, 0xFEC00000⟩, ⟨2, 10, 0, 2⟩] := by
  have hentries : Entries usualTable (add32 0 apicStr) (sub32 (usualTable.u32 (0 + 4)) apicStr)
      [⟨0, 8, 0, 1⟩, ⟨0, 8, 1, 1⟩, ⟨1, 12, 0, 0xFEC00000⟩, ⟨2, 10, 0, 2⟩] :=
    .cons (by decide) (by decide) (.cons (by decide) (by decide) (.cons (by decide) (by decide)
      (.cons (by decide) (by decide) (.nil _))))
  exact (acpi_apic_walks hentries).mpr ⟨Or.inl (by decide), by decide, by decide⟩

/-- A machine with two I/O APICs. -/
def twoIoApics : Bytes :=
  table [1, 12, 2, 0, 0, 0, 0xC0, 0xFE, 0, 0, 0, 0, 1, 12, 3, 0, 0, 0x10, 0xC0, 0xFE, 24, 0, 0, 0]

/-- At the second I/O APIC the loop stays where it is. -/
theorem not_walks_twoIoApics :
    ¬ ∀ mem irq madt es, Entries mem (add32 madt apicStr) (sub32 (mem.u32 (madt + 4)) apicStr) es →
      Walks mem irq madt es := by
  intro h
  have hentries : Entries twoIoApics (add32 0 apicStr) (sub32 (twoIoApics.u32 (0 + 4)) apicStr)
      [⟨1, 12, 0, 0xFEC00000⟩, ⟨1, 12, 0, 0xFEC01000⟩] :=
    .cons (by decide) (by decide) (.cons (by decide) (by decide) (.nil _))
  have horderly := (h twoIoApics id 0 _ hentries).orderly hentries
  exact absurd horderly.ioApics (by decide)

end Acpi

end NorlitOS
