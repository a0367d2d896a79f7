import NorlitOS.HardDisk.Server
import NorlitOS.Lib.Run

/-!
# What a message may touch

A partition is confined if a request through its handle touches none but its own sectors, and of
the message no more than the 2048 bytes of its data. The driver compares nothing: not the number in
a name with the size of the table, not the name with the handle the client has put beside it, and not
the offset and the count with the size of the partition.
-/

namespace NorlitOS

namespace HDProcess

variable {σ : Type} {move : Nat → σ → σ} {s : σ} {d d' : HDProcess} {msg : FileMessage}
  {lba n count k proc : Nat} {data : Bytes} {reqs : List (Nat × FileMessage)}

/-! ## The transfer loop -/

/-- The sectors transferred before the loop ends or the process stops. -/
def moved (count : Nat) : Nat := min count (min (sectorCount count) MAPPED_SECTORS)

/-- The rounds of the loop. Induction on the count. -/
theorem sectors_accesses : (sectors move lba n count k s).1 =
    (List.range' k (min count (min n MAPPED_SECTORS - k))).map fun k =>
      ⟨lba + k, SECTOR_SIZE * k⟩ := by
  induction count generalizing k s with
  | zero =>
    rw [Nat.zero_min]
    rfl
  | succ count ih =>
    rw [sectors]
    split
    · -- the device has transferred its sectors
      rw [show min (count + 1) (min n MAPPED_SECTORS - k) = 0 by omega]
      rfl
    · split
      · -- the memory behind the message ends
        rw [show min (count + 1) (min n MAPPED_SECTORS - k) = 0 by omega]
        rfl
      · rw [show min (count + 1) (min n MAPPED_SECTORS - k) =
            min count (min n MAPPED_SECTORS - (k + 1)) + 1 by omega, List.range'_succ, List.map_cons]
        dsimp only
        rw [ih]

/-- What every round preserves. -/
theorem sectors_invariant {P : σ → Prop} {s' : σ} (hmove : ∀ k s, P s → P (move k s)) (hs : P s)
    (hok : (sectors move lba n count k s).2 = .ok s') : P s' := by
  induction count generalizing k s with
  | zero =>
    rw [← Except.ok.inj hok]
    exact hs
  | succ count ih =>
    rw [sectors] at hok
    split at hok
    · exact nomatch hok
    · split at hok
      · exact nomatch hok
      · exact ih (hmove k s hs) hok

/-- The accesses of a request to read or to write. -/
theorem transfer_accesses {base : Nat} (hbase : d.base msg.handle = some base) :
    (d.transfer proc msg).1 = (List.range (moved msg.count)).map fun k =>
      ⟨lba28 (add32 msg.offset base) + k, SECTOR_SIZE * k⟩ := by
  unfold transfer
  rw [hbase]
  dsimp only
  split
  · exact sectors_accesses.trans (by rw [List.range_eq_range']; rfl)
  · exact sectors_accesses.trans (by rw [List.range_eq_range']; rfl)

/-! ## Confinement -/

/-- The names of the whole disk. -/
def NamesDisk (msg : FileMessage) : Prop :=
  Printf.string (name msg) = "0".toList ∨ Printf.string (name msg) = "$MBR".toList

instance (msg : FileMessage) : Decidable (NamesDisk msg) := inferInstanceAs (Decidable (_ ∨ _))

/-- The request of `proc` to open a partition fails, or gives a handle of the table. Neither writes
outside the process's own arrays. -/
structure OpensEntry (d : HDProcess) (proc : Nat) (msg : FileMessage) : Prop where
  stays : (d.serve proc msg).2 ≠ .error .wild
  entry : ∀ d' sent, (d.serve proc msg).2 = .ok (d', sent) → ∀ a ∈ sent, a.2.command ≠ HD_FAIL →
    1 ≤ a.2.handle ∧ a.2.handle ≤ d.hd.partCount

/-- A request to read or to write. -/
def Transfers (msg : FileMessage) : Prop := msg.command = HD_READ ∨ msg.command = HD_WRITE

/-- The request touches the sectors of the partition `p` and the data of its message only. -/
def Inside (d : HDProcess) (proc : Nat) (msg : FileMessage) (p : Partition) : Prop :=
  ∀ a ∈ (d.serve proc msg).1,
    p.start ≤ a.sector ∧ a.sector < p.start + p.size ∧ a.offset + SECTOR_SIZE ≤ 2048

/-- What is asked of a message. -/
structure Confined (d : HDProcess) (proc : Nat) (msg : FileMessage) : Prop where
  opens : msg.command = HD_OPEN → ¬ NamesDisk msg → d.OpensEntry proc msg
  transfers : Transfers msg → 1 ≤ msg.handle → msg.handle ≤ d.hd.partCount →
    ∀ p, d.hd.part (msg.handle - 1) = some p → d.Inside proc msg p

/-- The sectors of a request are in the partition, and there are at most four. -/
def Fits (msg : FileMessage) (p : Partition) : Prop :=
  moved msg.count = 0 ∨
    (p.start ≤ lba28 (add32 msg.offset p.start) ∧
      lba28 (add32 msg.offset p.start) + moved msg.count ≤ p.start + p.size ∧ moved msg.count ≤ 4)

/-- The name of a partition can be printed, its number is one of the table or 0, and the handle beside
it is not that of the whole disk. -/
structure NamesEntry (hd : HardDisk) (proc : Nat) (msg : FileMessage) : Prop where
  printable : Printable proc msg
  handle : ¬ opensDisk msg
  number : ∀ h, atoi (name msg) = some h → h ≤ hd.partCount

/-- What is asked of the message itself: the name is that of an entry, the sectors are in the
partition. -/
structure Within (hd : HardDisk) (proc : Nat) (msg : FileMessage) : Prop where
  opens : msg.command = HD_OPEN → ¬ NamesDisk msg → NamesEntry hd proc msg
  transfers : Transfers msg → 1 ≤ msg.handle → msg.handle ≤ hd.partCount →
    ∀ p, hd.part (msg.handle - 1) = some p → Fits msg p

/-- The first sector behind the handle of a partition. -/
theorem base_of_part {p : Partition} {handle : Nat} (hpos : 1 ≤ handle) (hlt : handle < 2 ^ 32)
    (hp : d.hd.part (handle - 1) = some p) : d.base handle = some p.start := by
  unfold base
  rw [if_neg (by omega), sub32_of_le hpos hlt, hp]
  rfl

section Serve

variable (hsig : msg.signature = COMMAND_HD)

include hsig

theorem serve_opens (hopen : msg.command = HD_OPEN) :
    d.serve proc msg = ([], d.openName proc msg) := by
  unfold serve
  rw [if_neg (not_not.mpr hsig), if_pos hopen]

theorem serve_transfers (h : Transfers msg) : d.serve proc msg = d.transfer proc msg := by
  have hne : msg.command ≠ HD_OPEN := by
    intro hopen
    unfold Transfers at h
    rw [hopen] at h
    exact absurd h (by decide)
  unfold serve
  rw [if_neg (not_not.mpr hsig), if_neg hne]
  exact if_pos h

/-- An open that is answered with an entry of the table names one. -/
theorem OpensEntry.namesEntry (h : d.OpensEntry proc msg) (hopen : msg.command = HD_OPEN)
    (hprint : Printable proc msg) : NamesEntry d.hd proc msg := by
  have hcommand : msg.command ≠ HD_FAIL := by
    rw [hopen]
    decide
  have hok : (d.serve proc msg).2 = .ok (d, [(proc, d.openReply msg)]) := by
    rw [serve_printable hsig hopen hprint]
  have hentry := h.entry _ _ hok _ (List.mem_singleton_self _)
  refine ⟨hprint, fun hdisk => ?_, fun num hnum => ?_⟩
  · -- the whole disk is no entry of the table
    unfold openReply at hentry
    rw [if_pos hdisk] at hentry
    exact absurd (hentry hcommand).1 (Nat.not_succ_le_zero 0)
  · by_cases hr : Refused msg
    · rw [Option.some.inj (hnum.symm.trans hr.2)]
      exact Nat.zero_le _
    · unfold openReply at hentry
      rw [if_neg hr, hnum] at hentry
      split at hentry
      · exact absurd (hentry hcommand).1 (Nat.not_succ_le_zero 0)
      · exact (hentry hcommand).2

/-- Such an open is answered with the number in its name. -/
theorem NamesEntry.opensEntry (h : NamesEntry d.hd proc msg) (hopen : msg.command = HD_OPEN) :
    d.OpensEntry proc msg := by
  have hserve : (d.serve proc msg).2 = .ok (d, [(proc, d.openReply msg)]) := by
    rw [serve_printable hsig hopen h.printable]
  refine ⟨fun hwild => (nomatch hserve.symm.trans hwild), fun d' sent hok a ha hfail => ?_⟩
  obtain ⟨-, rfl⟩ := Prod.mk.inj (Except.ok.inj (hserve.symm.trans hok))
  obtain rfl := List.mem_singleton.mp ha
  dsimp only at hfail ⊢
  unfold openReply at hfail ⊢
  rw [if_neg h.handle] at hfail ⊢
  by_cases hr : Refused msg
  · -- the number 0 is no partition, and the request fails
    rw [if_pos hr] at hfail
    exact absurd rfl hfail
  · rw [if_neg hr]
    cases hnum : atoi (name msg) with
    | none => exact absurd hnum (atoi_ne_none h.printable.zero_mem)
    | some num =>
      -- 0 would have been refused
      have hne : num ≠ 0 := by
        rintro rfl
        exact hr ⟨h.handle, hnum⟩
      exact ⟨Nat.pos_of_ne_zero hne, h.number num hnum⟩

/-- The answer to a request to open a partition: the number in its name. -/
theorem opensEntry_iff (hopen : msg.command = HD_OPEN) :
    d.OpensEntry proc msg ↔ NamesEntry d.hd proc msg := by
  by_cases hprint : Printable proc msg
  · exact ⟨fun h => h.namesEntry hsig hopen hprint, fun h => h.opensEntry hsig hopen⟩
  · -- the line of the open leaves the buffer
    refine iff_of_false (fun h => h.stays ?_) fun h => hprint h.printable
    rw [serve_opens hsig hopen]
    dsimp only
    exact openName_of_not_printable hprint

/-- The accesses are inside if and only if the first and the last of them are. -/
theorem inside_iff {p : Partition} (h : Transfers msg) (hlt : msg.handle < 2 ^ 32)
    (hpos : 1 ≤ msg.handle) (hp : d.hd.part (msg.handle - 1) = some p) :
    d.Inside proc msg p ↔ Fits msg p := by
  unfold Inside Fits
  rw [serve_transfers hsig h, transfer_accesses (base_of_part hpos hlt hp)]
  simp only [List.forall_mem_map, List.mem_range]
  unfold SECTOR_SIZE
  constructor
  · intro hall
    rcases Nat.eq_zero_or_pos (moved msg.count) with hz | hm
    · exact Or.inl hz
    · have hfirst := hall 0 hm
      have hlast := hall (moved msg.count - 1) (by omega)
      exact Or.inr (by omega)
  · intro hfits k hk
    omega

/-- One message. -/
theorem confined_iff (hlt : msg.handle < 2 ^ 32) : d.Confined proc msg ↔ Within d.hd proc msg := by
  constructor
  · intro h
    refine ⟨fun hopen hname => (opensEntry_iff hsig hopen).mp (h.opens hopen hname),
      fun ht hpos hle p hp => ?_⟩
    exact (inside_iff hsig ht hlt hpos hp).mp (h.transfers ht hpos hle p hp)
  · intro h
    refine ⟨fun hopen hname => (opensEntry_iff hsig hopen).mpr (h.opens hopen hname),
      fun ht hpos hle p hp => ?_⟩
    exact (inside_iff hsig ht hlt hpos hp).mpr (h.transfers ht hpos hle p hp)

end Serve

/-! ## Runs -/

/-- A message is served. -/
def Serves (d : HDProcess) (req : Nat × FileMessage) (d' : HDProcess) : Prop :=
  ∃ sent, (d.serve req.1 req.2).2 = .ok (d', sent)

theorem openName_process {sent : List (Nat × FileMessage)}
    (hok : d.openName proc msg = .ok (d', sent)) : d' = d := by
  by_cases hprint : Printable proc msg
  · rw [openName_of_printable hprint] at hok
    exact (Prod.mk.inj (Except.ok.inj hok)).1.symm
  · rw [openName_of_not_printable hprint] at hok
    exact nomatch hok

theorem transfer_hd {sent : List (Nat × FileMessage)}
    (hok : (d.transfer proc msg).2 = .ok (d', sent)) : d'.hd = d.hd := by
  unfold transfer at hok
  split at hok
  · exact nomatch hok
  · dsimp only at hok
    split at hok
    · obtain ⟨data, -, heq⟩ := map_eq_ok.mp hok
      rw [← (Prod.mk.inj heq).1]
    · obtain ⟨d₁, hwrite, heq⟩ := map_eq_ok.mp hok
      rw [← (Prod.mk.inj heq).1]
      unfold writeSectors at hwrite
      refine sectors_invariant (P := fun d₁ : HDProcess => d₁.hd = d.hd) ?_ rfl hwrite
      exact fun _ _ h => h

/-- The table stays as it was read. -/
theorem Serves.hd {req : Nat × FileMessage} (h : d.Serves req d') : d'.hd = d.hd := by
  obtain ⟨sent, hok⟩ := h
  unfold serve at hok
  split at hok
  · rw [← (Prod.mk.inj (Except.ok.inj hok)).1]
  · split at hok
    · dsimp only at hok
      rw [openName_process hok]
    · split at hok
      · exact transfer_hd hok
      · rw [← (Prod.mk.inj (Except.ok.inj hok)).1]

/-- **Confinement.** In every state that a sequence of messages leads to, a message is confined if
and only if its name and its sectors are within the table. -/
theorem run_confined_iff (hrun : Run Serves d reqs d') (hsig : msg.signature = COMMAND_HD)
    (hlt : msg.handle < 2 ^ 32) : d'.Confined proc msg ↔ Within d.hd proc msg := by
  have hhd : d'.hd = d.hd :=
    hrun.invariant (I := fun d' => d'.hd = d.hd) (fun _ _ _ hI hstep => hstep.hd.trans hI) rfl
  rw [confined_iff hsig hlt, hhd]

/-- A table of four entries, all for the sectors 100 to 149. -/
def fourParts : HDProcess where
  hd := ⟨1000, 0, 4, fun _ => some ⟨0x6E, 100, 50⟩, fun _ _ => rfl⟩
  disk := fun _ => 0

/-- A request to open the partition with this name. -/
def openNamed (name : List UInt8) : FileMessage :=
  ⟨COMMAND_HD, HD_OPEN, stringHash name, 0, 0, fun i => name.getD i 0⟩

/-- The page of the request begins with the name and its NUL. -/
theorem name_openNamed {str : List UInt8} (hlen : str.length < 2048) :
    ∃ p, name (openNamed str) = str ++ 0 :: p :=
  exists_name hlen fun _ _ => rfl

/-- The number in a name of one digit. -/
theorem atoi_openNamed {c : UInt8} (hc : 48 ≤ c ∧ c ≤ 57) :
    atoi (name (openNamed [c])) = some ((c.toNat - 48) % 2 ^ 32) := by
  have hsign : ¬ (c = 43 ∨ c = 45) := by
    intro h
    rcases h with rfl | rfl
    · exact absurd hc (by decide)
    · exact absurd hc (by decide)
  obtain ⟨p, hp⟩ := name_openNamed (show [c].length < 2048 from Nat.one_lt_ofNat)
  rw [hp]
  show atoi (c :: 0 :: p) = _
  rw [atoi, if_neg hsign, digits, if_pos hc, digits, if_neg (by decide), Nat.zero_mul, Nat.zero_add]

/-- A short name can be printed. -/
theorem printable_openNamed {str : List UInt8} (hzero : 0 ∉ str) (hlen : str.length ≤ 212) :
    Printable proc (openNamed str) := by
  obtain ⟨p, hp⟩ := name_openNamed (show str.length < 2048 by omega)
  exact printable_of_nameLength (by rwa [nameLength_of_name hzero hp])

/-- Partition 1 is opened, and its last four sectors are read. -/
theorem run_confined_iff_four : ∃ d, Run Serves fourParts [(7, openNamed [49])] d ∧
    (d.Confined 7 ⟨COMMAND_HD, HD_READ, 1, 46, 4, fun _ => 0⟩ ↔
      Within fourParts.hd 7 ⟨COMMAND_HD, HD_READ, 1, 46, 4, fun _ => 0⟩) := by
  have hprint : Printable 7 (openNamed [49]) := printable_openNamed (by decide) (by decide)
  have hrun : Run Serves fourParts [(7, openNamed [49])] fourParts := by
    refine .single ⟨[(7, fourParts.openReply (openNamed [49]))], ?_⟩
    rw [serve_printable rfl rfl hprint]
  exact ⟨fourParts, hrun, run_confined_iff hrun rfl (by decide)⟩

/-- A name of one character is the whole disk only if it is `0`. -/
theorem not_namesDisk_openNamed {c : UInt8} (hc : c ≠ 0) (hne : Printf.charOf c ≠ '0') :
    ¬ NamesDisk (openNamed [c]) := by
  obtain ⟨p, hp⟩ := name_openNamed (show [c].length < 2048 from Nat.one_lt_ofNat)
  unfold NamesDisk
  rw [hp, Printf.string_append (by simpa using hc.symm)]
  rintro (heq | heq)
  · exact hne (List.cons.inj heq).1
  · exact nomatch (List.cons.inj heq).2

/-- There is no partition 9, a name with the handle of `0` beside it opens the whole disk, and sector
150 is not one of partition 1. -/
theorem not_confined_four : ¬ fourParts.Confined 7 (openNamed [57]) ∧
    ¬ fourParts.Confined 7 { openNamed [49] with handle := 48 } ∧
    ¬ fourParts.Confined 7 ⟨COMMAND_HD, HD_WRITE, 1, 50, 1, fun _ => 0⟩ := by
  refine ⟨fun h => ?_, fun h => ?_, fun h => ?_⟩
  · have hentry := ((confined_iff rfl (by decide)).mp h).opens rfl
      (not_namesDisk_openNamed (by decide) (by decide))
    exact absurd (hentry.number 9 (atoi_openNamed (by decide))) (by decide)
  · have hname : ¬ NamesDisk { openNamed [49] with handle := 48 } :=
      not_namesDisk_openNamed (by decide) (by decide)
    have hentry := ((confined_iff rfl (by decide)).mp h).opens rfl hname
    exact hentry.handle (Or.inl rfl)
  · have hfits := ((confined_iff rfl (by decide)).mp h).transfers (Or.inr rfl) (by decide)
      (by decide) _ rfl
    unfold Fits at hfits
    exact absurd hfits (by decide)

end HDProcess

end NorlitOS
