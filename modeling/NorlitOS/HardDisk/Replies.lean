import NorlitOS.FileSystem.Write
import NorlitOS.HardDisk.Confine

/-!
# One answer for each request

A client that sends a request waits for the answer. Both loops send it at the end of the branch for
the command; a branch that leaves the `switch` before that, or stops the process, leaves the client
waiting. The hard-disk process prints the name of an open first, and a name that is too long for the
buffer of `printf` stops it there.
-/

namespace NorlitOS

variable {msg : FileMessage} {proc : Nat}

namespace NorlitFS

variable {fs fs' : NorlitFS} {page : Bytes} {f h i n : Nat} {str : List UInt8}
  {names : List (List UInt8)}

/-! ## The file-system process

A round ends without an answer if the path is not absolute or the command is unknown, and not at
all if the walk runs out of a directory. `Ends` has this for the names of a path, one after the
other. -/

/-- The directory of `f` has a free entry, or one with the hash `h`. -/
def Scannable (fs : NorlitFS) (f h : Nat) : Prop :=
  ∃ i < DIR_FILE_PTRS, (fs.directory f).u32 (DirectoryBlock.address i) = 0 ∨
    (fs.directory f).u32 (DirectoryBlock.hash i) = h

/-- Every directory on the way through the components is such. -/
def Ends (fs : NorlitFS) (f : Nat) : List (List UInt8) → Prop
  | [] => True
  | str :: names =>
    fs.Scannable f (stringHash str) ∧
      ∀ g fs', fs.openName f str = .ok (g, fs') → fs'.Ends g names

theorem scan_eq_none_iff : scan page h n i = none ↔ ∀ j, i ≤ j → j < i + n →
    page.u32 (DirectoryBlock.address j) ≠ 0 ∧ page.u32 (DirectoryBlock.hash j) ≠ h := by
  induction n generalizing i with
  | zero =>
    refine iff_of_true rfl fun j hij hj => ?_
    omega
  | succ n ih =>
    rw [scan]
    -- a free entry or one with the hash ends the scan
    split
    · refine iff_of_false (by simp) fun hall => ?_
      exact (hall i (Nat.le_refl i) (by omega)).1 ‹_›
    · split
      · refine iff_of_false (by simp) fun hall => ?_
        exact (hall i (Nat.le_refl i) (by omega)).2 ‹_›
      · rw [ih]
        constructor
        · intro hall j hij hj
          rcases Nat.eq_or_lt_of_le hij with rfl | hlt
          · exact ⟨‹_›, ‹_›⟩
          · exact hall j hlt (by omega)
        · intro hall j hij hj
          exact hall j (by omega) (by omega)

/-- A read takes the page from the disk. -/
theorem page_fileRead {s : Nat} (hdisk : fs'.disk = fs.disk) (hi : i + 4 ≤ 2048) :
    (fs'.fileRead s 4).page.u32 i = (fs.fileRead s 4).page.u32 i := by
  unfold fileRead
  dsimp only
  rw [Bytes.u32_copy_of_mem (Nat.zero_le i) (by unfold SECTOR_SIZE; omega),
    Bytes.u32_copy_of_mem (Nat.zero_le i) (by unfold SECTOR_SIZE; omega), hdisk]

/-- The scan of `openName` runs out of the directory that is not scannable. -/
theorem scan_openName : scan ((fs.seekDataBlock f 0).2.fileRead (sector (fs.seekDataBlock f 0).1) 4).page
    h DIR_FILE_PTRS 0 = none ↔ ¬ fs.Scannable f h := by
  -- the page holds the directory block, in which the slots are read
  have haddr : ∀ j < DIR_FILE_PTRS, ((fs.seekDataBlock f 0).2.fileRead
      (sector (fs.seekDataBlock f 0).1) 4).page.u32 (DirectoryBlock.address j) =
        (fs.directory f).u32 (DirectoryBlock.address j) := by
    intro j hj
    unfold directory
    refine page_fileRead rfl ?_
    unfold DirectoryBlock.address
    unfold DIR_FILE_PTRS at hj
    omega
  have hhash : ∀ j < DIR_FILE_PTRS, ((fs.seekDataBlock f 0).2.fileRead
      (sector (fs.seekDataBlock f 0).1) 4).page.u32 (DirectoryBlock.hash j) =
        (fs.directory f).u32 (DirectoryBlock.hash j) := by
    intro j hj
    unfold directory
    refine page_fileRead rfl ?_
    unfold DirectoryBlock.hash
    unfold DIR_FILE_PTRS at hj
    omega
  rw [scan_eq_none_iff]
  constructor
  · intro hall hex
    obtain ⟨i, hi, hor⟩ := hex
    have hi' := hall i (Nat.zero_le i) (by omega)
    rw [haddr i hi, hhash i hi] at hi'
    exact hor.elim hi'.1 hi'.2
  · intro hno j _ hj
    rw [haddr j (by omega), hhash j (by omega)]
    constructor
    · exact fun hz => hno ⟨j, by omega, Or.inl hz⟩
    · exact fun heq => hno ⟨j, by omega, Or.inr heq⟩

/-- `openName` returns where the scan ends. -/
theorem openName_ok_iff : (∃ r, fs.openName f str = .ok r) ↔ fs.Scannable f (stringHash str) := by
  have hscan : _ ↔ ¬ fs.Scannable f (stringHash str) := scan_openName
  unfold openName
  dsimp only
  split
  · refine iff_of_false (fun hok => ?_) (hscan.mp ‹_›)
    obtain ⟨r, hr⟩ := hok
    exact nomatch hr
  · rename_i i hfound
    have hscannable : fs.Scannable f (stringHash str) := by
      by_contra hno
      exact nomatch (hscan.mpr hno).symm.trans hfound
    refine iff_of_true ?_ hscannable
    split
    · exact ⟨_, rfl⟩
    · exact ⟨_, rfl⟩

theorem openNames_ok_iff : (∃ r, fs.openNames f names = .ok r) ↔ fs.Ends f names := by
  induction names generalizing fs f with
  | nil => exact iff_of_true ⟨_, rfl⟩ trivial
  | cons str names ih =>
    rw [openNames, Ends, ← openName_ok_iff]
    -- the walk goes on in the file that the component opens
    cases hstep : fs.openName f str with
    | error e => 
      refine iff_of_false (fun h => ?_) (fun h => ?_)
      · obtain ⟨r, hr⟩ := h
        cases hr
      · obtain ⟨r, hr⟩ := h.1
        cases hr
    | ok r =>
      obtain ⟨g, fs'⟩ := r
      rw [ok_bind]
      dsimp only
      rw [ih]
      constructor
      · intro h
        refine ⟨⟨_, rfl⟩, fun g' fs₁ hok => ?_⟩
        obtain ⟨rfl, rfl⟩ := Prod.mk.inj (Except.ok.inj hok)
        exact h
      · intro h
        exact h.2 _ _ rfl

end NorlitFS

namespace HDProcess

variable {σ : Type} {move : Nat → σ → σ} {s : σ} {d : HDProcess} {lba n count k : Nat}

/-! ## The hard-disk process

A round ends without an answer if the name is too long to be printed, a transfer is too long for
the page, or the handle is no partition. -/

end HDProcess

end NorlitOS
