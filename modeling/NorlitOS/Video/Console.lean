import NorlitOS.Video.Status
import Mathlib.Data.Int.GCD
import Mathlib.Tactic.IntervalCases

/-!
# The console (`video_driver`)

The driver keeps the pixel at which the next character goes, in two `s16`. A line is `xRes - 8` pixels
long; behind its end the cursor goes on at its beginning, by as much as it is too far, so that the
cells stand on multiples of 4 only if the line is one. Above the console is the status line, which is
drawn anew in every round.
-/

namespace NorlitOS

namespace Video

/-! ## The loop

The `switch` over the character, the wrap at the end of a line and the clamp at the end of the
screen, all in `s16`. A round draws the status line first and then the characters of its message.
-/

/-- `x` and `y`. -/
structure Console where
  x : Int
  y : Int

/-- `switch(c)`. -/
def switch (xRes : Nat) (c : UInt8) (s : Console) : Console × List Draw :=
  if c = 13 then ({ s with x := 4 }, [])
  else if c = 10 then ({ s with y := s16 (s.y + 16) }, [])
  else if c = 9 then
    let x := s16 (s.x - (s.x - 4).tmod 64 + 64)
    if (xRes : Int) - x < 64 then ({ x := 4, y := s16 (s.y + 16) }, []) else ({ s with x }, [])
  else if c = 8 then ({ s with x := s16 (s.x - 8) }, [])
  else if c = 12 then ({ x := 4, y := 28 }, [.page])
  else if c = 1 then ({ s with y := s16 (s.y - 16) }, [])
  else ({ s with x := s16 (s.x + 8) }, [.cell c s.x s.y])

/-- The cursor comes back into its line. -/
def wrap (xRes : Nat) (s : Console) : Console :=
  if s16 (xRes - 4) ≤ s.x then { x := s16 (s.x - (xRes - 8)), y := s16 (s.y + 16) }
  else if s.x < 4 then { x := s16 (s.x + (xRes - 8)), y := s16 (s.y - 16) }
  else s

/-- The cursor comes back to the first line or to the last one. -/
def clamp (yRes : Nat) (s : Console) : Console :=
  if s.y < 28 then { s with y := 28 }
  else if (yRes : Int) - 16 < s.y then { s with y := s16 (s.y - 16) }
  else s

/-- One round of `while((c=*(tmp++))!=0)`. -/
def step (xRes yRes : Nat) (c : UInt8) (s : Console) : Console × List Draw :=
  let (s, draws) := switch xRes c s
  (clamp yRes (wrap xRes s), draws)

/-- The loop over the characters of the buffer. -/
def write (xRes yRes : Nat) : List UInt8 → Console → Console × List Draw
  | [], s => (s, [])
  | c :: tmp, s =>
    if c = 0 then (s, [])
    else
      let (s, draws) := step xRes yRes c s
      let (s, draws') := write xRes yRes tmp s
      (s, draws ++ draws')

/-- A round of `while(1)`: what it reads of `freeMemoryCounter`, and the buffer it finds. -/
structure Round where
  freeMemoryCounter : Nat → UInt32
  buffer : List UInt8

/-- `while(1)`. The text of the status line does not fit into its array; what the bytes behind the array
are to `x` and `y` is up to the frame that the compiler has laid out, and given by `spill`. -/
def writeAll (spill : List UInt8 → Console → Console) (xRes yRes : Nat) :
    List Round → Console → List Draw
  | [], _ => []
  | round :: rounds, s =>
    let a := statusText round.freeMemoryCounter
    let s := spill (overrun a) s
    let (s, draws) := write xRes yRes round.buffer s
    statusLine xRes a ++ (draws ++ writeAll spill xRes yRes rounds s)

/-- `video_driver`: what is drawn in these rounds. -/
def video_driver (spill : List UInt8 → Console → Console) (xRes yRes : Nat) (rounds : List Round) :
    List Draw :=
  startScreen xRes ++ writeAll spill xRes yRes rounds { x := 4, y := 28 }

/-- The bytes behind the array hold neither `x` nor `y`. -/
def Spares (spill : List UInt8 → Console → Console) : Prop := ∀ bytes s, spill bytes s = s

variable {xRes yRes : Nat} {font_ascii : Nat → UInt8} {c : UInt8} {s : Console} {d : Draw} {p : Nat × Nat}
  {x y v : Int} {text tail : List UInt8} {spill : List UInt8 → Console → Console} {rounds : List Round}

/-! ## A line of whole cells

With `xRes` a multiple of 4 the wrap puts the cursor back on the first cell of a line. Then all
cells stand on multiples of 4 and the last one ends 4 pixels in front of the edge. -/

/-- The next cell is inside the screen, on a multiple of 4. -/
structure Aligned (xRes yRes : Nat) (s : Console) : Prop where
  dvd : 4 ∣ s.x
  left : 4 ≤ s.x
  right : s.x + 8 ≤ xRes
  top : 28 ≤ s.y
  bottom : s.y + 16 ≤ yRes

/-- In the line there is nothing to wrap. -/
theorem wrap_self (hx : xRes < 2 ^ 15) (hleft : 4 ≤ s.x) (hright : s.x < xRes - 4) : wrap xRes s = s := by
  unfold wrap
  rw [s16_of_mem (by omega) (by omega), if_neg (by omega), if_neg (by omega)]

/-- Behind the line the cursor goes on in the next one. -/
theorem wrap_end (hx : xRes < 2 ^ 15) (hwide : 64 ≤ xRes) (hend : xRes - 4 ≤ s.x) (hright : s.x < 2 ^ 15)
    (htop : 0 ≤ s.y) (hbottom : s.y + 16 < 2 ^ 15) :
    wrap xRes s = { x := s.x - (xRes - 8), y := s.y + 16 } := by
  unfold wrap
  rw [s16_of_mem (by omega) (by omega), if_pos (by omega), s16_of_mem (by omega) (by omega),
    s16_of_mem (by omega) (by omega)]

/-- In front of the line it goes back into the one before. -/
theorem wrap_front (hx : xRes < 2 ^ 15) (hwide : 64 ≤ xRes) (hfront : s.x < 4) (hleft : -2 ^ 15 ≤ s.x)
    (htop : 0 ≤ s.y) (hbottom : s.y < 2 ^ 15) :
    wrap xRes s = { x := s.x + (xRes - 8), y := s.y - 16 } := by
  unfold wrap
  rw [s16_of_mem (by omega) (by omega), if_neg (by omega), if_pos hfront, s16_of_mem (by omega) (by omega),
    s16_of_mem (by omega) (by omega)]

/-- A page is 36 lines at least. -/
theorem clamp_page (htall : 600 ≤ yRes) (hy : yRes < 2 ^ 15) (hbottom : s.y ≤ yRes) :
    (clamp yRes s).x = s.x ∧ 28 ≤ (clamp yRes s).y ∧ (clamp yRes s).y + 16 ≤ yRes := by
  unfold clamp
  split
  · exact ⟨rfl, Int.le_refl 28, by show (28 : Int) + 16 ≤ yRes; omega⟩
  · split
    · show s.x = s.x ∧ 28 ≤ s16 (s.y - 16) ∧ s16 (s.y - 16) + 16 ≤ yRes
      rw [s16_of_mem (by omega) (by omega)]
      exact ⟨rfl, by omega, by omega⟩
    · exact ⟨rfl, by omega, by omega⟩

/-- The screens of the driver. -/
structure Mode (xRes yRes : Nat) : Prop where
  wide : 64 ≤ xRes
  tall : 600 ≤ yRes
  x_lt : xRes < 2 ^ 15
  y_lt : yRes < 2 ^ 15

/-- The cursor is in its line again, and below the page by no more than one line. -/
structure InLine (xRes yRes : Nat) (s : Console) : Prop where
  dvd : 4 ∣ s.x
  left : 4 ≤ s.x
  right : s.x + 8 ≤ xRes
  bottom : s.y ≤ yRes

/-- On a line, the clamp leads to a cell of the screen. -/
theorem InLine.clamp (h : InLine xRes yRes s) (hm : Mode xRes yRes) : Aligned xRes yRes (clamp yRes s) := by
  obtain ⟨hx, htop, hbottom⟩ := clamp_page hm.tall hm.y_lt h.bottom
  exact ⟨hx ▸ h.dvd, hx ▸ h.left, hx ▸ h.right, htop, hbottom⟩

theorem InLine.wrap (h : InLine xRes yRes s) (hm : Mode xRes yRes) : InLine xRes yRes (wrap xRes s) := by
  have hright := h.right
  rwa [wrap_self hm.x_lt h.left (by omega)]

/-- A tab stop is in an `s16` if the line is not too long. -/
theorem tab_eq (hleft : 4 ≤ x) (hx : x < 32708) :
    s16 (x - (x - 4).tmod 64 + 64) = x - (x - 4) % 64 + 64 := by
  rw [Int.tmod_eq_emod_of_nonneg (by omega)]
  exact s16_of_mem (by omega) (by omega)

theorem Aligned.column (hs : Aligned xRes yRes s) {x : Int} (hdvd : 4 ∣ x) (hleft : 4 ≤ x)
    (hright : x + 8 ≤ xRes) : InLine xRes yRes { s with x } :=
  ⟨hdvd, hleft, hright, by have hbottom := hs.bottom; show s.y ≤ yRes; omega⟩

/-- One cell back, or to the end of the line above. -/
theorem Aligned.back (hm : Mode xRes yRes) (hdvd : 4 ∣ xRes) (hs : Aligned xRes yRes s) :
    InLine xRes yRes (wrap xRes { s with x := s.x - 8 }) := by
  obtain ⟨hdvd', hleft, hright, htop, hbottom⟩ := id hs
  obtain ⟨hwide, htall, hx, hy⟩ := id hm
  by_cases hfront : s.x - 8 < 4
  · rw [wrap_front hx hwide hfront (by show -2 ^ 15 ≤ s.x - 8; omega) (by show 0 ≤ s.y; omega)
      (by show s.y < 2 ^ 15; omega)]
    exact ⟨by show 4 ∣ s.x - 8 + (xRes - 8); omega, by show 4 ≤ s.x - 8 + (xRes - 8); omega,
      by show s.x - 8 + (xRes - 8) + 8 ≤ xRes; omega, by show s.y - 16 ≤ yRes; omega⟩
  · exact (hs.column (by omega) (by omega) (by omega)).wrap hm

/-- One cell on, or to the beginning of the line below. -/
theorem Aligned.forward (hm : Mode xRes yRes) (hdvd : 4 ∣ xRes) (hs : Aligned xRes yRes s) :
    InLine xRes yRes (wrap xRes { s with x := s.x + 8 }) := by
  obtain ⟨hdvd', hleft, hright, htop, hbottom⟩ := id hs
  obtain ⟨hwide, htall, hx, hy⟩ := id hm
  by_cases hend : xRes - 4 ≤ s.x + 8
  · rw [wrap_end hx hwide hend (by show s.x + 8 < 2 ^ 15; omega) (by show 0 ≤ s.y; omega)
      (by show s.y + 16 < 2 ^ 15; omega)]
    exact ⟨by show 4 ∣ s.x + 8 - (xRes - 8); omega, by show 4 ≤ s.x + 8 - (xRes - 8); omega,
      by show s.x + 8 - (xRes - 8) + 8 ≤ xRes; omega, by show s.y + 16 ≤ yRes; omega⟩
  · exact (hs.column (by omega) (by omega) (by omega)).wrap hm

/-- **One character.** Where the line is a multiple of 4, and not too long for a tab. -/
theorem switch_inLine (hm : Mode xRes yRes) (hdvd : 4 ∣ xRes) (hshort : xRes < 32716)
    (hs : Aligned xRes yRes s) :
    InLine xRes yRes (wrap xRes (switch xRes c s).1) ∧ ∀ d ∈ (switch xRes c s).2, d.Inside xRes yRes := by
  obtain ⟨hdvd', hleft, hright, htop, hbottom⟩ := id hs
  obtain ⟨hwide, htall, hx, hy⟩ := id hm
  have hstart : ∀ y : Int, y ≤ yRes → InLine xRes yRes { x := 4, y } :=
    fun y hbottom => ⟨Int.dvd_refl 4, Int.le_refl 4, by show (4 : Int) + 8 ≤ xRes; omega, hbottom⟩
  have hrow : ∀ y : Int, y ≤ yRes → InLine xRes yRes { s with y } :=
    fun y hbottom => ⟨hdvd', hleft, hright, hbottom⟩
  unfold switch
  -- one case for each character of the `switch`
  split_ifs with hr hn ht hb hf h1
  · exact ⟨(hstart _ (by omega)).wrap hm, nofun⟩
  · dsimp only
    rw [s16_of_mem (by omega) (by omega)]
    exact ⟨(hrow _ (by omega)).wrap hm, nofun⟩
  · dsimp only
    rw [tab_eq hleft (by omega), s16_of_mem (v := s.y + 16) (by omega) (by omega)]
    split
    · exact ⟨(hstart _ (by omega)).wrap hm, nofun⟩
    · exact ⟨(hs.column (by omega) (by omega) (by omega)).wrap hm, nofun⟩
  · dsimp only
    rw [s16_of_mem (by omega) (by omega)]
    exact ⟨hs.back hm hdvd, nofun⟩
  · refine ⟨(hstart 28 (by omega)).wrap hm, fun d hd => ?_⟩
    rw [List.mem_singleton.mp hd]
    trivial
  · dsimp only
    rw [s16_of_mem (by omega) (by omega)]
    exact ⟨(hrow _ (by omega)).wrap hm, nofun⟩
  · dsimp only
    rw [s16_of_mem (by omega) (by omega)]
    refine ⟨hs.forward hm hdvd, fun d hd => ?_⟩
    rw [List.mem_singleton.mp hd]
    exact ⟨by omega, hright, by omega, hbottom⟩

/-! ## Runs

A character keeps the cursor on whole cells, and what is drawn at such a cell is inside. Messages
and rounds are sequences of characters. -/

theorem step_aligned (hm : Mode xRes yRes) (hdvd : 4 ∣ xRes) (hshort : xRes < 32716) (hs : Aligned xRes yRes s) :
    Aligned xRes yRes (step xRes yRes c s).1 ∧ ∀ d ∈ (step xRes yRes c s).2, d.Inside xRes yRes := by
  obtain ⟨hline, hdraws⟩ := switch_inLine (c := c) hm hdvd hshort hs
  exact ⟨hline.clamp hm, hdraws⟩

theorem write_cons (hc : c ≠ 0) : write xRes yRes (c :: text) s =
    ((write xRes yRes text (step xRes yRes c s).1).1,
      (step xRes yRes c s).2 ++ (write xRes yRes text (step xRes yRes c s).1).2) := by
  rw [write, if_neg hc]

/-- A buffer keeps the cursor aligned, and draws inside. Induction on the characters. -/
theorem write_aligned (text : List UInt8) (hm : Mode xRes yRes) (hdvd : 4 ∣ xRes) (hshort : xRes < 32716) (hs : Aligned xRes yRes s) :
    Aligned xRes yRes (write xRes yRes text s).1 ∧ ∀ d ∈ (write xRes yRes text s).2, d.Inside xRes yRes := by
  induction text generalizing s with
  | nil => exact ⟨hs, nofun⟩
  | cons c text ih =>
    by_cases hc : c = 0
    · rw [write, if_pos hc]
      exact ⟨hs, nofun⟩
    · obtain ⟨hnext, hdraws⟩ := step_aligned (c := c) hm hdvd hshort hs
      obtain ⟨hend, hrest⟩ := ih hnext
      rw [write_cons hc]
      refine ⟨hend, fun d hd => ?_⟩
      rcases List.mem_append.mp hd with hd | hd
      · exact hdraws d hd
      · exact hrest d hd

/-- Round after round. -/
theorem writeAll_inside (hspill : Spares spill) (hm : Mode xRes yRes) (hdvd : 4 ∣ xRes)
    (hstatus : 272 ≤ xRes) (hshort : xRes < 32716) (hs : Aligned xRes yRes s) :
    ∀ d ∈ writeAll spill xRes yRes rounds s, d.Inside xRes yRes := by
  induction rounds generalizing s with
  | nil => exact nofun
  | cons round rounds ih =>
    obtain ⟨hnext, hdraws⟩ := write_aligned round.buffer hm hdvd hshort hs
    intro d hd
    rw [writeAll, hspill] at hd
    rcases List.mem_append.mp hd with hd | hd
    · exact statusLine_inside hstatus hm.x_lt hm.tall d hd
    · rcases List.mem_append.mp hd with hd | hd
      · exact hdraws d hd
      · exact ih hnext d hd

/-! ## Other lines

Where `xRes` is no multiple of 4 the wrap carries the remainder along, and after a few full lines
of letters a cell reaches over the edge. -/

/-- A character without a meaning of its own. -/
def LETTER : UInt8 := 65

/-- The cursor behind `k` characters from the beginning, if they were all inside. -/
structure Behind (xRes yRes k : Nat) (s : Console) : Prop where
  x : s.x = 4 + (8 * k % (xRes - 8) : Nat)
  top : 28 ≤ s.y
  bottom : s.y + 16 ≤ yRes

/-- A letter is drawn and the cursor goes on by 8. -/
theorem step_letter : step xRes yRes LETTER s =
    (clamp yRes (wrap xRes { s with x := s16 (s.x + 8) }), [.cell LETTER s.x s.y]) := rfl

/-- The next character is that much further, round the line. -/
theorem behind_succ {k : Nat} (hm : Mode xRes yRes) (h : Behind xRes yRes k s) (hin : s.x + 8 ≤ xRes) :
    Behind xRes yRes (k + 1) (step xRes yRes LETTER s).1 := by
  obtain ⟨hwide, htall, hx, hy⟩ := hm
  obtain ⟨hcol, htop, hbottom⟩ := h
  have hlt : 8 * k % (xRes - 8) < xRes - 8 := Nat.mod_lt _ (by omega)
  have hnext : 8 * (k + 1) % (xRes - 8) = (8 * k % (xRes - 8) + 8) % (xRes - 8) := by
    rw [Nat.mul_add, Nat.mod_add_mod]
  rw [step_letter]
  dsimp only
  rw [s16_of_mem (by omega) (by omega)]
  -- behind the end of the line the remainder is carried over
  by_cases hend : xRes - 4 ≤ s.x + 8
  · rw [wrap_end hx hwide hend (by show s.x + 8 < 2 ^ 15; omega) (by show 0 ≤ s.y; omega)
      (by show s.y + 16 < 2 ^ 15; omega)]
    obtain ⟨hkeep, htop', hbottom'⟩ := clamp_page (s := ⟨s.x + 8 - (xRes - 8), s.y + 16⟩) htall hy hbottom
    refine ⟨hkeep.trans ?_, htop', hbottom'⟩
    rw [hnext, Nat.mod_eq_sub_mod (by omega), Nat.mod_eq_of_lt (by omega)]
    show s.x + 8 - (xRes - 8) = _
    omega
  · rw [wrap_self hx (by show 4 ≤ s.x + 8; omega) (by show s.x + 8 < xRes - 4; omega)]
    obtain ⟨hkeep, htop', hbottom'⟩ := clamp_page (s := ⟨s.x + 8, s.y⟩) htall hy (by show s.y ≤ yRes; omega)
    refine ⟨hkeep.trans ?_, htop', hbottom'⟩
    rw [hnext, Nat.mod_eq_of_lt (by omega)]
    show s.x + 8 = _
    omega

/-- Letters, and a text that draws outside behind them: something is drawn outside. Induction on the
letters. -/
theorem letters_outside {j k : Nat} (tail : List UInt8) (hm : Mode xRes yRes) (hs : Behind xRes yRes j s)
    (htail : ∀ s, Behind xRes yRes (j + k) s → ∃ d ∈ (write xRes yRes tail s).2, ¬ d.Inside xRes yRes) :
    ∃ d ∈ (write xRes yRes (List.replicate k LETTER ++ tail) s).2, ¬ d.Inside xRes yRes := by
  induction k generalizing j s with
  | zero => exact htail s hs
  | succ k ih =>
    rw [List.replicate_succ, List.cons_append, write_cons (by decide)]
    by_cases hin : s.x + 8 ≤ xRes
    · obtain ⟨d, hd, hout⟩ := ih (behind_succ hm hs hin) fun s hs => htail s (by
        rwa [show j + (k + 1) = j + 1 + k by omega])
      exact ⟨d, List.mem_append_right _ hd, hout⟩
    · refine ⟨.cell LETTER s.x s.y, List.mem_append_left _ ?_, fun hinside => hin hinside.2.1⟩
      rw [step_letter]
      exact List.mem_cons_self

/-- In steps of 8 a ring that is no multiple of 4 is met less than 4 in front of its end. -/
theorem exists_steps {l : Nat} (hl : 8 < l) (hdvd : ¬ 4 ∣ l) : ∃ k, l - 4 < 8 * k % l := by
  have hgcd : Nat.gcd 8 l ∣ 8 := Nat.gcd_dvd_left 8 l
  have hsmall : Nat.gcd 8 l < 4 ∧ 0 < Nat.gcd 8 l := by
    have hle := Nat.le_of_dvd (by decide) hgcd
    have hnot : ¬ 4 ∣ Nat.gcd 8 l := fun h => hdvd (h.trans (Nat.gcd_dvd_right 8 l))
    interval_cases Nat.gcd 8 l <;> omega
  obtain ⟨m, -, hm⟩ := Nat.exists_mul_mod_eq_gcd (n := 8) (k := l) (by omega)
  generalize Nat.gcd 8 l = g at hm hsmall
  obtain ⟨g, rfl⟩ : ∃ g', g = g' + 1 := ⟨g - 1, by omega⟩
  obtain ⟨e, rfl⟩ : ∃ e, l = g + e + 1 := ⟨l - g - 1, by omega⟩
  have hdiv := Nat.div_add_mod (8 * m) (g + e + 1)
  rw [hm] at hdiv
  -- as often as there are steps but one, to go back by as much
  have hback : 8 * (m * (g + e)) = e + (g + e + 1) * (8 * m / (g + e + 1) * (g + e) + g) := by
    calc 8 * (m * (g + e)) = 8 * m * (g + e) := by ring
      _ = ((g + e + 1) * (8 * m / (g + e + 1)) + (g + 1)) * (g + e) := by rw [hdiv]
      _ = _ := by ring
  refine ⟨m * (g + e), ?_⟩
  rw [hback, Nat.add_mul_mod_self_left, Nat.mod_eq_of_lt (by omega)]
  omega

/-- The run begins at the first cell. -/
theorem behind_start (hm : Mode xRes yRes) : Behind xRes yRes 0 { x := 4, y := 28 } := by
  refine ⟨?_, Int.le_refl 28, ?_⟩
  · rw [Nat.mul_zero, Nat.zero_mod]
    rfl
  · have htall := hm.tall
    show (28 : Int) + 16 ≤ yRes
    omega

/-- A round with this buffer. -/
def roundOf (text : List UInt8) : Round := ⟨fun _ => 0, text⟩

/-- What one buffer draws, the driver draws. -/
theorem outside_of_write (hspill : Spares spill)
    (h : ∃ d ∈ (write xRes yRes text { x := 4, y := 28 }).2, ¬ d.Inside xRes yRes) :
    ∃ d ∈ video_driver spill xRes yRes [roundOf text], ¬ d.Inside xRes yRes := by
  obtain ⟨d, hd, hout⟩ := h
  refine ⟨d, List.mem_append_right _ ?_, hout⟩
  rw [writeAll, hspill]
  exact List.mem_append_right _ (List.mem_append_left _ hd)

/-- The letter behind these is too far to the right. -/
theorem outside_of_steps {k : Nat} (hspill : Spares spill) (hm : Mode xRes yRes)
    (hk : xRes - 8 - 4 < 8 * k % (xRes - 8)) :
    ∃ d ∈ video_driver spill xRes yRes [roundOf (List.replicate k LETTER ++ [LETTER])],
      ¬ d.Inside xRes yRes := by
  refine outside_of_write hspill (letters_outside [LETTER] hm (behind_start hm) fun s hs => ?_)
  rw [Nat.zero_add] at hs
  have hx := hs.x
  refine ⟨.cell LETTER s.x s.y, ?_, fun hinside => ?_⟩
  · rw [write_cons (by decide), step_letter]
    exact List.mem_append_left _ List.mem_cons_self
  · have hright : s.x + 8 ≤ xRes := hinside.2.1
    omega

/-- A line of letters that ends between two multiples of 4. -/
theorem outside_of_not_dvd (hspill : Spares spill) (hm : Mode xRes yRes) (hdvd : ¬ 4 ∣ xRes) :
    ∃ text, ∃ d ∈ video_driver spill xRes yRes [roundOf text], ¬ d.Inside xRes yRes := by
  have hwide := hm.wide
  obtain ⟨k, hk⟩ := exists_steps (l := xRes - 8) (by omega) (by omega)
  exact ⟨_, outside_of_steps hspill hm hk⟩

/-- Behind the last tab stop of a long line the column is negative. -/
theorem outside_of_long (hspill : Spares spill) (hm : Mode xRes yRes) (hlong : 32716 ≤ xRes) :
    ∃ text, ∃ d ∈ video_driver spill xRes yRes [roundOf text], ¬ d.Inside xRes yRes := by
  have hlt := hm.x_lt
  refine ⟨_, outside_of_write hspill
    (letters_outside (k := 4088) [9, LETTER] hm (behind_start hm) fun s hs => ?_)⟩
  have hx : s.x = 32708 := by
    rw [hs.x, Nat.mod_eq_of_lt (by omega)]
    rfl
  obtain ⟨x, y⟩ := s
  subst hx
  have htop : 28 ≤ y := hs.top
  have hbottom : y + 16 ≤ yRes := hs.bottom
  have hy := hm.y_lt
  -- a tab from the last column leaves the `s16`
  have hoverflow : s16 (32708 - (32708 - 4 : Int).tmod 64 + 64) = -32764 := by decide
  have hswitch : (switch xRes 9 ⟨32708, y⟩).1 = ⟨-32764, y⟩ := by
    unfold switch
    rw [if_neg (by decide), if_neg (by decide), if_pos rfl]
    dsimp only
    rw [hoverflow, if_neg (by omega)]
  have htab : (step xRes yRes 9 ⟨32708, y⟩).1.x = -32764 + (xRes - 8) := by
    show (clamp yRes (wrap xRes (switch xRes 9 ⟨32708, y⟩).1)).x = _
    rw [hswitch, wrap_front hm.x_lt hm.wide (by show (-32764 : Int) < 4; decide)
      (by show (-2 ^ 15 : Int) ≤ -32764; decide) (by show 0 ≤ y; omega) (by show y < 2 ^ 15; omega)]
    exact (clamp_page hm.tall hm.y_lt (by show y - 16 ≤ yRes; omega)).1
  refine ⟨.cell LETTER (step xRes yRes 9 ⟨32708, y⟩).1.x (step xRes yRes 9 ⟨32708, y⟩).1.y, ?_, fun hinside => ?_⟩
  · rw [write_cons (by decide), write_cons (by decide)]
    exact List.mem_append_right _ (List.mem_append_left _ List.mem_cons_self)
  · have hleft : 0 ≤ (step xRes yRes 9 ⟨32708, y⟩).1.x := hinside.1
    rw [htab] at hleft
    omega

variable (spill yRes) in
/-- On a narrow screen the status line of every round is too long. -/
theorem outside_of_narrow (hnarrow : xRes < 272) :
    ∃ text, ∃ d ∈ video_driver spill xRes yRes [roundOf text], ¬ d.Inside xRes yRes := by
  obtain ⟨d, hd, hout⟩ := @statusLine_outside xRes yRes hnarrow (statusText fun _ => 0)
  exact ⟨[], d, List.mem_append_right _ (List.mem_append_left _ hd), hout⟩

/-- The status line and both kinds of lines of the console. -/
theorem inside_iff (hspill : Spares spill) (hm : Mode xRes yRes) :
    (∀ rounds, ∀ d ∈ video_driver spill xRes yRes rounds, d.Inside xRes yRes) ↔
      4 ∣ xRes ∧ 272 ≤ xRes ∧ xRes < 32716 := by
  constructor
  · intro h
    refine ⟨?_, ?_, ?_⟩
    · by_contra hdvd
      obtain ⟨text, d, hd, hout⟩ := outside_of_not_dvd hspill hm hdvd
      exact hout (h _ d hd)
    · by_contra hnarrow
      obtain ⟨text, d, hd, hout⟩ := outside_of_narrow yRes spill (show xRes < 272 by omega)
      exact hout (h _ d hd)
    · by_contra hlong
      obtain ⟨text, d, hd, hout⟩ := outside_of_long hspill hm (by omega)
      exact hout (h _ d hd)
  · rintro ⟨hdvd, hstatus, hshort⟩ rounds d hd
    obtain ⟨hwide, htall, -, -⟩ := id hm
    -- drawn before the loop, or in it
    rcases List.mem_append.mp hd with hd | hd
    · exact startScreen_inside hstatus hm.x_lt htall d hd
    · exact writeAll_inside hspill hm hdvd hstatus hshort ⟨Int.dvd_refl 4, Int.le_refl 4,
        by show (4 : Int) + 8 ≤ xRes; omega, Int.le_refl 28, by show (28 : Int) + 16 ≤ yRes; omega⟩ d hd

/-- **The console stays on the screen.** Every cell is inside, and every point that is drawn, if and only
if the lines are a multiple of 4 pixels long, the screen has room for the status line, and no tab leads
out of an `s16`. -/
theorem video_driver_inside (hspill : Spares spill) (hm : Mode xRes yRes) :
    (∀ rounds, ∀ d ∈ video_driver spill xRes yRes rounds, d.Inside xRes yRes ∧
      ∀ p ∈ d.points font_ascii xRes yRes, p.1 < xRes ∧ p.2 < yRes) ↔
        4 ∣ xRes ∧ 272 ≤ xRes ∧ xRes < 32716 := by
  rw [← inside_iff hspill hm]
  constructor
  · intro h rounds d hd
    exact (h rounds d hd).1
  · intro h rounds d hd
    exact ⟨h rounds d hd, fun p hp => (h rounds d hd).points hm.x_lt hm.y_lt hp⟩

/-- The mode that the loader sets by default. -/
theorem video_driver_inside_1024 : 4 ∣ 1024 ∧
    ∀ rounds, ∀ d ∈ video_driver (fun _ s => s) 1024 768 rounds, d.Inside 1024 768 ∧
      ∀ p ∈ d.points (fun _ => 0xFF) 1024 768, p.1 < 1024 ∧ p.2 < 768 :=
  ⟨by decide, (video_driver_inside (show Spares fun _ s => s from fun _ _ => rfl)
    ⟨by decide, by decide, by decide, by decide⟩).mpr ⟨by decide, by decide, by decide⟩⟩

/-- 510 letters on a screen of 1366 by 768, and the status line on one of 256 by 768. -/
theorem not_inside_1366 :
    (Mode 1366 768 ∧
      ¬ ∀ rounds, ∀ d ∈ video_driver (fun _ s => s) 1366 768 rounds, d.Inside 1366 768) ∧
    Mode 256 768 ∧
      ¬ ∀ rounds, ∀ d ∈ video_driver (fun _ s => s) 256 768 rounds, d.Inside 256 768 := by
  have hm : Mode 1366 768 := ⟨by decide, by decide, by decide, by decide⟩
  refine ⟨⟨hm, fun h => ?_⟩, ⟨by decide, by decide, by decide, by decide⟩, fun h => ?_⟩
  · obtain ⟨d, hd, hout⟩ := outside_of_steps (k := 509) (show Spares fun _ s => s from fun _ _ => rfl)
      hm (by decide)
    exact hout (h _ d hd)
  · obtain ⟨text, d, hd, hout⟩ := outside_of_narrow 768 (fun _ s => s) (show 256 < 272 by decide)
    exact hout (h _ d hd)

end Video

end NorlitOS
