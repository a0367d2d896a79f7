import NorlitOS.Format.Print
import Mathlib.Tactic.Ring

/-!
# Drawing (`driver/video/video.c`)

The functions of the video driver that draw: rectangles, gradients, characters and strings. What they
draw is a list of points, each of them a call of `drawPoint`; the colours are left out. Nothing compares
a point with the screen.
-/

namespace NorlitOS

namespace Video

/-- The value of an `int` stored into an `s16`. -/
def s16 (v : Int) : Int := v.bmod (2 ^ 16)

/-- The value of an `int` passed as a `u16`. -/
def u16 (v : Int) : Nat := (v % 2 ^ 16).toNat

/-! ## The functions that draw

Coordinates are `u16` and `s16` as in the source, and the loops go from one corner to the other. A
string is drawn up to its NUL, and a character that reaches the edge is followed by a new line. -/

/-- The points of `fillRect`. -/
def fillRect (x0 y0 x1 y1 : Nat) : List (Nat × Nat) :=
  (List.range' y0 (y1 - y0)).flatMap fun y => (List.range' x0 (x1 - x0)).map fun x => (x, y)

/-- The points of `fillGradient`: column by column, or row by row. -/
def fillGradient (x0 y0 x1 y1 : Nat) (hori : Bool) : List (Nat × Nat) :=
  if hori then
    (List.range (u16 (x1 - x0))).flatMap fun (x : Nat) =>
      (List.range' y0 (y1 - y0)).map fun y => (u16 (x + x0), y)
  else
    (List.range (u16 (y1 - y0))).flatMap fun (y : Nat) =>
      (List.range' x0 (x1 - x0)).map fun x => (x, u16 (y + y0))

/-- The points of `drawChar`, where the font has a bit. -/
def drawChar (font_ascii : Nat → UInt8) (chr : UInt8) (x yn : Nat) : List (Nat × Nat) :=
  (List.range 16).flatMap fun index => (List.range 8).filterMap fun k =>
    if (font_ascii (chr.toNat * 16 + index)).toNat.testBit (7 - k) then
      some ((x + k) % 2 ^ 16, (yn + index) % 2 ^ 16)
    else none

/-- What is drawn: a gradient, a character on it, a character in a cell that is cleared first, or the
page behind `'\f'`. -/
inductive Draw where
  | gradient (x0 y0 x1 y1 : Nat)
  | glyph (c : UInt8) (x y : Nat)
  | cell (c : UInt8) (x y : Int)
  | page

/-- `drawPoint` is called with these. -/
def Draw.points (font_ascii : Nat → UInt8) (xRes yRes : Nat) : Draw → List (Nat × Nat)
  | .gradient x0 y0 x1 y1 => fillGradient x0 y0 x1 y1 false
  | .glyph c x y => drawChar font_ascii c x y
  | .cell c x y =>
    fillRect (u16 x) (u16 y) (u16 (x + 8)) (u16 (y + 16)) ++ drawChar font_ascii c (u16 x) (u16 y)
  | .page => fillRect 0 24 xRes yRes

/-- The rectangle that is drawn to is inside the screen. -/
def Draw.Inside (xRes yRes : Nat) : Draw → Prop
  | .gradient x0 y0 x1 y1 => x0 ≤ x1 ∧ x1 ≤ xRes ∧ y0 ≤ y1 ∧ y1 ≤ yRes
  | .glyph _ x y => x + 8 ≤ xRes ∧ y + 16 ≤ yRes
  | .cell _ x y => 0 ≤ x ∧ x + 8 ≤ xRes ∧ 0 ≤ y ∧ y + 16 ≤ yRes
  | .page => True

/-- `switch(c)` of `drawString`: where the next character goes, and what is drawn. -/
def place (xRes : Nat) (c : UInt8) (x y : Nat) : (Nat × Nat) × List Draw :=
  if c = 13 then ((0, y), [])
  else if c = 10 then ((x, u16 (y + 16)), [])
  else if c = 9 then ((u16 (x + 64), y), [])
  else if c = 8 then
    if x = 0 then ((u16 (xRes - 8), u16 (y - 16)), []) else ((u16 (x - 8), y), [])
  else if c = 12 then ((0, 0), [])
  else if c = 1 then
    let y := u16 (y - 16)
    ((x, if y < 24 then 24 else y), [])
  else
    let next := u16 (x + 8)
    (if xRes ≤ next then (u16 (next - xRes), u16 (y + 16)) else (next, y), [.glyph c x y])

/-- `drawString`. -/
def drawString (xRes : Nat) : List UInt8 → Nat → Nat → List Draw
  | [], _, _ => []
  | c :: tmp, x, y =>
    if c = 0 then []
    else
      let ((x, y), draws) := place xRes c x y
      draws ++ drawString xRes tmp x y

/-! ## Points

Inside a screen of less than `2 ^ 15` pixels the coordinates do not overflow, and every point lies in
the rectangle it belongs to. -/

section Points

variable {xRes yRes : Nat} {font_ascii : Nat → UInt8} {c : UInt8} {d : Draw} {p : Nat × Nat}
  {x y : Nat} {v : Int} {text : List UInt8}

theorem s16_of_mem (hlo : -2 ^ 15 ≤ v) (hhi : v < 2 ^ 15) : s16 v = v :=
  Int.bmod_eq_of_le_mul_two (by omega) (by omega)

theorem u16_of_mem (hlo : 0 ≤ v) (hhi : v < 2 ^ 16) : (u16 v : Int) = v := by
  unfold u16
  omega

theorem mem_fillRect {x0 y0 x1 y1 : Nat} (hp : p ∈ fillRect x0 y0 x1 y1) :
    p.1 < x1 ∧ p.2 < y1 := by
  unfold fillRect at hp
  obtain ⟨y, hy, hp⟩ := List.mem_flatMap.mp hp
  obtain ⟨x, hx, rfl⟩ := List.mem_map.mp hp
  rw [List.mem_range'_1] at hx hy
  exact ⟨by omega, by omega⟩

theorem mem_fillGradient {x0 y0 x1 y1 : Nat} (hy : y0 ≤ y1) (hlt : y1 < 2 ^ 16)
    (hp : p ∈ fillGradient x0 y0 x1 y1 false) : p.1 < x1 ∧ p.2 < y1 := by
  unfold fillGradient at hp
  rw [if_neg Bool.false_ne_true] at hp
  obtain ⟨y, hy', hp⟩ := List.mem_flatMap.mp hp
  obtain ⟨x, hx, rfl⟩ := List.mem_map.mp hp
  have hrows := u16_of_mem (v := (y1 : Int) - y0) (by omega) (by omega)
  rw [List.mem_range] at hy'
  rw [List.mem_range'_1] at hx
  have hrow := u16_of_mem (v := (y : Int) + y0) (by omega) (by omega)
  exact ⟨by omega, by omega⟩

theorem mem_drawChar {yn : Nat} (hp : p ∈ drawChar font_ascii c x yn) :
    ∃ k < 8, ∃ index < 16, p = ((x + k) % 2 ^ 16, (yn + index) % 2 ^ 16) := by
  unfold drawChar at hp
  obtain ⟨index, hindex, hp⟩ := List.mem_flatMap.mp hp
  obtain ⟨k, hk, hpoint⟩ := List.mem_filterMap.mp hp
  split at hpoint
  · exact ⟨k, List.mem_range.mp hk, index, List.mem_range.mp hindex, (Option.some.inj hpoint).symm⟩
  · exact nomatch hpoint

/-- A character in a cell inside the screen. -/
theorem mem_drawChar_inside (hx : xRes < 2 ^ 15) (hy : yRes < 2 ^ 15) (hright : x + 8 ≤ xRes)
    (hbottom : y + 16 ≤ yRes) (hp : p ∈ drawChar font_ascii c x y) : p.1 < xRes ∧ p.2 < yRes := by
  obtain ⟨k, hk, index, hindex, rfl⟩ := mem_drawChar hp
  show (x + k) % 2 ^ 16 < xRes ∧ (y + index) % 2 ^ 16 < yRes
  exact ⟨by omega, by omega⟩

/-- Nothing is drawn outside the screen by what is inside. -/
theorem Draw.Inside.points (hx : xRes < 2 ^ 15) (hy : yRes < 2 ^ 15) (h : d.Inside xRes yRes)
    (hp : p ∈ d.points font_ascii xRes yRes) : p.1 < xRes ∧ p.2 < yRes := by
  cases d with
  | page => exact mem_fillRect hp
  | gradient x0 y0 x1 y1 =>
    obtain ⟨hx0, hx1, hy0, hy1⟩ := h
    obtain ⟨hpx, hpy⟩ := mem_fillGradient hy0 (by omega) hp
    exact ⟨by omega, by omega⟩
  | glyph c x y => exact mem_drawChar_inside hx hy h.1 h.2 hp
  | cell c x y =>
    obtain ⟨hx0, hx1, hy0, hy1⟩ := h
    have hux := u16_of_mem hx0 (by omega)
    have huy := u16_of_mem hy0 (by omega)
    rcases List.mem_append.mp hp with hp | hp
    · have hux' := u16_of_mem (v := x + 8) (by omega) (by omega)
      have huy' := u16_of_mem (v := y + 16) (by omega) (by omega)
      obtain ⟨hpx, hpy⟩ := mem_fillRect hp
      exact ⟨by omega, by omega⟩
    · exact mem_drawChar_inside hx hy (by omega) (by omega) hp

theorem drawString_cons (hc : c ≠ 0) : drawString xRes (c :: text) x y =
    (place xRes c x y).2 ++ drawString xRes text (place xRes c x y).1.1 (place xRes c x y).1.2 := by
  rw [drawString, if_neg hc]

/-- A letter is drawn where the string is, and the next one 8 pixels behind it. -/
theorem place_letter (hc : 32 ≤ c) : (place xRes c x y).2 = [.glyph c x y] ∧
    (u16 (x + 8) < xRes → (place xRes c x y).1 = (u16 (x + 8), y)) := by
  have hne : ∀ k : UInt8, k < 32 → c ≠ k := fun k hk heq => absurd hk (UInt8.not_lt.mpr (heq ▸ hc))
  unfold place
  rw [if_neg (hne 13 (by decide)), if_neg (hne 10 (by decide)), if_neg (hne 9 (by decide)),
    if_neg (hne 8 (by decide)), if_neg (hne 12 (by decide)), if_neg (hne 1 (by decide))]
  exact ⟨rfl, fun hin => if_neg (by omega)⟩

/-- A string without control characters stays in its row. Induction on the characters: the last of them
may end the line, as nothing comes behind it. -/
theorem drawString_inside (hx : xRes < 2 ^ 15) (hletters : ∀ c ∈ text, 32 ≤ c)
    (hright : x + 8 * text.length ≤ xRes) (hbottom : y + 16 ≤ yRes) :
    ∀ d ∈ drawString xRes text x y, d.Inside xRes yRes := by
  induction text generalizing x with
  | nil => exact nofun
  | cons c tmp ih =>
    have hc := hletters c List.mem_cons_self
    have hnext := u16_of_mem (v := (x : Int) + 8) (by omega) (by omega)
    obtain ⟨hdraws, hplace⟩ := @place_letter xRes c x y hc
    rw [List.length_cons] at hright
    intro d hd
    rw [drawString_cons (by rintro rfl; exact absurd hc (by decide)), hdraws] at hd
    rcases List.mem_append.mp hd with hd | hd
    · rw [List.mem_singleton.mp hd]
      exact ⟨by omega, hbottom⟩
    -- behind the last letter nothing is drawn, so it may reach the edge
    · cases tmp with
      | nil => exact nomatch hd
      | cons c' tmp =>
        rw [List.length_cons] at hright
        rw [hplace (by omega)] at hd
        refine ih (fun c hc => hletters c (List.mem_cons_of_mem _ hc)) ?_ d hd
        rw [List.length_cons]
        omega

end Points

end Video

end NorlitOS
