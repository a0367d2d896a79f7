import NorlitOS.Video.Drawing

/-!
# The status line

In every round the driver writes the size of the free memory above the console. The text is printed
into an array of 12 bytes, which it never fits; where it is drawn does not depend on the width of the
screen.
-/

namespace NorlitOS

namespace Video

/-- `k`: the three numbers, each from its own reading of `freeMemoryCounter`. -/
def k (freeMemoryCounter : Nat → UInt32) : Nat → UInt32
  | 0 => freeMemoryCounter 0 / 1024 / 1024
  | 1 => freeMemoryCounter 1 % (1024 * 1024) / 1024
  | _ => freeMemoryCounter 2 % 1024

/-- The text that `vsprintf(a,"%dMB%4dKB%4dBytes",(u8*)b)` writes, without its NUL. -/
def statusText (freeMemoryCounter : Nat → UInt32) : List UInt8 :=
  (Printf.vsprintf (k freeMemoryCounter) (fun _ => []) "%dMB%4dKB%4dBytes".toList 0).1.map byteOf

/-- The size of `a`. -/
def A_SIZE : Nat := 12

/-- What `vsprintf` writes behind `a`. -/
def overrun (text : List UInt8) : List UInt8 := (text ++ [0]).drop A_SIZE

/-- The line is filled and written anew. -/
def statusLine (xRes : Nat) (text : List UInt8) : List Draw :=
  .gradient (8 * 13) 4 (8 * 34) (16 + 4) :: drawString xRes text (8 * 13) 4

/-- The screen in front of the loop. -/
def startScreen (xRes : Nat) : List Draw :=
  .gradient 0 0 xRes 24 :: .page :: drawString xRes ("Norlit OS".toList.map byteOf) 6 4

variable {freeMemoryCounter : Nat → UInt32} {xRes yRes num : Nat} {width : Int} {c : Char} {d : Draw}

/-! ## The text

Three numbers, the first of four digits at most, the others in fields of four. -/

/-- The flags of `%d`. -/
def decimalFlags : Printf.Flags := { Printf.noFlags with sign := true }

/-- A number as `%d` writes it in a field of this width. -/
def number (width : Int) (n : UInt32) : List Char := Printf.itoa n.toNat 10 width (-1) decimalFlags

theorem statusText_eq : statusText freeMemoryCounter =
    (number (-1) (k freeMemoryCounter 0) ++ ("MB".toList ++ (number 4 (k freeMemoryCounter 1) ++
      ("KB".toList ++ (number 4 (k freeMemoryCounter 2) ++ "Bytes".toList))))).map byteOf := by
  -- three directives, and the words behind them
  have hfmt : "%dMB%4dKB%4dBytes".toList = '%' :: 'd' :: ("MB".toList ++ '%' :: '4' :: 'd' ::
      ("KB".toList ++ '%' :: '4' :: 'd' :: ("Bytes".toList ++ []))) := by decide
  unfold statusText
  rw [hfmt, Printf.vsprintf_convert (c := 'd') (n := 1) rfl rfl, Printf.vsprintf_append (by decide),
    Printf.vsprintf_convert (c := 'd') (n := 1) rfl rfl, Printf.vsprintf_append (by decide),
    Printf.vsprintf_convert (c := 'd') (n := 1) rfl rfl, Printf.vsprintf_append (by decide),
    Printf.vsprintf_nil]
  rfl

theorem k_lt (freeMemoryCounter : Nat → UInt32) (i : Nat) : (k freeMemoryCounter i).toNat < 10 ^ 4 := by
  have h0 := (freeMemoryCounter 0).toNat_lt
  match i with
  | 0 =>
    show (freeMemoryCounter 0 / 1024 / 1024).toNat < 10 ^ 4
    rw [UInt32.toNat_div, UInt32.toNat_div]
    show (freeMemoryCounter 0).toNat / 1024 / 1024 < 10 ^ 4
    omega
  | 1 =>
    show (freeMemoryCounter 1 % (1024 * 1024) / 1024).toNat < 10 ^ 4
    rw [UInt32.toNat_div, UInt32.toNat_mod]
    show (freeMemoryCounter 1).toNat % (1024 * 1024) / 1024 < 10 ^ 4
    omega
  | i + 2 =>
    show (freeMemoryCounter 2 % 1024).toNat < 10 ^ 4
    rw [UInt32.toNat_mod]
    show (freeMemoryCounter 2).toNat % 1024 < 10 ^ 4
    omega

/-- A number below 10000 takes its field, or its digits. -/
theorem number_length {n : UInt32} (hn : n.toNat < 10 ^ 4) :
    1 ≤ (number width n).length ∧ (number width n).length ≤ max width.toNat 4 ∧
      width.toNat ≤ (number width n).length := by
  have hdigits : (Printf.numeral false 10 n.toNat).length ≤ 4 :=
    Printf.numeral_length_le (by decide) (by decide) hn
  have hne : (Printf.numeral false 10 n.toNat).length ≠ 0 := by
    rw [ne_eq, List.length_eq_zero_iff]
    exact Printf.numeral_ne_nil _ _ _
  have hlen : (number width n).length = max width.toNat (Printf.numeral false 10 n.toNat).length :=
    Printf.itoa_length (by omega) (by decide) (fun hneg => by have := hneg.2; omega) rfl rfl
  omega

/-- **The text never fits** into `a`: it has 18 characters at least. -/
theorem statusText_length : 18 ≤ (statusText freeMemoryCounter).length ∧
    (statusText freeMemoryCounter).length ≤ 21 := by
  -- the first number has no width, the other two are of four characters
  obtain ⟨hlo, hhi, -⟩ := @number_length (-1) _ (k_lt freeMemoryCounter 0)
  obtain ⟨-, hhi1, hlo1⟩ := @number_length 4 _ (k_lt freeMemoryCounter 1)
  obtain ⟨-, hhi2, hlo2⟩ := @number_length 4 _ (k_lt freeMemoryCounter 2)
  have hMB : "MB".toList.length = 2 := by decide
  have hKB : "KB".toList.length = 2 := by decide
  have hBytes : "Bytes".toList.length = 5 := by decide
  rw [statusText_eq, List.length_map]
  simp only [List.length_append, hMB, hKB, hBytes]
  change _ ≤ max 4 4 at hhi1 hhi2
  change 4 ≤ _ at hlo1 hlo2
  change _ ≤ max 0 4 at hhi
  omega

/-- Seven bytes at least, and ten at most, are written behind `a`. -/
theorem overrun_length : 7 ≤ (overrun (statusText freeMemoryCounter)).length ∧
    (overrun (statusText freeMemoryCounter)).length ≤ 10 := by
  obtain ⟨hlo, hhi⟩ := @statusText_length freeMemoryCounter
  unfold overrun A_SIZE
  rw [List.length_drop, List.length_append, List.length_singleton]
  omega

/-- A text of printable characters. -/
theorem letters_of_all (text : List Char) (h : text.all (fun c => decide (32 ≤ byteOf c)) = true) :
    ∀ c ∈ text, 32 ≤ byteOf c := by
  simpa using h

/-- There are no control characters in a number. -/
theorem number_letter {n : UInt32} (hn : n.toNat < 10 ^ 4) (hc : c ∈ number width n) : 32 ≤ byteOf c := by
  have hdigit : ∀ d < 10, 32 ≤ byteOf (Printf.digitChar false d) := by decide
  rcases Printf.mem_itoa (by omega) rfl rfl rfl hc with rfl | ⟨d, hd, rfl⟩
  · decide
  · exact hdigit d hd

theorem statusText_letters : ∀ c ∈ statusText freeMemoryCounter, 32 ≤ c := by
  have hMB := letters_of_all "MB".toList (by decide)
  have hKB := letters_of_all "KB".toList (by decide)
  have hBytes := letters_of_all "Bytes".toList (by decide)
  rw [statusText_eq, List.forall_mem_map]
  simp only [List.forall_mem_append]
  exact ⟨fun _ => number_letter (k_lt _ 0), hMB, fun _ => number_letter (k_lt _ 1), hKB,
    fun _ => number_letter (k_lt _ 2), hBytes⟩

/-! ## Where it is drawn -/

/-- The line ends at 272, whatever the numbers are. -/
theorem statusLine_inside (hwide : 272 ≤ xRes) (hx : xRes < 2 ^ 15) (htall : 600 ≤ yRes) :
    ∀ d ∈ statusLine xRes (statusText freeMemoryCounter), d.Inside xRes yRes := by
  have hlen := (@statusText_length freeMemoryCounter).2
  intro d hd
  rcases List.mem_cons.mp hd with rfl | hd
  · exact ⟨by decide, hwide, by decide, by omega⟩
  · exact drawString_inside hx statusText_letters (by omega) (by omega) d hd

/-- On a narrower screen it is filled beyond the right edge. -/
theorem statusLine_outside (hnarrow : xRes < 272) (text : List UInt8) :
    ∃ d ∈ statusLine xRes text, ¬ d.Inside xRes yRes :=
  ⟨_, List.mem_cons_self, fun h => absurd h.2.1 (by omega)⟩

theorem startScreen_inside (hwide : 272 ≤ xRes) (hx : xRes < 2 ^ 15) (htall : 600 ≤ yRes) :
    ∀ d ∈ startScreen xRes, d.Inside xRes yRes := by
  have hlen : ("Norlit OS".toList.map byteOf).length = 9 := by decide
  have hletters : ∀ c ∈ "Norlit OS".toList.map byteOf, 32 ≤ c :=
    List.forall_mem_map.mpr (letters_of_all _ (by decide))
  intro d hd
  rcases List.mem_cons.mp hd with rfl | hd
  · exact ⟨Nat.zero_le _, Nat.le_refl _, Nat.zero_le _, by omega⟩
  · rcases List.mem_cons.mp hd with rfl | hd
    · trivial
    · exact drawString_inside hx hletters (by omega) (by omega) d hd

end Video

end NorlitOS
