import Mathlib.Data.List.Basic
import Mathlib.Data.Set.Card

/-!
# A volume: files by path

What a file store is for: a path leads to a file or to none, and a file holds something. A file that
has been written is plain, and no path leads through it. Opening a path makes what is missing of it,
and leaves everything else as it is; which handles the new files get is left open.
-/

/-- What paths of names in `N` lead to, and what the files hold. -/
structure Volume (N H C : Type) where
  file : List N → Option H
  content : H → C
  plain : H → Prop
  free : Nat
  root : (file []).isSome
  parent : ∀ {q n}, (file (q ++ [n])).isSome → (file q).isSome
  inj : ∀ {q q' h}, file q = some h → file q' = some h → q = q'
  leaf : ∀ {q n h}, file q = some h → plain h → file (q ++ [n]) = none

namespace Volume

variable {N H C : Type}

/-- The names under a path. -/
def names (V : Volume N H C) (q : List N) : Set N := {n | (V.file (q ++ [n])).isSome}

/-- No path leads through the file. -/
def Leaf (V : Volume N H C) (q : List N) : Prop := ∀ n, V.file (q ++ [n]) = none

/-- How many of the names of `p` lead to nothing from `q` on. -/
def missing (V : Volume N H C) : List N → List N → Nat
  | _, [] => 0
  | q, n :: p => (if (V.file (q ++ [n])).isSome then 0 else 1) + V.missing (q ++ [n]) p

/-- What is asked of a volume. -/
inductive Request (N H C : Type) where
  | openPath (p : List N)
  | read (h : H)
  | write (h : H) (c : C)

/-- What it answers. -/
inductive Answer (H C : Type) where
  | handle (h : H)
  | content (c : C)
  | done

/-- What is the same for all volumes of a kind: what a file costs, how many names a directory has at
most, and what a new file holds. -/
structure Kind (C : Type) where
  cost : Nat
  limit : Nat
  blank : C

/-- Opening `p` gives `h`. -/
structure Opens (K : Kind C) (V : Volume N H C) (p : List N) (h : H) (V' : Volume N H C) : Prop where
  found : V'.file p = some h
  file : ∀ r, V'.file r = V.file r ∨ (V.file r = none ∧ r <+: p)
  content : ∀ {r g}, V.file r = some g → V'.content g = V.content g
  plain : ∀ {r g}, V.file r = some g → (V'.plain g ↔ V.plain g)
  made : ∀ {r g}, V'.file r = some g → V.file r = none → V'.content g = K.blank ∧ ¬ V'.plain g
  free : V'.free + K.cost * V.missing [] p = V.free

/-- Writing `c` to `h`. -/
structure Writes (V : Volume N H C) (h : H) (c : C) (V' : Volume N H C) : Prop where
  file : V'.file = V.file
  self : V'.content h = c
  other : ∀ g, g ≠ h → V'.content g = V.content g
  plain : ∀ g, V'.plain g ↔ V.plain g ∨ g = h
  free : V'.free = V.free

/-- One request. What a file holds is told when it is a leaf. -/
inductive Step (K : Kind C) : Volume N H C → Request N H C → Answer H C → Volume N H C → Prop where
  | openPath {V V' : Volume N H C} {p : List N} {h : H} (hO : V.Opens K p h V') :
      Step K V (.openPath p) (.handle h) V'
  | read {V : Volume N H C} {q : List N} {h : H} {c : C} (hq : V.file q = some h)
      (hc : V.Leaf q → c = V.content h) : Step K V (.read h) (.content c) V
  | write {V V' : Volume N H C} {h : H} {c : C} (hW : V.Writes h c V') :
      Step K V (.write h c) .done V'

/-- The path leads through directories, and there is room for what is missing. -/
structure Room (K : Kind C) (V : Volume N H C) (p : List N) : Prop where
  directory : ∀ {q n h}, q ++ [n] <+: p → V.file q = some h → ¬ V.plain h
  names : ∀ {q n}, q ++ [n] <+: p → (V.file q).isSome → V.file (q ++ [n]) = none →
    (V.names q).encard < K.limit
  free : K.cost * V.missing [] p ≤ V.free

/-- What may be asked. -/
def Allows (K : Kind C) (V : Volume N H C) : Request N H C → Prop
  | .openPath p => V.Room K p
  | .read h => ∃ q, V.file q = some h
  | .write h _ => ∃ q, V.file q = some h ∧ V.Leaf q

variable {V V' V₁ : Volume N H C} {K : Kind C} {p q r : List N} {n : N} {h g : H} {c : C}

/-! ## What is missing

A path is missing from its first component on that leads nowhere, and then the rest of it is
missing too. -/

theorem missing_append : V.missing q (p ++ r) = V.missing q p + V.missing (q ++ p) r := by
  induction p generalizing q with
  | nil => simp [missing]
  | cons n p ih =>
    rw [List.cons_append, missing, missing, ih, List.append_assoc, List.singleton_append,
      Nat.add_assoc]

/-- What is in front of a file is there. -/
theorem isSome_of_prefix (hpre : q <+: p) (h : (V.file p).isSome) : (V.file q).isSome := by
  obtain ⟨r, rfl⟩ := hpre
  induction r using List.reverseRecOn with
  | nil => simpa using h
  | append_singleton r n ih =>
    rw [← List.append_assoc] at h
    exact ih (V.parent h)

theorem missing_eq_zero (h : (V.file (q ++ p)).isSome) : V.missing q p = 0 := by
  induction p generalizing q with
  | nil => rfl
  | cons n p ih =>
    have hfirst : (V.file (q ++ [n])).isSome := isSome_of_prefix (by simp) h
    rw [missing, if_pos hfirst, ih (by simpa using h)]

/-- One name more than there is. -/
theorem missing_concat (hq : (V.file q).isSome) (hno : V.file (q ++ [n]) = none) :
    V.missing [] (q ++ [n]) = 1 := by
  have hfront : V.missing [] q = 0 := missing_eq_zero hq
  rw [missing_append, hfront, missing, missing, List.nil_append, hno, if_neg (by simp)]

theorem missing_eq_length (h : V.file q = none) : V.missing q p = p.length := by
  induction p generalizing q with
  | nil => rfl
  | cons n p ih =>
    have hnext : V.file (q ++ [n]) = none := by
      by_contra hsome
      have hq : (V.file q).isSome := V.parent (Option.isSome_iff_ne_none.mpr hsome)
      rw [h] at hq
      exact Bool.false_ne_true hq
    rw [missing, hnext, if_neg (by simp), ih hnext, List.length_cons, Nat.add_comm]

theorem missing_congr (hsame : ∀ r, r ≠ [] → V'.file (q ++ r) = V.file (q ++ r)) :
    V'.missing q p = V.missing q p := by
  induction p generalizing q with
  | nil => rfl
  | cons n p ih =>
    rw [missing, missing, hsame [n] (List.cons_ne_nil n [])]
    congr 1
    apply ih
    intro r _
    rw [List.append_assoc]
    exact hsame ([n] ++ r) (List.cons_ne_nil n r)

/-! ## A root and nothing else

The volume that a new file system stands for. -/

/-- The root is a directory, and there is no other file. -/
structure Bare (V : Volume N H C) (h : H) : Prop where
  file : ∀ {q g}, V.file q = some g ↔ q = [] ∧ g = h
  directory : ¬ V.plain h

namespace Bare

variable (hB : V.Bare h)

include hB

theorem eq_none : V.file (n :: p) = none :=
  Option.eq_none_iff_forall_ne_some.mpr fun _ hg => List.cons_ne_nil n p (hB.file.mp hg).1

theorem eq_nil (hq : (V.file q).isSome) : q = [] := by
  obtain ⟨g, hg⟩ := Option.isSome_iff_exists.mp hq
  exact (hB.file.mp hg).1

theorem names_eq (hq : (V.file q).isSome) : V.names q = ∅ := by
  have hnone : ∀ n, V.file (q ++ [n]) = none := by
    rw [hB.eq_nil hq]
    exact fun n => hB.eq_none
  ext n
  simp [names, hnone n]

/-- Every path can be made that the free space is enough for. -/
theorem room (hlimit : 0 < K.limit) (hfree : K.cost * p.length ≤ V.free) : V.Room K p where
  directory {q n g} _ hq := (hB.file.mp hq).2 ▸ hB.directory
  names {q n} _ hq _ := by
    rw [hB.names_eq hq, Set.encard_empty]
    exact_mod_cast hlimit
  free := by
    cases p with
    | nil => exact Nat.zero_le _
    | cons n p =>
      have hfirst : V.file ([] ++ [n]) = none := hB.eq_none
      rw [missing, hfirst, if_neg (by simp), missing_eq_length hfirst, Nat.add_comm]
      exact hfree

end Bare

/-! ## Opening in steps

A path may be opened component by component. One step that makes a file, and any number of them,
are again an opening. -/

namespace Opens

/-- A path that leads to a file is opened without a change. -/
theorem refl (h : V.file p = some g) : V.Opens K p g V where
  found := h
  file _ := Or.inl rfl
  content _ := rfl
  plain _ := Iff.rfl
  made hr hnone := absurd (hr.symm.trans hnone) (Option.some_ne_none _)
  free := by
    have hzero : V.missing [] p = 0 := missing_eq_zero (by simp [h])
    rw [hzero, Nat.mul_zero, Nat.add_zero]

/-- What is there stays. -/
theorem keeps (hO : V.Opens K p h V') (hr : V.file r = some g) : V'.file r = some g := by
  rcases hO.file r with heq | ⟨hnone, -⟩
  · rw [heq, hr]
  · exact absurd (hr.symm.trans hnone) (Option.some_ne_none _)

/-- **Opening a path in two steps.** -/
theorem trans (h₁ : V.Opens K q h V₁) (h₂ : V₁.Opens K (q ++ p) g V') :
    V.Opens K (q ++ p) g V' where
  found := h₂.found
  file r := by
    rcases h₂.file r with heq | ⟨hnone, hpre⟩
    · rw [heq]
      exact (h₁.file r).imp id fun hnew => ⟨hnew.1, hnew.2.trans (List.prefix_append q p)⟩
    · refine Or.inr ⟨?_, hpre⟩
      by_contra hsome
      obtain ⟨g', hg'⟩ := Option.ne_none_iff_exists'.mp hsome
      exact absurd ((h₁.keeps hg').symm.trans hnone) (Option.some_ne_none _)
  content hr := (h₂.content (h₁.keeps hr)).trans (h₁.content hr)
  plain hr := (h₂.plain (h₁.keeps hr)).trans (h₁.plain hr)
  made {r g'} hr hnone := by
    cases hmid : V₁.file r with
    | none => exact h₂.made hr hmid
    | some g₁ =>
      -- made in the first step, and left alone in the second
      obtain rfl : g₁ = g' := Option.some.inj ((h₂.keeps hmid).symm.trans hr)
      obtain ⟨hblank, hplain⟩ := h₁.made hmid hnone
      exact ⟨(h₂.content hmid).trans hblank, fun hp => hplain ((h₂.plain hmid).mp hp)⟩
  free := by
    have hfree₁ := h₁.free
    have hfree₂ := h₂.free
    have hfront : V₁.missing [] q = 0 := missing_eq_zero (by simp [h₁.found])
    -- behind `q` the first step has made nothing
    have hbehind : V₁.missing q p = V.missing q p := by
      apply missing_congr
      intro r hr
      rcases h₁.file (q ++ r) with heq | ⟨-, hpre⟩
      · exact heq
      · have hle := hpre.length_le
        rw [List.length_append] at hle
        have hpos := List.length_pos_of_ne_nil hr
        omega
    have hsum : V.missing [] (q ++ p) = V.missing [] q + V₁.missing [] (q ++ p) := by
      rw [missing_append, missing_append, hfront, List.nil_append, hbehind, Nat.zero_add]
    rw [hsum, Nat.mul_add]
    omega

end Opens

end Volume
